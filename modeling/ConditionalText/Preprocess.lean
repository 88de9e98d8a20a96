import ConditionalText.Cuts
import ConditionalText.Directive.Nesting
import ConditionalText.Predicate.Decision
import ConditionalText.SourceMap.Basic

/-!
# Preprocessing

The preprocessor of the specification (§2, §6), which drives the other components. The text between
two directives is kept or cut as the blocks around it say; directives themselves are kept (§4.4).
The first thing wrong in the order of the text ends the work (§7), on one line the form of the
directive before its place and its place before its predicate; a block left open is noticed at the
end.
-/

namespace ConditionalText

open ConditionalText.Text

/-- What becomes of a source. -/
structure Output where
  text : Text
  /-- Where the text comes from. -/
  offsets : OffsetMap
  removedBytes : Nat
  deriving DecidableEq, Repr

namespace Output

/-- Whether nothing was cut. -/
def isUnchanged (o : Output) : Bool :=
  o.removedBytes == 0

/-- The source map of an output. -/
def sourceMap (o : Output) (source : Text) (labels : SourceMap.Labels) : SourceMap :=
  .ofOffsetMap o.offsets source o.text labels

end Output

/-- How far preprocessing has come. -/
structure Progress where
  nesting : Nesting
  cuts : Cuts
  /-- The end of the last directive. -/
  position : Nat
  deriving DecidableEq, Repr

namespace Progress

def start : Progress := ⟨.start, .empty, 0⟩

/-- Cuts the text up to an offset if it is disabled. -/
def cutTo (p : Progress) (offset : Nat) : Cuts :=
  if p.nesting.enabled then p.cuts else p.cuts.cut ⟨p.position, offset⟩

/-- One directive further. -/
def step (answer : Decider) (p : Progress) (d : Directive) :
    Except SourceError Progress :=
  (p.nesting.after answer d).map fun nesting =>
    { nesting, cuts := p.cutTo d.span.start, position := d.span.stop }

/-- All directives, up to the first thing wrong. -/
def run (answer : Decider) (p : Progress) :
    List Directive.Item → Except SourceError Progress
  | [] => .ok p
  | .error e :: _ => .error (.malformed e)
  | .ok d :: more => (p.step answer d).bind fun next => next.run answer more

/-- The end of the text: no block may be open. -/
def finish (p : Progress) (source : Text) : Except SourceError Output :=
  p.nesting.checkClosed.map fun _ =>
    let cuts := p.cutTo (byteLength source)
    { text := cuts.remainder source
      offsets := .ofSpans (cuts.kept (byteLength source))
      removedBytes := cuts.bytes }

end Progress

/-- The text that an environment makes of a source (§6). -/
def preprocess (env : Environment) (source : Text) : Except SourceError Output :=
  (Progress.start.run (Predicate.holdsIn env) (Directive.items source)).bind fun p =>
    p.finish source

end ConditionalText
