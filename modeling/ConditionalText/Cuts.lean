import ConditionalText.Text.Span

/-!
# Cutting spans out of a text

The text splicer of the specification (§4.4). Spans are cut from left to right. `Cuts` keeps what
has been cut, neighbours joined, so that the cut spans are apart from each other, as the spans to
remove of §3 are; `kept` is what lies between them.
-/

namespace ConditionalText

open ConditionalText.Text

/-- The spans cut so far, from left to right. -/
structure Cuts where
  spans : List Span
  deriving DecidableEq, Repr

namespace Cuts

def empty : Cuts := ⟨[]⟩

/-- A span added at the right end, joined to its neighbour if they touch. -/
def addSpan (s : Span) : List Span → List Span
  | [] => [s]
  | [last] => if last.stop = s.start then [⟨last.start, s.stop⟩] else [last, s]
  | first :: more => first :: addSpan s more

/-- `markDisabled` (§4.4): cuts a span that starts at or behind the end of what has been cut; an
empty one changes nothing. -/
def cut (c : Cuts) (s : Span) : Cuts :=
  if s.isEmpty then c else ⟨addSpan s c.spans⟩

/-- The number of bytes cut. -/
def bytes (c : Cuts) : Nat :=
  Span.total c.spans

/-- What lies between the spans, from a given offset to the end of the text. -/
def keptFrom (offset length : Nat) : List Span → List Span
  | [] => if offset < length then [⟨offset, length⟩] else []
  | s :: more =>
    let after := keptFrom s.stop length more
    if offset < s.start then ⟨offset, s.start⟩ :: after else after

/-- The spans that are left of a text of the given length. -/
def kept (c : Cuts) (length : Nat) : List Span :=
  keptFrom 0 length c.spans

/-- `build` (§4.4): what is left of a text. -/
def remainder (c : Cuts) (source : Text) : Text :=
  Span.extractAll (c.kept (byteLength source)) source

end Cuts

end ConditionalText
