import ConditionalText.Text.Span

/-!
# Where an output comes from

The position map of the specification (§3, §4.5). An output put together from spans of a source is
described by anchors, the breakpoints of §3: each says at which output offset the text from which
source offset begins. Between two of them offsets run in step.
-/

namespace ConditionalText

open ConditionalText.Text

/-- From here on the output is the source from there on. -/
structure Anchor where
  output : Nat
  source : Nat
  deriving DecidableEq, Repr

/-- The anchors of an output, in order, and its length. -/
structure OffsetMap where
  anchors : List Anchor
  outputLength : Nat
  deriving DecidableEq, Repr

/-- A piece of the output and where it comes from. -/
structure Piece where
  output : Span
  source : Span
  deriving DecidableEq, Repr

namespace OffsetMap

/-- The anchors of spans put one after another from an output offset on. -/
def anchorsFrom (output : Nat) : List Span → List Anchor
  | [] => []
  | s :: more =>
    if s.isEmpty then anchorsFrom output more
    else ⟨output, s.start⟩ :: anchorsFrom (output + s.length) more

/-- The map of an output put together from spans (§4.5); empty ones leave no anchor. -/
def ofSpans (spans : List Span) : OffsetMap :=
  { anchors := anchorsFrom 0 spans, outputLength := Span.total spans }

/-- `lookup` (§12.3): the source offset of an output offset, in step from the last anchor before
it. -/
def sourceOffset? (m : OffsetMap) (offset : Nat) : Option Nat :=
  if m.outputLength < offset then none
  else
    (m.anchors.takeWhile fun b => b.output ≤ offset).getLast?.map fun b =>
      b.source + (offset - b.output)

/-- The pieces between anchors, the last one up to the given end. -/
def piecesTo (stop : Nat) : List Anchor → List Piece
  | [] => []
  | b :: more =>
    let next := (more.head?.map Anchor.output).getD stop
    { output := ⟨b.output, next⟩, source := ⟨b.source, b.source + (next - b.output)⟩ } ::
      piecesTo stop more

/-- The pieces of the output, in order. -/
def pieces (m : OffsetMap) : List Piece :=
  piecesTo m.outputLength m.anchors

end OffsetMap

end ConditionalText
