import ConditionalText.OffsetMap
import ConditionalText.SourceMap.Vlq

/-!
# The mappings of a source map

The mappings are as fine as they can be (specification, §12.4): every character of the output other
than a line feed gets a segment that says where it comes from. Lines and columns count from 0, and
columns count UTF-16 units.

In the text of the mappings a semicolon ends a line of the output and a comma stands between two
segments of one line. A segment has four numbers, each the difference to its last value: the output
column (counted anew on each line), the source, the source line and the source column.
-/

namespace ConditionalText.SourceMap

open ConditionalText.Text

/-- A line and a column, both from 0. -/
structure Position where
  line : Nat
  column : Nat
  deriving DecidableEq, Repr

/-- The number of UTF-16 units of a character. -/
def units16 (c : Char) : Nat :=
  if c.toNat < 0x10000 then 1 else 2

namespace Position

def start : Position := ⟨0, 0⟩

/-- The place behind a character. -/
def advance (p : Position) (c : Char) : Position :=
  if c = '\n' then ⟨p.line + 1, 0⟩ else ⟨p.line, p.column + units16 c⟩

/-- The place behind a text. -/
def advanceBy (p : Position) (t : Text) : Position :=
  t.foldl advance p

/-- The place of a byte offset in a text. -/
def ofOffset (t : Text) (offset : Nat) : Position :=
  start.advanceBy (takeBytes offset t)

end Position

/-- A character of the output and where it comes from. -/
structure Segment where
  generated : Position
  source : Position
  deriving DecidableEq, Repr

/-- The segments of a text copied from one place to another. -/
def copySegments (generated source : Position) : Text → List Segment
  | [] => []
  | c :: rest =>
    let after := copySegments (generated.advance c) (source.advance c) rest
    if c = '\n' then after else ⟨generated, source⟩ :: after

/-- The segments of pieces of an output, the first of which starts at a given place. -/
def segmentsFrom (source output : Text) (generated : Position) : List Piece → List Segment
  | [] => []
  | s :: more =>
    let piece := s.output.extract output
    copySegments generated (.ofOffset source s.source.start) piece ++
      segmentsFrom source output (generated.advanceBy piece) more

/-- The segments of an output. -/
def segments (m : OffsetMap) (source output : Text) : List Segment :=
  segmentsFrom source output .start m.pieces

/-! ## Their text -/

/-- What the differences of the next segment refer to. -/
structure Reference where
  /-- The line of the output that has been reached. -/
  line : Nat
  /-- The last output column on that line, if it has a segment. -/
  column : Option Nat
  /-- The last source position. -/
  source : Position
  deriving DecidableEq, Repr

def Reference.start : Reference := ⟨0, none, .start⟩

/-- The difference of two natural numbers. -/
def difference (current previous : Nat) : Int :=
  (current : Int) - (previous : Int)

/-- The four numbers of a segment. -/
def encodeFields (column : Nat) (source : Position) (s : Segment) : Text :=
  encodeVlq (difference s.generated.column column) ++ encodeVlq 0 ++
    encodeVlq (difference s.source.line source.line) ++
    encodeVlq (difference s.source.column source.column)

/-- The text of segments after what has been written so far. -/
def encodeFrom (r : Reference) : List Segment → Text
  | [] => []
  | s :: more =>
    let column := if r.line < s.generated.line then none else r.column
    List.replicate (s.generated.line - r.line) ';' ++
      (if column.isSome then [','] else []) ++
      encodeFields (column.getD 0) r.source s ++
      encodeFrom ⟨s.generated.line, some s.generated.column, s.source⟩ more

/-- The mappings of an output. -/
def encodeMappings (m : OffsetMap) (source output : Text) : Text :=
  encodeFrom .start (segments m source output)

end ConditionalText.SourceMap
