import ConditionalText.Text.Basic

/-!
# Spans of a text

A span is a range of byte offsets, its end excluded. A span whose end does not lie behind its start
is empty, wherever it stands.
-/

namespace ConditionalText.Text

/-- The byte offsets from `start` up to but without `stop`. -/
structure Span where
  start : Nat
  stop : Nat
  deriving DecidableEq, Repr

namespace Span

def length (s : Span) : Nat :=
  s.stop - s.start

def isEmpty (s : Span) : Bool :=
  s.stop ≤ s.start

/-- The text of a span. -/
def extract (s : Span) (t : Text) : Text :=
  slice s.start s.stop t

/-- The number of bytes of a list of spans. -/
def total : List Span → Nat
  | [] => 0
  | s :: more => s.length + total more

/-- The texts of some spans, one after another. -/
def extractAll (spans : List Span) (t : Text) : Text :=
  spans.flatMap fun s => s.extract t

theorem length_eq_zero_iff (s : Span) : s.length = 0 ↔ s.isEmpty = true := by
  simp only [length, isEmpty, decide_eq_true_eq]
  omega

end Span

end ConditionalText.Text
