import ConditionalText.Text.Basic

/-!
# Locations

An offset in a text, as a line and a column for people to read (specification, §11.1). Lines end at
line feeds, columns count characters, and both start at 1. An offset inside a character means that
character, and one beyond the end means the end.
-/

namespace ConditionalText.Text

/-- The characters that end at or before byte offset `n`. -/
def fitBytes : Nat → Text → Text
  | _, [] => []
  | n, c :: rest => if c.utf8Size ≤ n then c :: fitBytes (n - c.utf8Size) rest else []

/-- A place in a text, both parts from 1. -/
structure Location where
  line : Nat
  column : Nat
  deriving DecidableEq, Repr

/-- The place just after a text. -/
def Location.after (before : Text) : Location :=
  { line := 1 + before.count '\n', column := 1 + (lastLine before).length }

/-- `locate` (§11.1): the place of a byte offset. -/
def locate (t : Text) (offset : Nat) : Location :=
  .after (fitBytes offset t)

def Location.render (l : Location) : String :=
  toString l.line ++ ":" ++ toString l.column

theorem fitBytes_byteLength_append (a b : Text) :
    fitBytes (byteLength a) (a ++ b) = a ++ fitBytes 0 b := by
  induction a with
  | nil => rfl
  | cons c a ih =>
    rw [byteLength_cons, List.cons_append, fitBytes, if_pos (Nat.le_add_right _ _),
      Nat.add_sub_cancel_left, ih, List.cons_append]

/-- The offset of the end of a part of the text is located after that part. -/
theorem locate_byteLength_append (a b : Text) : locate (a ++ b) (byteLength a) = .after a := by
  have hb : fitBytes 0 b = [] := by
    cases b with
    | nil => rfl
    | cons c b => simp [fitBytes, Nat.ne_of_gt c.utf8Size_pos]
  rw [locate, fitBytes_byteLength_append, hb, List.append_nil]

end ConditionalText.Text
