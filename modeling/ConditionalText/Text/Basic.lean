/-!
# Text and its UTF-8 offsets

A text is its sequence of Unicode scalar values, so that reading is recursion on a list. Positions
inside a text are byte offsets of its UTF-8 form; `byteLength` is the measure that ties the two
together.

* `byteLength_append`: the measure is additive, so a cut of a text cuts its bytes.
* `takeBytes_append_dropBytes`: cutting at an offset loses nothing.
* `takeBytes_append` / `dropBytes_append`: at a boundary the cut is the expected one.
* `pieces`: a text cut at every occurrence of a character; `joinWith_pieces` puts it together
  again, and no piece holds the character (`not_mem_of_mem_pieces`).
-/

namespace ConditionalText

/-- A text is its sequence of Unicode scalar values. -/
abbrev Text := List Char

/-- Bytes are compared as a whole. -/
instance instDecidableEqBytes : DecidableEq ByteArray := ByteArray.instDecidableEq

namespace Text

/-! ## Byte offsets -/

/-- The number of bytes of a text in UTF-8. -/
def byteLength : Text → Nat
  | [] => 0
  | c :: rest => c.utf8Size + byteLength rest

/-- The characters that start before byte offset `n`. -/
def takeBytes : Nat → Text → Text
  | _, [] => []
  | 0, _ => []
  | n + 1, c :: rest => c :: takeBytes (n + 1 - c.utf8Size) rest

/-- The characters that start at byte offset `n` or later. -/
def dropBytes : Nat → Text → Text
  | _, [] => []
  | 0, t => t
  | n + 1, c :: rest => dropBytes (n + 1 - c.utf8Size) rest

/-- The text between two byte offsets, both at the start of a character. -/
def slice (start stop : Nat) (t : Text) : Text :=
  takeBytes (stop - start) (dropBytes start t)

@[simp] theorem byteLength_nil : byteLength [] = 0 := rfl

@[simp] theorem byteLength_cons (c : Char) (t : Text) :
    byteLength (c :: t) = c.utf8Size + byteLength t := rfl

theorem byteLength_append (a b : Text) : byteLength (a ++ b) = byteLength a + byteLength b := by
  induction a with
  | nil => simp
  | cons c a ih => simp only [List.cons_append, byteLength_cons, ih, Nat.add_assoc]

/-- Cutting at an offset loses nothing, wherever the offset lies. -/
theorem takeBytes_append_dropBytes (n : Nat) (t : Text) : takeBytes n t ++ dropBytes n t = t := by
  fun_induction takeBytes n t <;> simp_all [dropBytes]

theorem takeBytes_zero (t : Text) : takeBytes 0 t = [] := by cases t <;> rfl

/-- At the end of `a` the part before the cut is `a`. -/
theorem takeBytes_append (a b : Text) : takeBytes (byteLength a) (a ++ b) = a := by
  induction a with
  | nil => exact takeBytes_zero b
  | cons c a ih =>
    have hc : 0 < c.utf8Size := c.utf8Size_pos
    obtain ⟨k, hk⟩ : ∃ k, c.utf8Size + byteLength a = k + 1 := ⟨_, (Nat.succ_pred (by omega)).symm⟩
    rw [byteLength_cons, hk, List.cons_append, takeBytes, ← hk, Nat.add_sub_cancel_left, ih]

/-- At the end of `a` the part after the cut is what follows `a`. -/
theorem dropBytes_append (a b : Text) : dropBytes (byteLength a) (a ++ b) = b := by
  have h := takeBytes_append_dropBytes (byteLength a) (a ++ b)
  rw [takeBytes_append] at h
  exact List.append_cancel_left h

/-! ## Pieces and lines -/

/-- The pieces of a text between the occurrences of a character; a text without any is a single
piece. -/
def pieces (separator : Char) : Text → List Text
  | [] => [[]]
  | c :: rest =>
    match pieces separator rest with
    | [] => [[c]]
    | piece :: more => if c = separator then [] :: piece :: more else (c :: piece) :: more

/-- Pieces put together with a character between each two. -/
def joinWith (separator : Char) : List Text → Text
  | [] => []
  | [piece] => piece
  | piece :: more => piece ++ separator :: joinWith separator more

/-- The pieces between line feeds. -/
def lines (t : Text) : List Text :=
  pieces '\n' t

theorem pieces_ne_nil (separator : Char) (t : Text) : pieces separator t ≠ [] := by
  cases t with
  | nil => simp [pieces]
  | cons c rest => rw [pieces]; split <;> (try split) <;> simp

/-- Putting the pieces together again gives the text. -/
theorem joinWith_pieces (separator : Char) (t : Text) :
    joinWith separator (pieces separator t) = t := by
  induction t with
  | nil => rfl
  | cons c rest ih =>
    rw [pieces]
    cases h : pieces separator rest with
    | nil => exact absurd h (pieces_ne_nil separator rest)
    | cons piece more =>
      rw [h] at ih
      by_cases hc : c = separator
      · simp [hc, joinWith, ih]
      · simp only [hc, if_false]
        cases more with
        | nil => simp_all [joinWith]
        | cons m ms => simp_all [joinWith]

/-- No piece holds the separator. -/
theorem not_mem_of_mem_pieces {separator : Char} {t piece : Text}
    (h : piece ∈ pieces separator t) : separator ∉ piece := by
  induction t generalizing piece with
  | nil => simp_all [pieces]
  | cons c rest ih =>
    rw [pieces] at h
    cases hp : pieces separator rest with
    | nil => exact absurd hp (pieces_ne_nil separator rest)
    | cons first more =>
      rw [hp] at h ih
      by_cases hc : c = separator
      · simp only [hc, if_true, List.mem_cons] at h
        rcases h with rfl | rfl | h
        · simp
        · exact ih (List.mem_cons_self)
        · exact ih (List.mem_cons_of_mem _ h)
      · simp only [hc, if_false, List.mem_cons] at h
        rcases h with rfl | h
        · have := ih (List.mem_cons_self)
          simp [this, Ne.symm hc]
        · exact ih (List.mem_cons_of_mem _ h)

/-- The text after the last line feed. -/
def lastLine (t : Text) : Text :=
  (t.reverse.takeWhile (· ≠ '\n')).reverse

end Text

end ConditionalText
