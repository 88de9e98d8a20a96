import ConditionalText.Text.Blank
import ConditionalText.Text.Word

/-!
# Blanks around a text

What trimming takes away, told by the parts of a text.

* `exists_trimEnd`, `exists_trim`: a text is what is left of it, with blanks at its ends.
* `trim_eq_of_blanks`: and what does not start or end with a blank is all that is left.
-/

namespace ConditionalText.Text

/-- What is left of a text without a run at its start does not start in the class of the run. -/
theorem eq_false_of_head?_dropWhile {member : Char → Bool} {t : Text} {c : Char}
    (h : (t.dropWhile member).head? = some c) : member c = false := by
  have hnot := List.head?_dropWhile_not member t
  rw [h] at hnot
  exact hnot

theorem exists_trimEnd (t : Text) :
    ∃ trail, t = trimEnd t ++ trail ∧ (∀ c ∈ trail, isBlank c = true) ∧
      ∀ c, (trimEnd t).getLast? = some c → isBlank c = false := by
  refine ⟨(t.reverse.takeWhile isBlank).reverse, ?_, fun c hc => ?_, fun c hc => ?_⟩
  · rw [trimEnd, ← List.reverse_append, List.takeWhile_append_dropWhile, List.reverse_reverse]
  · exact List.all_eq_true.mp List.all_takeWhile c (List.mem_reverse.mp hc)
  · rw [trimEnd, List.getLast?_reverse] at hc
    exact eq_false_of_head?_dropWhile hc

theorem isBlank_eq_false_of_isWordChar {c : Char} (h : isWordChar c = true) : isBlank c = false := by
  simp only [isWordChar, isWordStart, isLetter, isDigit, Bool.or_eq_true, Bool.and_eq_true,
    decide_eq_true_eq, Char.le_def, UInt32.le_iff_toNat_le] at h
  rcases h with (rfl | hletter) | hdigit
  · decide
  · have hrange : 65 ≤ c.toNat ∧ c.toNat ≤ 122 := by
      rcases hletter with ⟨hlow, hhigh⟩ | ⟨hlow, hhigh⟩
      · change 97 ≤ c.toNat at hlow
        change c.toNat ≤ 122 at hhigh
        omega
      · change 65 ≤ c.toNat at hlow
        change c.toNat ≤ 90 at hhigh
        omega
    simp only [isBlank, Bool.or_eq_false_iff, Bool.and_eq_false_iff, decide_eq_false_iff_not]
    omega
  · obtain ⟨hlow, hhigh⟩ := hdigit
    change 48 ≤ c.toNat at hlow
    change c.toNat ≤ 57 at hhigh
    simp only [isBlank, Bool.or_eq_false_iff, Bool.and_eq_false_iff, decide_eq_false_iff_not]
    omega

/-- Blanks at the end of a text do not count where blanks are cut off its end. -/
theorem trimEnd_append_of_blank (t : Text) {blanks : Text} (h : ∀ c ∈ blanks, isBlank c = true) :
    trimEnd (t ++ blanks) = trimEnd t := by
  rw [trimEnd, List.reverse_append, List.dropWhile_append_of_pos, trimEnd]
  exact fun c hc => h c (List.mem_reverse.mp hc)

theorem exists_trim (t : Text) :
    ∃ lead trail, t = lead ++ trim t ++ trail ∧ (∀ c ∈ lead, isBlank c = true) ∧
      ∀ c ∈ trail, isBlank c = true := by
  obtain ⟨trail, htrail, hblank, -⟩ := exists_trimEnd (trimStart t)
  refine ⟨t.takeWhile isBlank, trail, ?_, fun c hc => ?_, hblank⟩
  · rw [List.append_assoc, trim, ← htrail, trimStart, List.takeWhile_append_dropWhile]
  · exact List.all_eq_true.mp List.all_takeWhile c hc

/-- Between blanks, what neither starts nor ends with one is left. -/
theorem trim_eq_of_blanks {lead core trail : Text} (hlead : ∀ c ∈ lead, isBlank c = true)
    (htrail : ∀ c ∈ trail, isBlank c = true) (hcore : core ≠ [])
    (hstarts : ∀ c ∈ core.head?, isBlank c = false)
    (hends : ∀ c ∈ core.getLast?, isBlank c = false) : trim (lead ++ core ++ trail) = core := by
  have hkeep {t : Text} (hne : t ≠ []) (h : ∀ c ∈ t.head?, isBlank c = false) :
      t.dropWhile isBlank = t := by
    obtain ⟨c, t, rfl⟩ := List.exists_cons_of_ne_nil hne
    exact List.dropWhile_cons_of_neg (Bool.eq_false_iff.mp (h c rfl))
  have hfront : trimStart (lead ++ core ++ trail) = core ++ trail := by
    have hhead : (core ++ trail).head? = core.head? := by
      obtain ⟨c, core, rfl⟩ := List.exists_cons_of_ne_nil hcore
      rfl
    rw [trimStart, List.append_assoc, List.dropWhile_append_of_pos hlead]
    exact hkeep (List.append_ne_nil_of_left_ne_nil hcore trail) (hhead ▸ hstarts)
  have hback : core.reverse.dropWhile isBlank = core.reverse :=
    hkeep (mt List.reverse_eq_nil_iff.mp hcore) (List.head?_reverse ▸ hends)
  rw [trim, hfront, trimEnd_append_of_blank core htrail, trimEnd, hback, List.reverse_reverse]

end ConditionalText.Text
