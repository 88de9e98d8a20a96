import ConditionalText.Proofs.Text.Blank
import ConditionalText.Proofs.Text.Bytes
import ConditionalText.Text.Location

/-!
# Locations tell offsets apart

A location is read off the characters that end at or before an offset. Every further character leads
on to a later location (`after_lt_snoc`), so different beginnings of one text end at different ones.

* `lastLine_snoc`, `exists_append_lastLine`: the last line of a text is what follows its last line
  feed.
* `after_lt_append`: what is longer ends later.
* `fitBytes_of_holds`, `fitBytes_of_le`, `beyond_or_holds`: an offset lies beyond the text or is held
  by one of its characters, and then the characters before that one count.
* `locate_tells_offsets`: **locations grow with the boundaries of a text, and two offsets have one
  location only if both lie beyond the text or one character holds both.**
-/

namespace ConditionalText.Text

/-! ## The last line -/

theorem lastLine_snoc (t : Text) (c : Char) :
    lastLine (t ++ [c]) = if c = '\n' then [] else lastLine t ++ [c] := by
  unfold lastLine
  by_cases hc : c = '\n'
  · simp [hc]
  · simp [hc]

/-- The last line of a text is what follows its last line feed. -/
theorem exists_append_lastLine (t : Text) :
    ∃ before, t = before ++ lastLine t ∧ (∀ c ∈ before.getLast?, c = '\n') ∧ '\n' ∉ lastLine t := by
  refine ⟨(t.reverse.dropWhile (· ≠ '\n')).reverse, ?_, ?_, ?_⟩
  · rw [lastLine, ← List.reverse_append, List.takeWhile_append_dropWhile, List.reverse_reverse]
  · intro c hc
    rw [List.getLast?_reverse] at hc
    simpa using eq_false_of_head?_dropWhile hc
  · intro hline
    rw [lastLine, List.mem_reverse] at hline
    simpa using List.all_eq_true.mp List.all_takeWhile _ hline

/-! ## The order of locations -/

namespace Location

/-- An earlier line, or an earlier column of the same line. -/
instance : LT Location where
  lt l m := l.line < m.line ∨ l.line = m.line ∧ l.column < m.column

theorem lt_iff {l m : Location} :
    l < m ↔ l.line < m.line ∨ l.line = m.line ∧ l.column < m.column := Iff.rfl

theorem lt_irrefl (l : Location) : ¬l < l := by
  rw [lt_iff]
  omega

theorem lt_trans {l m n : Location} (hlm : l < m) (hmn : m < n) : l < n := by
  rw [lt_iff] at hlm hmn ⊢
  omega

/-- One more character leads on: a line feed to the next line, any other to the next column. -/
theorem after_lt_snoc (before : Text) (c : Char) : after before < after (before ++ [c]) := by
  rw [lt_iff]
  unfold after
  rw [lastLine_snoc, List.count_append]
  by_cases hc : c = '\n'
  · left
    simp [hc]
  · right
    simp [hc]

/-- What is longer ends later. -/
theorem after_lt_append (before : Text) {more : Text} (h : more ≠ []) :
    after before < after (before ++ more) := by
  induction more generalizing before with
  | nil => exact absurd rfl h
  | cons c more ih =>
    have hstep := after_lt_snoc before c
    cases more with
    | nil => exact hstep
    | cons d more =>
      have hmore := ih (before ++ [c]) (List.cons_ne_nil d more)
      rw [List.append_assoc, List.singleton_append] at hmore
      exact lt_trans hstep hmore

/-- Beginnings of one text that end at one location are the same. -/
theorem eq_of_after_eq {t a b : Text} (ha : a <+: t) (hb : b <+: t) (h : after a = after b) :
    a = b := by
  have hshorter {x y : Text} (hxy : x <+: y) (heq : after x = after y) : x = y := by
    obtain ⟨more, rfl⟩ := hxy
    by_cases hmore : more = []
    · rw [hmore, List.append_nil]
    · have hlt := after_lt_append x hmore
      rw [← heq] at hlt
      exact absurd hlt (lt_irrefl _)
  rcases List.prefix_or_prefix_of_prefix ha hb with hab | hba
  · exact hshorter hab h
  · exact (hshorter hba h.symm).symm

end Location

/-! ## Where an offset lies -/

/-- The character behind `before` holds an offset: it starts there or covers it. -/
def Holds (t before : Text) (offset : Nat) : Prop :=
  ∃ c rest, t = before ++ c :: rest ∧
    byteLength before ≤ offset ∧ offset < byteLength before + c.utf8Size

theorem fitBytes_append {a : Text} {offset : Nat} (h : byteLength a ≤ offset) (b : Text) :
    fitBytes offset (a ++ b) = a ++ fitBytes (offset - byteLength a) b := by
  induction a generalizing offset with
  | nil => rfl
  | cons c a ih =>
    rw [byteLength_cons] at h
    have hc : c.utf8Size ≤ offset := by omega
    have ha : byteLength a ≤ offset - c.utf8Size := by omega
    rw [List.cons_append, fitBytes, if_pos hc, ih ha, byteLength_cons, Nat.sub_sub,
      List.cons_append]

theorem fitBytes_of_holds {t before : Text} {offset : Nat} (h : Holds t before offset) :
    fitBytes offset t = before := by
  obtain ⟨c, rest, rfl, hle, hlt⟩ := h
  have hshort : ¬c.utf8Size ≤ offset - byteLength before := by omega
  rw [fitBytes_append hle, fitBytes, if_neg hshort, List.append_nil]

theorem fitBytes_of_le {t : Text} {offset : Nat} (h : byteLength t ≤ offset) :
    fitBytes offset t = t := by
  have happend := fitBytes_append h []
  rwa [fitBytes, List.append_nil] at happend

/-- An offset lies beyond the text, or a character holds it. -/
theorem beyond_or_holds (t : Text) (offset : Nat) :
    byteLength t ≤ offset ∨ ∃ before, Holds t before offset := by
  induction t generalizing offset with
  | nil =>
    left
    exact Nat.zero_le offset
  | cons c t ih =>
    by_cases hc : c.utf8Size ≤ offset
    · rcases ih (offset - c.utf8Size) with hle | ⟨before, d, rest, rfl, hle, hlt⟩
      · left
        rw [byteLength_cons]
        omega
      · right
        refine ⟨c :: before, d, rest, rfl, ?_, ?_⟩
        · rw [byteLength_cons]
          omega
        · rw [byteLength_cons]
          omega
    · right
      refine ⟨[], c, t, rfl, Nat.zero_le offset, ?_⟩
      rw [byteLength_nil]
      omega

theorem fitBytes_isPrefix (t : Text) (offset : Nat) : fitBytes offset t <+: t := by
  rcases beyond_or_holds t offset with hle | ⟨before, hholds⟩
  · exact (fitBytes_of_le hle).symm ▸ List.prefix_rfl
  · rw [fitBytes_of_holds hholds]
    obtain ⟨c, rest, rfl, -⟩ := hholds
    exact List.prefix_append before (c :: rest)

/-! ## Offsets and their locations -/

/-- Two offsets with the same characters before them lie both beyond the text, or one character
holds both. -/
theorem fitBytes_eq_iff {t : Text} {a b : Nat} :
    fitBytes a t = fitBytes b t ↔
      (byteLength t ≤ a ∧ byteLength t ≤ b) ∨ ∃ before, Holds t before a ∧ Holds t before b := by
  have hne {before : Text} {o : Nat} (h : Holds t before o) : before ≠ t := by
    rintro rfl
    obtain ⟨c, rest, htext, -⟩ := h
    simp at htext
  constructor
  · intro h
    rcases beyond_or_holds t a with ha | ⟨before, ha⟩
    · rcases beyond_or_holds t b with hb | ⟨before, hb⟩
      · exact .inl ⟨ha, hb⟩
      · rw [fitBytes_of_le ha, fitBytes_of_holds hb] at h
        exact absurd h.symm (hne hb)
    · rcases beyond_or_holds t b with hb | ⟨before', hb⟩
      · rw [fitBytes_of_holds ha, fitBytes_of_le hb] at h
        exact absurd h (hne ha)
      · rw [fitBytes_of_holds ha, fitBytes_of_holds hb] at h
        subst h
        exact .inr ⟨before, ha, hb⟩
  · rintro (⟨ha, hb⟩ | ⟨before, ha, hb⟩)
    · rw [fitBytes_of_le ha, fitBytes_of_le hb]
    · rw [fitBytes_of_holds ha, fitBytes_of_holds hb]

theorem locate_eq_iff {t : Text} {a b : Nat} :
    locate t a = locate t b ↔ fitBytes a t = fitBytes b t := by
  unfold locate
  constructor
  · exact Location.eq_of_after_eq (fitBytes_isPrefix t a) (fitBytes_isPrefix t b)
  · intro h
    rw [h]

theorem locate_lt_locate {t : Text} {a b : Nat} (ha : IsBoundary t a) (hb : IsBoundary t b)
    (hlt : a < b) : locate t a < locate t b := by
  obtain ⟨before, more, rest, rfl, rfl, rfl⟩ :=
    exists_parts_of_isBoundary ha hb (Nat.le_of_lt hlt)
  have hmore : more ≠ [] := by
    rintro rfl
    simp at hlt
  rw [locate_byteLength_append, ← byteLength_append, ← List.append_assoc, locate_byteLength_append]
  exact Location.after_lt_append before hmore

/-- **Locations tell offsets apart.** From boundary to boundary they grow, by line and then by column;
the line of a boundary counts the line feeds before it and its column the characters since the last
one; an offset held by a character is located where that character starts, one beyond the text where
the text ends, and there is no other way for two offsets to have one location. -/
theorem locate_tells_offsets (t : Text) :
    (∀ a b, IsBoundary t a → IsBoundary t b → a < b → locate t a < locate t b) ∧
    (∀ before rest, t = before ++ rest →
      ∃ earlier line, before = earlier ++ line ∧ (∀ c ∈ earlier.getLast?, c = '\n') ∧ '\n' ∉ line ∧
        locate t (byteLength before) = ⟨1 + before.count '\n', 1 + line.length⟩) ∧
    (∀ before offset, Holds t before offset → locate t offset = locate t (byteLength before)) ∧
    (∀ offset, byteLength t ≤ offset → locate t offset = locate t (byteLength t)) ∧
    (∀ a b, locate t a = locate t b ↔
      (byteLength t ≤ a ∧ byteLength t ≤ b) ∨ ∃ before, Holds t before a ∧ Holds t before b) := by
  refine ⟨fun a b => locate_lt_locate, ?_, ?_, ?_, fun a b => locate_eq_iff.trans fitBytes_eq_iff⟩
  · rintro before rest rfl
    obtain ⟨earlier, hbefore, hlast, hline⟩ := exists_append_lastLine before
    exact ⟨earlier, lastLine before, hbefore, hlast, hline, locate_byteLength_append before rest⟩
  · intro before offset hholds
    have hstart : Holds t before (byteLength before) := by
      obtain ⟨c, rest, htext, -⟩ := hholds
      exact ⟨c, rest, htext, Nat.le_refl _, Nat.lt_add_of_pos_right c.utf8Size_pos⟩
    rw [locate_eq_iff, fitBytes_of_holds hholds, fitBytes_of_holds hstart]
  · intro offset hle
    rw [locate_eq_iff, fitBytes_of_le hle, fitBytes_of_le (Nat.le_refl _)]

end ConditionalText.Text
