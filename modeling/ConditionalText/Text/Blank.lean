import ConditionalText.Text.Basic

/-!
# Blanks

Two classes of blank characters are in use. Between the parts of a directive or a predicate only
the space and the tab count (`isSpaceOrTab`); trimming removes every character with the Unicode
property `White_Space` (`isBlank`).

* `isBlank_of_isSpaceOrTab`: the larger class holds the smaller one.
-/

namespace ConditionalText.Text

/-- The space and the tab, which separate the parts of a line. -/
def isSpaceOrTab (c : Char) : Bool :=
  c = ' ' || c = '\t'

/-- The Unicode property `White_Space`. -/
def isBlank (c : Char) : Bool :=
  (0x09 ≤ c.toNat && c.toNat ≤ 0x0D) || c.toNat = 0x20 || c.toNat = 0x85 || c.toNat = 0xA0 ||
    c.toNat = 0x1680 || (0x2000 ≤ c.toNat && c.toNat ≤ 0x200A) || c.toNat = 0x2028 ||
    c.toNat = 0x2029 || c.toNat = 0x202F || c.toNat = 0x205F || c.toNat = 0x3000

/-- The text without the blanks at its start. -/
def trimStart (t : Text) : Text :=
  t.dropWhile isBlank

/-- The text without the blanks at its end. -/
def trimEnd (t : Text) : Text :=
  (t.reverse.dropWhile isBlank).reverse

/-- The text without the blanks at both ends. -/
def trim (t : Text) : Text :=
  trimEnd (trimStart t)

/-- The text without the spaces and tabs at its start. -/
def skipSpaces (t : Text) : Text :=
  t.dropWhile isSpaceOrTab

theorem isSpaceOrTab_iff {c : Char} : isSpaceOrTab c = true ↔ c = ' ' ∨ c = '\t' := by
  simp [isSpaceOrTab]

theorem length_skipSpaces_le (t : Text) : (skipSpaces t).length ≤ t.length :=
  (List.dropWhile_sublist _).length_le

theorem takeWhile_append_skipSpaces (t : Text) : t.takeWhile isSpaceOrTab ++ skipSpaces t = t :=
  List.takeWhile_append_dropWhile

theorem isSpaceOrTab_of_mem_takeWhile {t : Text} {c : Char} (h : c ∈ t.takeWhile isSpaceOrTab) :
    isSpaceOrTab c = true :=
  List.all_eq_true.mp List.all_takeWhile c h

theorem mem_of_mem_skipSpaces {t : Text} {c : Char} (h : c ∈ skipSpaces t) : c ∈ t :=
  (List.dropWhile_sublist _).mem h

theorem isBlank_of_isSpaceOrTab {c : Char} (h : isSpaceOrTab c = true) : isBlank c = true := by
  simp only [isSpaceOrTab, Bool.or_eq_true, decide_eq_true_eq] at h
  rcases h with rfl | rfl <;> decide

end ConditionalText.Text
