import ConditionalText.Predicate.Token

/-!
# What the token readers read

The readers by the character that a text starts with, and what stops them.

* `takeWhile_append_of_touchesWord`: a run of digits or of word characters ends at the latest where
  the text does not go on with a word.
* `readAtom?_word`: a word is read whole.
* `readOperator?_eq_some_iff`: **an operator is read where its spelling stands**, unless the next
  character makes it a longer one.
-/

namespace ConditionalText.Predicate

open ConditionalText.Text

/-! ## Strings -/

theorem readString?_backslash (quote c : Char) (t : Text) :
    readString? quote ('\\' :: c :: t) =
      (readString? quote t).map fun (s, after) => (unescape c :: s, after) := by
  rw [readString?]

theorem readString?_cons {quote c : Char} (hc : c ≠ '\\') (t : Text) :
    readString? quote (c :: t) =
      if c = quote then some ([], t)
      else (readString? quote t).map fun (s, after) => (c :: s, after) :=
  readString?.eq_3 quote c t fun _ _ h => absurd h hc

theorem ne_backslash_of_isQuote {quote : Char} (h : isQuote quote = true) : quote ≠ '\\' := by
  rintro rfl
  exact absurd h (by decide)

/-! ## Words -/

theorem touchesWord_dropWhile (t : Text) : touchesWord (t.dropWhile isWordChar) = false := by
  cases h : t.dropWhile isWordChar with
  | nil => rfl
  | cons c rest =>
    have hhead := List.head?_dropWhile_not isWordChar t
    rw [h] at hhead
    simpa [touchesWord] using hhead

/-- Runs of characters of words do not go beyond a place that does not go on with one. -/
theorem takeWhile_append_of_touchesWord {p : Char → Bool}
    (hp : ∀ c, p c = true → isWordChar c = true) {t : Text} (ht : touchesWord t = false)
    (a : Text) :
    (a ++ t).takeWhile p = a.takeWhile p ∧ (a ++ t).dropWhile p = a.dropWhile p ++ t := by
  induction a with
  | nil =>
    cases t with
    | nil => exact ⟨rfl, rfl⟩
    | cons c t =>
      have hc : ¬p c = true := fun h => Bool.eq_false_iff.mp ht (hp c h)
      exact ⟨List.takeWhile_cons_of_neg hc, List.dropWhile_cons_of_neg hc⟩
  | cons c a ih =>
    by_cases hc : p c = true
    · rw [List.cons_append, List.takeWhile_cons_of_pos hc, List.takeWhile_cons_of_pos hc,
        List.dropWhile_cons_of_pos hc, List.dropWhile_cons_of_pos hc, ih.1]
      exact ⟨rfl, ih.2⟩
    · rw [List.cons_append, List.takeWhile_cons_of_neg hc, List.takeWhile_cons_of_neg hc,
        List.dropWhile_cons_of_neg hc, List.dropWhile_cons_of_neg hc]
      exact ⟨rfl, rfl⟩

/-- All of a word is word characters, its first one among them. -/
theorem isWordChar_of_mem_word {c : Char} (hc : isWordChar c = true) (t : Text) :
    ∀ d ∈ c :: t.takeWhile isWordChar, isWordChar d = true := by
  intro d hd
  rcases List.mem_cons.mp hd with rfl | hd
  · exact hc
  · exact List.all_eq_true.mp List.all_takeWhile d hd

theorem isWordChar_of_isDigit {c : Char} (h : isDigit c = true) : isWordChar c = true := by
  rw [isWordChar, h, Bool.or_true]

theorem isWordChar_of_isWordStart {c : Char} (h : isWordStart c = true) : isWordChar c = true := by
  rw [isWordChar, h, Bool.true_or]

theorem isQuote_eq_false_of_isWordChar {c : Char} (h : isWordChar c = true) :
    isQuote c = false := by
  cases hq : isQuote c with
  | false => rfl
  | true =>
    simp only [isQuote, Bool.or_eq_true, decide_eq_true_eq] at hq
    rcases hq with rfl | rfl <;> exact absurd h (by decide)

theorem isDigit_eq_false_of_isWordStart {c : Char} (h : isWordStart c = true) :
    isDigit c = false := by
  rw [Bool.eq_false_iff]
  intro hdigit
  simp only [isDigit, Bool.and_eq_true, decide_eq_true_eq, Char.le_def,
    UInt32.le_iff_toNat_le] at hdigit
  change 48 ≤ c.val.toNat ∧ c.val.toNat ≤ 57 at hdigit
  simp only [isWordStart, isLetter, Bool.or_eq_true, Bool.and_eq_true, decide_eq_true_eq,
    Char.le_def, UInt32.le_iff_toNat_le] at h
  rcases h with rfl | ⟨hlow, -⟩ | ⟨hlow, -⟩
  · exact absurd hdigit (by decide)
  · change 97 ≤ c.val.toNat at hlow
    omega
  · change 65 ≤ c.val.toNat at hlow
    omega

/-! ## Fractions -/

theorem splitFraction_point_of_isDigit {c : Char} (hc : isDigit c = true) (t : Text) :
    splitFraction ('.' :: c :: t) = ((c :: t).takeWhile isDigit, (c :: t).dropWhile isDigit) := by
  rw [splitFraction, if_neg]
  rw [List.takeWhile_cons_of_pos hc]
  exact Bool.false_ne_true

theorem splitFraction_of_not_point {t : Text} (h : ¬∃ c u, t = '.' :: c :: u ∧ isDigit c = true) :
    splitFraction t = ([], t) := by
  unfold splitFraction
  split
  · next digits =>
    rw [if_pos]
    cases digits with
    | nil => rfl
    | cons c u => rw [List.takeWhile_cons_of_neg fun hc => h ⟨c, u, rfl, hc⟩]; rfl
  · rfl

/-! ## Operands -/

theorem readAtom?_of_isDigit {c : Char} (hc : isDigit c = true) (t : Text) :
    readAtom? (c :: t) =
      (readNumber? (c :: t)).map fun (n, after) => (.literal (.number n), after) :=
  if_pos hc

theorem readAtom?_of_isQuote {c : Char} (hc : isQuote c = true) (t : Text) :
    readAtom? (c :: t) =
      (readString? c t).map fun (s, after) => (.literal (.string s), after) := by
  have hdigit : ¬isDigit c = true := fun h => by
    rw [isQuote_eq_false_of_isWordChar (isWordChar_of_isDigit h)] at hc
    cases hc
  rw [readAtom?, if_neg hdigit, if_pos hc]

/-- A word is read whole. -/
theorem readAtom?_word {c : Char} (hc : isWordStart c = true) {word t : Text}
    (hword : ∀ d ∈ word, isWordChar d = true) (ht : touchesWord t = false) :
    readAtom? (c :: (word ++ t)) = some (ofWord (c :: word), t) := by
  obtain ⟨htake, hdrop⟩ := takeWhile_append_of_touchesWord (fun _ => id) ht []
  rw [List.nil_append] at htake hdrop
  rw [readAtom?, isDigit_eq_false_of_isWordStart hc,
    isQuote_eq_false_of_isWordChar (isWordChar_of_isWordStart hc), if_neg Bool.false_ne_true,
    if_neg Bool.false_ne_true, if_pos hc, List.takeWhile_append_of_pos hword,
    List.dropWhile_append_of_pos hword, htake, hdrop, List.takeWhile_nil, List.append_nil]
  rfl

/-- Other characters start no operand. -/
theorem readAtom?_eq_none {c : Char} (hquote : ¬isQuote c = true) (hword : ¬isWordChar c = true)
    (t : Text) : readAtom? (c :: t) = none := by
  rw [readAtom?, if_neg (mt isWordChar_of_isDigit hword), if_neg hquote,
    if_neg (mt isWordChar_of_isWordStart hword)]

/-! ## Operators -/

namespace Operator

/-- The characters of an operator. -/
def spelling (op : Operator) : Text :=
  op.symbol.toList

/-- Whether an operator followed by `=` is another operator. -/
def growsByEquals : Operator → Bool
  | .compare .equal | .compare .notEqual => true
  | .compare (.relation .less) | .compare (.relation .greater) => true
  | _ => false

end Operator

/-- **An operator is read where its spelling stands**, as long as it can get. -/
theorem readOperator?_eq_some_iff {t rest : Text} {op : Operator} :
    readOperator? t = some (op, rest) ↔
      t = op.spelling ++ rest ∧ (op.growsByEquals = true → rest.head? ≠ some '=') := by
  constructor
  · intro h
    unfold readOperator? at h
    split at h
    -- where the operator could have been longer, the order of the cases says that it is not
    case h_5 hshort | h_6 hshort | h_9 hshort | h_10 hshort =>
      cases h
      exact ⟨rfl, fun _ hequals => (List.head?_eq_some_iff.mp hequals).elim hshort⟩
    case h_11 => cases h
    all_goals
      cases h
      exact ⟨rfl, fun hgrows => nomatch hgrows⟩
  · rintro ⟨rfl, hlongest⟩
    have hshort : op.growsByEquals = true → ∀ r, rest = '=' :: r → False := by
      rintro hgrows r rfl
      exact hlongest hgrows rfl
    cases op with
    | or => rfl
    | and => rfl
    | compare c =>
      cases c with
      | strictEqual => rfl
      | strictNotEqual => rfl
      | equal => exact readOperator?.eq_5 rest (hshort rfl)
      | notEqual => exact readOperator?.eq_6 rest (hshort rfl)
      | relation r =>
        cases r with
        | lessEqual => rfl
        | greaterEqual => rfl
        | less => exact readOperator?.eq_9 rest (hshort rfl)
        | greater => exact readOperator?.eq_10 rest (hshort rfl)

end ConditionalText.Predicate
