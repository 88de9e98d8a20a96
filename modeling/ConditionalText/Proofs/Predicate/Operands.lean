import ConditionalText.Proofs.Predicate.Token

/-!
# How operands are spelled

`Spells` relates an operand other than a parenthesis to its spellings: a boolean and an identifier
have one, a string and a number have many. The reader of operands and this relation say the same.

* `readString?_of_quoted`, `exists_quoted_of_readString?`: what stands between quotes.
* `Number.read?_whole`, `Number.read?_decimal`: the value of digits is the number they are read as.
* `readAtom?_of_spells`: **a spelling is read as its operand**, if what follows ends it.
* `exists_spells_of_readAtom?`: **what is read is a spelling of the operand.**
-/

namespace ConditionalText

open ConditionalText.Text

/-- A run ends where the text goes on with another character. -/
theorem takeWhile_of_all {member : Char → Bool} {t : Text} (h : ∀ c ∈ t, member c = true)
    (rest : Text) (hrest : ∀ c, rest.head? = some c → member c = false) :
    (t ++ rest).takeWhile member = t ∧ (t ++ rest).dropWhile member = rest := by
  rw [List.takeWhile_append_of_pos h, List.dropWhile_append_of_pos h]
  cases rest with
  | nil => exact ⟨List.append_nil t, rfl⟩
  | cons c rest =>
    have hc : ¬member c = true := Bool.eq_false_iff.mp (hrest c rfl)
    rw [List.takeWhile_cons_of_neg hc, List.dropWhile_cons_of_neg hc, List.append_nil]
    exact ⟨rfl, rfl⟩

/-! ## Numbers -/

namespace Number

variable {c : Char} {whole fraction : Text}

theorem toLower_of_isDigit (h : isDigit c = true) : c.toLower = c := by
  simp only [isDigit, Bool.and_eq_true, decide_eq_true_eq, Char.le_def,
    UInt32.le_iff_toNat_le] at h
  unfold Char.toLower
  rw [dif_neg]
  intro hupper
  simp only [ge_iff_le, UInt32.le_iff_toNat_le] at hupper
  have hlow : ('A'.val).toNat ≤ c.val.toNat := hupper.1
  have hhigh : c.val.toNat ≤ ('9'.val).toNat := h.2
  exact absurd (Nat.le_trans hlow hhigh) (by decide)

/-- A text that starts with a digit has no sign and is none of the words. -/
theorem read?_of_isDigit (hc : isDigit c = true) (t : Text) :
    read? (c :: t) = readDecimal? false (c :: t) := by
  have hsign : splitSign (c :: t) = (false, c :: t) := by
    unfold splitSign
    split
    · next h => exact absurd hc (by rw [(List.cons.inj h).1]; decide)
    · next h => exact absurd hc (by rw [(List.cons.inj h).1]; decide)
    · rfl
  have hword : ∀ d u, isDigit d = false → foldCase (c :: t) ≠ d :: u := by
    intro d u hd h
    have hhead : c.toLower = d := (List.cons.inj h).1
    rw [← hhead, toLower_of_isDigit hc, hc] at hd
    cases hd
  unfold read?
  rw [hsign]
  simp only
  rw [if_neg, if_neg]
  · exact hword 'n' ['a', 'n'] (by decide)
  · simp only [Bool.or_eq_true, decide_eq_true_eq, not_or]
    exact ⟨hword 'i' ['n', 'f'] (by decide), hword 'i' "nfinity".toList (by decide)⟩

/-- Digits have the value they are read as. -/
theorem read?_whole (hwhole : whole ≠ []) (hdigits : ∀ c ∈ whole, isDigit c = true) :
    read? whole = some (ofDigits whole []) := by
  obtain ⟨c, t, rfl⟩ := List.exists_cons_of_ne_nil hwhole
  obtain ⟨htake, hdrop⟩ := takeWhile_of_all hdigits [] (fun c h => by cases h)
  rw [List.append_nil] at htake hdrop
  rw [read?_of_isDigit (hdigits c List.mem_cons_self)]
  unfold readDecimal?
  rw [htake, hdrop]
  simp [splitPoint, readExponent?, ofDigits]

/-- The same with a fraction. -/
theorem read?_decimal (hwhole : whole ≠ []) (hdigits : ∀ c ∈ whole, isDigit c = true)
    (hfraction : ∀ c ∈ fraction, isDigit c = true) :
    read? (whole ++ '.' :: fraction) = some (ofDigits whole fraction) := by
  obtain ⟨c, t, rfl⟩ := List.exists_cons_of_ne_nil hwhole
  obtain ⟨htake, hdrop⟩ := takeWhile_of_all hdigits ('.' :: fraction)
    (fun c h => by rw [← Option.some.inj h]; decide)
  obtain ⟨htake', hdrop'⟩ := takeWhile_of_all hfraction [] (fun c h => by cases h)
  rw [List.append_nil] at htake' hdrop'
  have hcons : c :: t ++ '.' :: fraction = c :: (t ++ '.' :: fraction) := rfl
  rw [hcons, read?_of_isDigit (hdigits c List.mem_cons_self), ← hcons]
  unfold readDecimal?
  rw [htake, hdrop]
  simp [splitPoint, htake', hdrop', readExponent?, ofDigits]

end Number

namespace Predicate

/-! ## Spellings -/

/-- What stands between quotes, and the string it stands for. -/
inductive Quoted (quote : Char) : Text → Text → Prop
  | nil : Quoted quote [] []
  | plain {c : Char} {body value : Text} (notQuote : c ≠ quote) (notBackslash : c ≠ '\\')
      (more : Quoted quote body value) : Quoted quote (c :: body) (c :: value)
  | escaped (c : Char) {body value : Text} (more : Quoted quote body value) :
      Quoted quote ('\\' :: c :: body) (unescape c :: value)

/-- The spellings of an operand other than a parenthesis. -/
inductive Spells : Expr → Text → Prop
  | yes : Spells (.literal (.boolean true)) "true".toList
  | no : Spells (.literal (.boolean false)) "false".toList
  | identifier {name : Text} (word : isIdentifier name = true) (notTrue : name ≠ "true".toList)
      (notFalse : name ≠ "false".toList) : Spells (.identifier name) name
  | string {quote : Char} {body value : Text} (isQuote : isQuote quote = true)
      (quoted : Quoted quote body value) :
      Spells (.literal (.string value)) (quote :: (body ++ [quote]))
  | whole {whole : Text} {n : Number} (nonempty : whole ≠ [])
      (digits : ∀ c ∈ whole, isDigit c = true) (value : Number.read? whole = some n) :
      Spells (.literal (.number n)) whole
  | decimal {whole fraction : Text} {n : Number} (nonempty : whole ≠ [])
      (digits : ∀ c ∈ whole, isDigit c = true) (nonempty' : fraction ≠ [])
      (digits' : ∀ c ∈ fraction, isDigit c = true)
      (value : Number.read? (whole ++ '.' :: fraction) = some n) :
      Spells (.literal (.number n)) (whole ++ '.' :: fraction)

/-- What may follow an operand: nothing that would make it longer. -/
def Ends (rest : Text) : Prop :=
  ∀ c, rest.head? = some c → isWordChar c = false ∧ c ≠ '.'

theorem Ends.touchesWord {rest : Text} (h : Ends rest) : touchesWord rest = false := by
  cases rest with
  | nil => rfl
  | cons c rest => exact (h c rfl).1

/-! ## Strings -/

theorem readString?_of_quoted {quote : Char} (hquote : quote ≠ '\\') {body value : Text}
    (h : Quoted quote body value) (rest : Text) :
    readString? quote (body ++ quote :: rest) = some (value, rest) := by
  induction h with
  | nil => rw [List.nil_append, readString?_cons hquote, if_pos rfl]
  | plain hne hback _ ih =>
    rw [List.cons_append, readString?_cons hback, if_neg hne, ih]
    rfl
  | escaped c _ ih =>
    rw [List.cons_append, List.cons_append, readString?_backslash, ih]
    rfl

theorem exists_quoted_of_readString? {quote : Char} {t value rest : Text}
    (h : readString? quote t = some (value, rest)) :
    ∃ body, t = body ++ quote :: rest ∧ Quoted quote body value := by
  fun_induction readString? quote t generalizing value with
  | case1 => cases h
  | case2 c more ih =>
    obtain ⟨⟨s, after⟩, hread, hpair⟩ := Option.map_eq_some_iff.mp h
    obtain ⟨rfl, rfl⟩ := Prod.mk.inj hpair
    obtain ⟨body, rfl, hbody⟩ := ih hread
    exact ⟨'\\' :: c :: body, rfl, .escaped c hbody⟩
  | case3 c more =>
    obtain ⟨rfl, rfl⟩ := Prod.mk.inj (Option.some.inj h)
    exact ⟨[], rfl, .nil⟩
  | case4 c more hback hne ih =>
    obtain ⟨⟨s, after⟩, hread, hpair⟩ := Option.map_eq_some_iff.mp h
    obtain ⟨rfl, rfl⟩ := Prod.mk.inj hpair
    -- a backslash comes here only as the last character, where nothing closes the string
    have hplain : c ≠ '\\' := by
      rintro rfl
      cases more with
      | nil => cases hread
      | cons d more => exact hback d more rfl rfl
    obtain ⟨body, rfl, hbody⟩ := ih hread
    exact ⟨c :: body, rfl, .plain hne hplain hbody⟩

/-! ## Numbers -/

theorem Ends.not_isDigit {rest : Text} (h : Ends rest) :
    ∀ c, rest.head? = some c → isDigit c = false := by
  intro c hc
  rw [Bool.eq_false_iff]
  intro hdigit
  have hword := (h c hc).1
  rw [isWordChar_of_isDigit hdigit] at hword
  cases hword

theorem readNumber?_whole {whole rest : Text} (hdigits : ∀ c ∈ whole, isDigit c = true)
    (hrest : Ends rest) :
    readNumber? (whole ++ rest) = some (Number.ofDigits whole [], rest) := by
  obtain ⟨htake, hdrop⟩ := takeWhile_of_all hdigits rest hrest.not_isDigit
  have hpoint : splitFraction rest = ([], rest) := by
    refine splitFraction_of_not_point ?_
    rintro ⟨c, u, rfl, -⟩
    exact (hrest '.' rfl).2 rfl
  unfold readNumber?
  rw [htake, hdrop, hpoint]
  exact if_neg (Bool.eq_false_iff.mp hrest.touchesWord)

theorem readNumber?_decimal {whole fraction rest : Text} (hdigits : ∀ c ∈ whole, isDigit c = true)
    (hnonempty : fraction ≠ []) (hfraction : ∀ c ∈ fraction, isDigit c = true)
    (hrest : Ends rest) :
    readNumber? (whole ++ '.' :: (fraction ++ rest)) =
      some (Number.ofDigits whole fraction, rest) := by
  obtain ⟨htake, hdrop⟩ := takeWhile_of_all hdigits ('.' :: (fraction ++ rest))
    (fun c h => by rw [← Option.some.inj h]; decide)
  obtain ⟨htake', hdrop'⟩ := takeWhile_of_all hfraction rest hrest.not_isDigit
  have hpoint : splitFraction ('.' :: (fraction ++ rest)) = (fraction, rest) := by
    obtain ⟨c, u, rfl⟩ := List.exists_cons_of_ne_nil hnonempty
    rw [List.cons_append, splitFraction_point_of_isDigit (hfraction c List.mem_cons_self),
      ← List.cons_append, htake', hdrop']
  unfold readNumber?
  rw [htake, hdrop, hpoint]
  exact if_neg (Bool.eq_false_iff.mp hrest.touchesWord)

theorem all_isDigit_takeWhile (t : Text) : ∀ c ∈ t.takeWhile isDigit, isDigit c = true :=
  List.all_eq_true.mp List.all_takeWhile

/-- The digits that are read as a number are digits with or without a fraction. -/
theorem exists_spells_of_readNumber? {c : Char} (hc : isDigit c = true) {t rest : Text} {n : Number}
    (h : readNumber? (c :: t) = some (n, rest)) :
    ∃ token, c :: t = token ++ rest ∧ Spells (.literal (.number n)) token := by
  have hsplit := List.takeWhile_append_dropWhile (p := isDigit) (l := c :: t)
  have hdigits := all_isDigit_takeWhile (c :: t)
  have hnonempty : (c :: t).takeWhile isDigit ≠ [] := by
    rw [List.takeWhile_cons_of_pos hc]
    exact List.cons_ne_nil _ _
  unfold readNumber? at h
  by_cases hpoint : ∃ d u, (c :: t).dropWhile isDigit = '.' :: d :: u ∧ isDigit d = true
  · obtain ⟨d, u, hdrop, hd⟩ := hpoint
    rw [hdrop, splitFraction_point_of_isDigit hd] at h
    obtain ⟨-, hpair⟩ := Option.ite_none_left_eq_some.mp h
    obtain ⟨rfl, rfl⟩ := Prod.mk.inj (Option.some.inj hpair)
    refine ⟨(c :: t).takeWhile isDigit ++ '.' :: (d :: u).takeWhile isDigit, ?_, ?_⟩
    · rw [List.append_assoc, List.cons_append, List.takeWhile_append_dropWhile, ← hdrop, hsplit]
    · have hfraction : (d :: u).takeWhile isDigit ≠ [] := by
        rw [List.takeWhile_cons_of_pos hd]
        exact List.cons_ne_nil _ _
      exact .decimal hnonempty hdigits hfraction (all_isDigit_takeWhile _)
        (Number.read?_decimal hnonempty hdigits (all_isDigit_takeWhile _))
  · rw [splitFraction_of_not_point hpoint] at h
    obtain ⟨-, hpair⟩ := Option.ite_none_left_eq_some.mp h
    obtain ⟨rfl, rfl⟩ := Prod.mk.inj (Option.some.inj hpair)
    exact ⟨_, hsplit.symm, .whole hnonempty hdigits (Number.read?_whole hnonempty hdigits)⟩

/-! ## All operands -/

/-- **A spelling is read as its operand**, if what follows ends it. -/
theorem readAtom?_of_spells {e : Expr} {token rest : Text} (h : Spells e token)
    (hrest : Ends rest) : readAtom? (token ++ rest) = some (e, rest) := by
  cases h with
  | yes =>
    have hword : ['r', 'u', 'e'].all isWordChar = true := by decide
    exact readAtom?_word (by decide) (List.all_eq_true.mp hword) hrest.touchesWord
  | no =>
    have hword : ['a', 'l', 's', 'e'].all isWordChar = true := by decide
    exact readAtom?_word (by decide) (List.all_eq_true.mp hword) hrest.touchesWord
  | identifier hword htrue hfalse =>
    cases token with
    | nil => cases hword
    | cons c word =>
      obtain ⟨hc, hall⟩ := Bool.and_eq_true_iff.mp hword
      rw [List.cons_append, readAtom?_word hc (List.all_eq_true.mp hall) hrest.touchesWord, ofWord,
        if_neg htrue, if_neg hfalse]
  | @string quote body value hquote hbody =>
    rw [List.cons_append, List.append_assoc, readAtom?_of_isQuote hquote, List.singleton_append,
      readString?_of_quoted (ne_backslash_of_isQuote hquote) hbody]
    rfl
  | whole hnonempty hdigits hvalue =>
    obtain ⟨c, t, rfl⟩ := List.exists_cons_of_ne_nil hnonempty
    rw [Number.read?_whole hnonempty hdigits] at hvalue
    rw [List.cons_append, readAtom?_of_isDigit (hdigits c List.mem_cons_self), ← List.cons_append,
      readNumber?_whole hdigits hrest, Option.some.inj hvalue]
    rfl
  | @decimal whole fraction n hnonempty hdigits hnonempty' hdigits' hvalue =>
    obtain ⟨c, t, rfl⟩ := List.exists_cons_of_ne_nil hnonempty
    rw [Number.read?_decimal hnonempty hdigits hdigits'] at hvalue
    rw [List.append_assoc, List.cons_append, List.cons_append,
      readAtom?_of_isDigit (hdigits c List.mem_cons_self), ← List.cons_append,
      readNumber?_decimal hdigits hnonempty' hdigits' hrest, Option.some.inj hvalue]
    rfl

/-- A word is a boolean or an identifier. -/
theorem spells_ofWord {word : Text} (h : isIdentifier word = true) : Spells (ofWord word) word := by
  unfold ofWord
  by_cases htrue : word = "true".toList
  · rw [if_pos htrue, htrue]
    exact .yes
  by_cases hfalse : word = "false".toList
  · rw [if_neg htrue, if_pos hfalse, hfalse]
    exact .no
  · rw [if_neg htrue, if_neg hfalse]
    exact .identifier h htrue hfalse

/-- **What is read is a spelling of the operand.** -/
theorem exists_spells_of_readAtom? {t rest : Text} {e : Expr} (h : readAtom? t = some (e, rest)) :
    ∃ token, t = token ++ rest ∧ Spells e token := by
  cases t with
  | nil => cases h
  | cons c t =>
    by_cases hdigit : isDigit c = true
    · rw [readAtom?_of_isDigit hdigit] at h
      obtain ⟨⟨n, after⟩, hread, hpair⟩ := Option.map_eq_some_iff.mp h
      obtain ⟨rfl, rfl⟩ := Prod.mk.inj hpair
      exact exists_spells_of_readNumber? hdigit hread
    by_cases hquote : isQuote c = true
    · rw [readAtom?_of_isQuote hquote] at h
      obtain ⟨⟨value, after⟩, hread, hpair⟩ := Option.map_eq_some_iff.mp h
      obtain ⟨rfl, rfl⟩ := Prod.mk.inj hpair
      obtain ⟨body, rfl, hbody⟩ := exists_quoted_of_readString? hread
      exact ⟨c :: (body ++ [c]), by simp, .string hquote hbody⟩
    by_cases hstart : isWordStart c = true
    · have hall : (t.takeWhile isWordChar).all isWordChar = true := List.all_takeWhile
      rw [readAtom?, if_neg hdigit, if_neg hquote, if_pos hstart] at h
      obtain ⟨rfl, rfl⟩ := Prod.mk.inj (Option.some.inj h)
      refine ⟨c :: t.takeWhile isWordChar, ?_, spells_ofWord ?_⟩
      · rw [List.cons_append, List.takeWhile_append_dropWhile]
      · exact Bool.and_eq_true_iff.mpr ⟨hstart, hall⟩
    · have hword : ¬isWordChar c = true := by simp [isWordChar, hdigit, hstart]
      rw [readAtom?_eq_none hquote hword] at h
      cases h

/-- Every spelling starts with a quote or a word character. -/
theorem exists_head_of_spells {e : Expr} {token : Text} (h : Spells e token) :
    ∃ c t, token = c :: t ∧ (isQuote c = true ∨ isWordChar c = true) := by
  cases h with
  | yes => exact ⟨'t', _, rfl, .inr (by decide)⟩
  | no => exact ⟨'f', _, rfl, .inr (by decide)⟩
  | identifier hword htrue hfalse =>
    cases token with
    | nil => cases hword
    | cons c word =>
      exact ⟨c, word, rfl, .inr (isWordChar_of_isWordStart (Bool.and_eq_true_iff.mp hword).1)⟩
  | string hquote hbody => exact ⟨_, _, rfl, .inl hquote⟩
  | whole hnonempty hdigits hvalue =>
    obtain ⟨c, t, rfl⟩ := List.exists_cons_of_ne_nil hnonempty
    exact ⟨c, t, rfl, .inr (isWordChar_of_isDigit (hdigits c List.mem_cons_self))⟩
  | decimal hnonempty hdigits hnonempty' hdigits' hvalue =>
    obtain ⟨c, t, rfl⟩ := List.exists_cons_of_ne_nil hnonempty
    exact ⟨c, _, rfl, .inr (isWordChar_of_isDigit (hdigits c List.mem_cons_self))⟩

/-- So it starts with no other character. -/
theorem ne_of_starts_operand {c d : Char} (hc : isQuote c = true ∨ isWordChar c = true)
    (hquote : isQuote d = false) (hword : isWordChar d = false) : c ≠ d := by
  rintro rfl
  rcases hc with hc | hc
  · rw [hc] at hquote
    cases hquote
  · rw [hc] at hword
    cases hword

end Predicate

end ConditionalText
