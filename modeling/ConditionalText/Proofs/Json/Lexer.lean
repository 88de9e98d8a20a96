import ConditionalText.Proofs.Json.Grammar
import Mathlib.Data.List.Basic
import Mathlib.Tactic.SplitIfs

/-!
# Reading tokens

A reader for each kind of token takes it off the start of a text and returns what follows. Each of
them is held to the spellings of the grammar in both directions: what it takes off is a spelling of
what it returns, and a spelling is taken off whole, whatever follows it.

* `readChar?_eq_some_iff`: a character of a string, in any of its spellings.
* `readDigits?_eq_some_iff`, `readNumeral?_append`, `spelling_of_readNumeral?`: a number is read to
  its last digit.
* `readToken?_append`, `tokenSpelling_of_readToken?`: what a token starts with tells its kind.
* `tokens?_eq_some_iff`: **the tokens that are read off a text are exactly those that it spells.**
-/

namespace ConditionalText.Json

open ConditionalText.Text

/-! ## Characters of strings -/

/-- The character of a code. -/
def charOf? (code : Nat) : Option Char :=
  if code.isValidChar then some (Char.ofNat code) else none

/-- Four hexadecimal digits at the start of a text: their value, and what follows them. -/
def readUnit? : Text → Option (Nat × Text)
  | p :: q :: r :: s :: t => (codeUnit? p q r s).map (·, t)
  | _ => none

/-- The second half of a character that is written as a pair of surrogates. -/
def readLow? (high : Nat) : Text → Option (Char × Text)
  | '\\' :: 'u' :: t => do
    let (low, rest) ← readUnit? t
    if IsLowSurrogate low then (charOf? (pairCode high low)).map (·, rest) else none
  | _ => none

/-- A character that is written by its code. -/
def readCode? (t : Text) : Option (Char × Text) := do
  let (unit, rest) ← readUnit? t
  if IsHighSurrogate unit then readLow? unit rest else (charOf? unit).map (·, rest)

/-- A character of a string at the start of a text, and what follows it. -/
def readChar? : Text → Option (Char × Text)
  | '\\' :: 'u' :: t => readCode? t
  | '\\' :: e :: t => (shortEscape? e).map (·, t)
  | c :: t => if isPlain c then some (c, t) else none
  | [] => none

theorem charOf?_eq_some_iff {code : Nat} {c : Char} : charOf? code = some c ↔ c.toNat = code := by
  unfold charOf?
  constructor
  · intro h
    split at h
    case isTrue hvalid =>
      obtain rfl := Option.some.inj h
      rw [Char.ofNat, dif_pos hvalid]
      rfl
    case isFalse => cases h
  · rintro rfl
    have hvalid : c.toNat.isValidChar := c.valid
    rw [if_pos hvalid, Char.ofNat_toNat]

theorem readUnit?_eq_some_iff {t rest : Text} {unit : Nat} :
    readUnit? t = some (unit, rest) ↔
      ∃ p q r s, codeUnit? p q r s = some unit ∧ t = p :: q :: r :: s :: rest := by
  unfold readUnit?
  split
  case h_1 p q r s t =>
    simp only [Option.map_eq_some_iff, Prod.mk.injEq]
    constructor
    · rintro ⟨unit, hunit, rfl, rfl⟩
      exact ⟨p, q, r, s, hunit, rfl⟩
    · rintro ⟨p, q, r, s, hunit, ht⟩
      cases ht
      exact ⟨unit, hunit, rfl, rfl⟩
  case h_2 ht =>
    refine ⟨nofun, ?_⟩
    rintro ⟨p, q, r, s, -, rfl⟩
    exact (ht p q r s rest rfl).elim

theorem readLow?_eq_some_iff {high : Nat} {t rest : Text} {c : Char} :
    readLow? high t = some (c, rest) ↔
      ∃ p q r s low, codeUnit? p q r s = some low ∧ IsLowSurrogate low ∧
        c.toNat = pairCode high low ∧ t = '\\' :: 'u' :: p :: q :: r :: s :: rest := by
  unfold readLow?
  split
  case h_1 t =>
    simp only [Option.bind_eq_bind, Option.bind_eq_some_iff, Prod.exists, readUnit?_eq_some_iff,
      Option.ite_none_right_eq_some, Option.map_eq_some_iff, Prod.mk.injEq, charOf?_eq_some_iff]
    constructor
    · rintro ⟨low, after, ⟨p, q, r, s, hunit, rfl⟩, hlow, c, hc, rfl, rfl⟩
      exact ⟨p, q, r, s, low, hunit, hlow, hc, rfl⟩
    · rintro ⟨p, q, r, s, low, hunit, hlow, hc, ht⟩
      exact ⟨low, rest, ⟨p, q, r, s, hunit, by simpa using ht⟩, hlow, c, hc, rfl, rfl⟩
  case h_2 ht =>
    refine ⟨nofun, ?_⟩
    rintro ⟨p, q, r, s, low, -, -, -, rfl⟩
    exact (ht _ rfl).elim

/-- No character is a surrogate. -/
theorem not_isHighSurrogate_toNat (c : Char) : ¬IsHighSurrogate c.toNat := by
  rintro ⟨hlow, hhigh⟩
  have hvalid : c.toNat.isValidChar := c.valid
  unfold Nat.isValidChar at hvalid
  omega

theorem charSpelling_of_readCode? {t rest : Text} {c : Char}
    (h : readCode? t = some (c, rest)) :
    ∃ s, CharSpelling c s ∧ '\\' :: 'u' :: t = s ++ rest := by
  simp only [readCode?, Option.bind_eq_bind, Option.bind_eq_some_iff, Prod.exists,
    readUnit?_eq_some_iff] at h
  obtain ⟨unit, after, ⟨p, q, r, s, hunit, rfl⟩, h⟩ := h
  split at h
  case isTrue hhigh =>
    obtain ⟨p', q', r', s', low, hlow, hislow, hc, rfl⟩ := readLow?_eq_some_iff.mp h
    exact ⟨_, .pair hunit hlow hhigh hislow hc, rfl⟩
  case isFalse =>
    simp only [Option.map_eq_some_iff, Prod.mk.injEq, charOf?_eq_some_iff] at h
    obtain ⟨c, rfl, rfl, rfl⟩ := h
    exact ⟨_, .code hunit, rfl⟩

theorem readChar?_eq_some_iff {t rest : Text} {c : Char} :
    readChar? t = some (c, rest) ↔ ∃ s, CharSpelling c s ∧ t = s ++ rest := by
  constructor
  · intro h
    unfold readChar? at h
    split at h
    · exact charSpelling_of_readCode? h
    · simp only [Option.map_eq_some_iff, Prod.mk.injEq] at h
      obtain ⟨c, he, rfl, rfl⟩ := h
      exact ⟨_, .short he, rfl⟩
    · simp only [Option.ite_none_right_eq_some, Option.some.injEq, Prod.mk.injEq] at h
      obtain ⟨hc, rfl, rfl⟩ := h
      exact ⟨_, .plain hc, rfl⟩
    · cases h
  · rintro ⟨s, hs, rfl⟩
    cases hs with
    | plain hc =>
      have hne : c ≠ '\\' := by
        rintro rfl
        exact absurd hc (by decide)
      simp [readChar?, hne, hc]
    | @short e c he =>
      have hne : e ≠ 'u' := by
        rintro rfl
        cases he
      simp [readChar?, he]
    | code hunit =>
      simp [readChar?, readCode?, readUnit?, hunit, not_isHighSurrogate_toNat, charOf?_eq_some_iff]
    | pair hhigh hlow hishigh hislow hc =>
      simp [readChar?, readCode?, readUnit?, hhigh, hishigh, readLow?, hlow, hislow,
        charOf?_eq_some_iff, hc]

example : readChar? "\\ud83d\\ude00!".toList = some ('😀', ['!']) := by
  decide

theorem exists_cons_of_charSpelling {c : Char} {s : Text} (h : CharSpelling c s) :
    ∃ d u, s = d :: u ∧ d ≠ '"' := by
  cases h with
  | plain hc =>
    refine ⟨c, [], rfl, ?_⟩
    rintro rfl
    exact absurd hc (by decide)
  | _ => exact ⟨'\\', _, rfl, by decide⟩

theorem length_lt_of_readChar? {t rest : Text} {c : Char} (h : readChar? t = some (c, rest)) :
    rest.length < t.length := by
  obtain ⟨s, hs, rfl⟩ := readChar?_eq_some_iff.mp h
  obtain ⟨d, u, rfl, -⟩ := exists_cons_of_charSpelling hs
  rw [List.length_append, List.length_cons]
  omega

/-- The characters of a string up to the quote that ends it, and what follows the quote. -/
def readChars? (t : Text) : Option (Text × Text) :=
  if t.head? = some '"' then some ([], t.tail)
  else
    match _h : readChar? t with
    | none => none
    | some (c, rest) => (readChars? rest).map fun (s, after) => (c :: s, after)
termination_by t.length
decreasing_by exact length_lt_of_readChar? _h

theorem readChars?_append {t s : Text} (h : CharsSpelling t s) (rest : Text) :
    readChars? (s ++ '"' :: rest) = some (t, rest) := by
  induction h with
  | nil =>
    rw [readChars?]
    simp
  | @cons c t s u hs _ ih =>
    have hread : readChar? (s ++ u ++ '"' :: rest) = some (c, u ++ '"' :: rest) :=
      readChar?_eq_some_iff.mpr ⟨s, hs, by simp⟩
    obtain ⟨d, v, rfl, hd⟩ := exists_cons_of_charSpelling hs
    rw [readChars?, if_neg (by simpa using hd)]
    split
    case h_1 hnone =>
      rw [hread] at hnone
      cases hnone
    case h_2 hsome =>
      rw [hread] at hsome
      cases hsome
      rw [ih]
      rfl

theorem charsSpelling_of_readChars? {t u rest : Text} (h : readChars? t = some (u, rest)) :
    ∃ s, CharsSpelling u s ∧ t = s ++ '"' :: rest := by
  fun_induction readChars? t generalizing u with
  | case1 t ht =>
    cases h
    cases t with
    | nil => cases ht
    | cons d t =>
      cases ht
      exact ⟨[], .nil, rfl⟩
  | case2 => cases h
  | case3 t _ c after hc ih =>
    simp only [Option.map_eq_some_iff, Prod.exists, Prod.mk.injEq] at h
    obtain ⟨v, rest, hv, rfl, rfl⟩ := h
    obtain ⟨s, hs, rfl⟩ := readChar?_eq_some_iff.mp hc
    obtain ⟨s', hs', rfl⟩ := ih hv
    exact ⟨s ++ s', .cons hs hs', (List.append_assoc ..).symm⟩

/-! ## Numbers -/

/-- The digits at the start of a text, and what follows them. -/
def readDigits? (t : Text) : Option (Digits × Text) :=
  if h : t.takeWhile isDigit = [] then none
  else
    some (⟨t.takeWhile isDigit, h, List.all_eq_true.mp List.all_takeWhile⟩, t.dropWhile isDigit)

/-- A minus at the start of a text. -/
def readMinus : Text → Bool × Text
  | '-' :: t => (true, t)
  | t => (false, t)

/-- An optional fraction. -/
def readFraction? : Text → Option (Option Digits × Text)
  | '.' :: t => (readDigits? t).map fun (digits, rest) => (some digits, rest)
  | t => some (none, t)

/-- An optional sign of an exponent. -/
def readSign : Text → {sign : Option Char // ∀ c ∈ sign, c = '+' ∨ c = '-'} × Text
  | [] => (⟨none, nofun⟩, [])
  | c :: t =>
    if hc : c = '+' ∨ c = '-' then (⟨some c, fun _ h => Option.some.inj h ▸ hc⟩, t)
    else (⟨none, nofun⟩, c :: t)

/-- An optional exponent. -/
def readExponent? : Text → Option (Option Exponent × Text)
  | [] => some (none, [])
  | c :: t =>
    if hc : c = 'e' ∨ c = 'E' then
      let (sign, t) := readSign t
      (readDigits? t).map fun (digits, rest) => (some ⟨c, hc, sign.1, sign.2, digits⟩, rest)
    else some (none, c :: t)

/-- A number at the start of a text, and what follows it. -/
def readNumeral? (t : Text) : Option (Numeral × Text) :=
  let (negative, t) := readMinus t
  do
    let (whole, t) ← readDigits? t
    let (fraction, t) ← readFraction? t
    let (exponent, t) ← readExponent? t
    if h : whole.text.head? = some '0' → whole.text = ['0'] then
      some (⟨negative, whole, h, fraction, exponent⟩, t)
    else none

theorem readDigits?_eq_some_iff {t rest : Text} {d : Digits} :
    readDigits? t = some (d, rest) ↔ t = d.text ++ rest ∧ StopsDigits rest := by
  unfold readDigits?
  constructor
  · intro h
    split at h
    case isTrue => cases h
    case isFalse =>
      cases h
      refine ⟨List.takeWhile_append_dropWhile.symm, fun c hc => ?_⟩
      have hhead := List.head?_dropWhile_not isDigit t
      rw [Option.mem_def.mp hc] at hhead
      simpa using hhead
  · rintro ⟨rfl, hrest⟩
    have hstop : rest.takeWhile isDigit = [] ∧ rest.dropWhile isDigit = rest := by
      cases rest with
      | nil => exact ⟨rfl, rfl⟩
      | cons c rest =>
        have hc : isDigit c = false := hrest c rfl
        simp [hc]
    have htake : (d.text ++ rest).takeWhile isDigit = d.text := by
      rw [List.takeWhile_append_of_pos d.isDigit_of_mem, hstop.1, List.append_nil]
    have hdrop : (d.text ++ rest).dropWhile isDigit = rest := by
      rw [List.dropWhile_append_of_pos d.isDigit_of_mem, hstop.2]
    rw [dif_neg (by rw [htake]; exact d.ne_nil)]
    simp only [Option.some.injEq, Prod.mk.injEq]
    exact ⟨Digits.ext htake, hdrop⟩

theorem Digits.exists_cons (d : Digits) : ∃ c t, d.text = c :: t ∧ isDigit c = true := by
  obtain ⟨c, t, h⟩ := List.exists_cons_of_ne_nil d.ne_nil
  exact ⟨c, t, h, d.isDigit_of_mem c (by simp [h])⟩

/-- A text that does not go on with a fraction or an exponent. -/
def StopsParts (t : Text) : Prop :=
  ∀ c ∈ t.head?, c ≠ '.' ∧ c ≠ 'e' ∧ c ≠ 'E'

theorem readFraction?_append {f : Option Digits} {rest : Text} (hdigits : StopsDigits rest)
    (hpoint : rest.head? ≠ some '.') :
    readFraction? (fractionSpelling f ++ rest) = some (f, rest) := by
  cases f with
  | none =>
    unfold readFraction?
    split
    case h_1 t ht =>
      obtain rfl : rest = '.' :: t := ht
      exact absurd rfl hpoint
    case h_2 => rfl
  | some d =>
    have hread : readDigits? (d.text ++ rest) = some (d, rest) :=
      readDigits?_eq_some_iff.mpr ⟨rfl, hdigits⟩
    simp [fractionSpelling, readFraction?, hread]

theorem spelling_of_readFraction? {f : Option Digits} {t rest : Text}
    (h : readFraction? t = some (f, rest)) (ht : StopsDigits t) :
    t = fractionSpelling f ++ rest ∧ StopsDigits rest := by
  unfold readFraction? at h
  split at h
  case h_1 t =>
    simp only [Option.map_eq_some_iff, Prod.exists, Prod.mk.injEq, readDigits?_eq_some_iff] at h
    obtain ⟨d, after, ⟨rfl, hafter⟩, rfl, rfl⟩ := h
    exact ⟨rfl, hafter⟩
  case h_2 =>
    cases h
    exact ⟨rfl, ht⟩

theorem readSign_append {e : Exponent} {rest : Text} :
    readSign (e.sign.toList ++ (e.digits.text ++ rest)) =
      (⟨e.sign, e.sign_eq⟩, e.digits.text ++ rest) := by
  obtain ⟨mark, hmark, sign, hsign, digits⟩ := e
  cases sign with
  | some c =>
    have hc := hsign c rfl
    simp [readSign, hc]
  | none =>
    obtain ⟨c, t, ht, hc⟩ := digits.exists_cons
    have hne : ¬(c = '+' ∨ c = '-') := by
      rintro (rfl | rfl) <;> exact absurd hc (by decide)
    simp [readSign, ht, hne]

theorem append_readSign (t : Text) : t = (readSign t).1.1.toList ++ (readSign t).2 := by
  unfold readSign
  split
  · rfl
  · split <;> rfl

theorem readExponent?_append {e : Option Exponent} {rest : Text} (hdigits : StopsDigits rest)
    (hparts : StopsParts rest) :
    readExponent? (exponentSpelling e ++ rest) = some (e, rest) := by
  cases e with
  | none =>
    cases rest with
    | nil => rfl
    | cons c rest =>
      obtain ⟨-, he, hE⟩ := hparts c rfl
      simp [exponentSpelling, readExponent?, he, hE]
  | some e =>
    have hread : readDigits? (e.digits.text ++ rest) = some (e.digits, rest) :=
      readDigits?_eq_some_iff.mpr ⟨rfl, hdigits⟩
    simp [exponentSpelling, readExponent?, e.mark_eq, readSign_append, hread]

theorem spelling_of_readExponent? {e : Option Exponent} {t rest : Text}
    (h : readExponent? t = some (e, rest)) (ht : StopsDigits t) :
    t = exponentSpelling e ++ rest ∧ StopsDigits rest := by
  unfold readExponent? at h
  split at h
  case h_1 =>
    cases h
    exact ⟨rfl, ht⟩
  case h_2 c t =>
    split at h
    case isTrue hc =>
      simp only [Option.map_eq_some_iff, Prod.exists, Prod.mk.injEq, readDigits?_eq_some_iff] at h
      obtain ⟨d, after, ⟨hsign, hafter⟩, rfl, rfl⟩ := h
      refine ⟨?_, hafter⟩
      simp only [exponentSpelling, List.cons_append, List.append_assoc, ← hsign]
      rw [← append_readSign]
    case isFalse =>
      cases h
      exact ⟨rfl, ht⟩

/-- The parts of a number start with characters of their own. -/
theorem head?_exponentSpelling {e : Option Exponent} {rest : Text} (hdigits : StopsDigits rest)
    (hparts : StopsParts rest) :
    StopsDigits (exponentSpelling e ++ rest) ∧ (exponentSpelling e ++ rest).head? ≠ some '.' := by
  cases e with
  | none => exact ⟨hdigits, fun hpoint => (hparts '.' hpoint).1 rfl⟩
  | some e =>
    unfold StopsDigits
    rcases e.mark_eq with hmark | hmark <;> simp [exponentSpelling, hmark] <;> decide

theorem stopsDigits_fractionSpelling {f : Option Digits} {rest : Text} (h : StopsDigits rest) :
    StopsDigits (fractionSpelling f ++ rest) := by
  cases f with
  | none => exact h
  | some d =>
    intro c hc
    cases hc
    decide

theorem readMinus_append (n : Numeral) (rest : Text) :
    readMinus ((if n.negative then ['-'] else []) ++ (n.whole.text ++ rest)) =
      (n.negative, n.whole.text ++ rest) := by
  cases n.negative with
  | true => rfl
  | false =>
    obtain ⟨c, t, ht, hc⟩ := n.whole.exists_cons
    have hne : c ≠ '-' := by
      rintro rfl
      exact absurd hc (by decide)
    simp [readMinus, ht, hne]

theorem append_readMinus (t : Text) :
    t = (if (readMinus t).1 then ['-'] else []) ++ (readMinus t).2 := by
  unfold readMinus
  split <;> rfl

theorem readNumeral?_append (n : Numeral) {rest : Text} (hdigits : StopsDigits rest)
    (hparts : StopsParts rest) : readNumeral? (n.spelling ++ rest) = some (n, rest) := by
  -- Digits are read as far as they go, and no later part starts with one.
  obtain ⟨hexponent, hpoint⟩ := head?_exponentSpelling (e := n.exponent) hdigits hparts
  have hwhole : readDigits? (n.whole.text ++
      (fractionSpelling n.fraction ++ (exponentSpelling n.exponent ++ rest))) = some (n.whole, _) :=
    readDigits?_eq_some_iff.mpr ⟨rfl, stopsDigits_fractionSpelling hexponent⟩
  simp only [readNumeral?, Numeral.spelling, List.append_assoc, readMinus_append, hwhole,
    readFraction?_append hexponent hpoint, readExponent?_append hdigits hparts, Option.bind_eq_bind,
    Option.bind_some]
  rw [dif_pos n.whole_eq_of_zero]

theorem spelling_of_readNumeral? {n : Numeral} {t rest : Text}
    (h : readNumeral? t = some (n, rest)) : t = n.spelling ++ rest ∧ StopsDigits rest := by
  simp only [readNumeral?, Option.bind_eq_bind, Option.bind_eq_some_iff, Prod.exists,
    readDigits?_eq_some_iff] at h
  obtain ⟨whole, t₁, ⟨hwhole, ht₁⟩, fraction, t₂, hfraction, exponent, t₃, hexponent, h⟩ := h
  obtain ⟨rfl, ht₂⟩ := spelling_of_readFraction? hfraction ht₁
  obtain ⟨rfl, ht₃⟩ := spelling_of_readExponent? hexponent ht₂
  split at h
  case isTrue =>
    cases h
    refine ⟨?_, ht₃⟩
    simp only [Numeral.spelling, List.append_assoc, ← hwhole]
    exact append_readMinus t
  case isFalse => cases h

/-- A character that a number may start with. -/
def StartsNumeral (c : Char) : Prop :=
  c = '-' ∨ isDigit c = true

instance (c : Char) : Decidable (StartsNumeral c) :=
  inferInstanceAs (Decidable (_ ∨ _))

theorem StartsNumeral.ne {c d : Char} (hc : StartsNumeral c) (hd : ¬StartsNumeral d) : c ≠ d := by
  rintro rfl
  exact hd hc

theorem Numeral.exists_cons (n : Numeral) : ∃ c t, n.spelling = c :: t ∧ StartsNumeral c := by
  obtain ⟨c, t, ht, hc⟩ := n.whole.exists_cons
  unfold Numeral.spelling
  split
  case isTrue => exact ⟨'-', _, rfl, .inl rfl⟩
  case isFalse => exact ⟨c, _, by rw [ht]; rfl, .inr hc⟩

/-! ## Tokens -/

/-- The mark that a character is. -/
def Mark.ofChar? : Char → Option Mark
  | '[' => some .openArray
  | ']' => some .closeArray
  | '\x7b' => some .openObject
  | '\x7d' => some .closeObject
  | ',' => some .comma
  | ':' => some .colon
  | _ => none

theorem Mark.ofChar?_eq_some_iff {c : Char} {m : Mark} : Mark.ofChar? c = some m ↔ c = m.char := by
  constructor
  · intro h
    unfold Mark.ofChar? at h
    split at h <;> cases h <;> rfl
  · rintro rfl
    cases m <;> rfl

/-- A given word at the start of a text, as a token, and what follows it. -/
def readWord? (word : Text) (s : Scalar) (t : Text) : Option (Token × Text) :=
  (word.isPrefixOf? t).map (.scalar s, ·)

/-- A token at the start of a text, and what follows it. -/
def readToken? : Text → Option (Token × Text)
  | [] => none
  | c :: t =>
    match Mark.ofChar? c with
    | some m => some (.mark m, t)
    | none =>
      if c = '"' then (readChars? t).map fun (s, rest) => (.scalar (.string s), rest)
      else if c = 'n' then readWord? "null".toList .null (c :: t)
      else if c = 't' then readWord? "true".toList (.bool true) (c :: t)
      else if c = 'f' then readWord? "false".toList (.bool false) (c :: t)
      else (readNumeral? (c :: t)).map fun (n, rest) => (.scalar (.number n.value), rest)

theorem readWord?_eq_some_iff {word t rest : Text} {s : Scalar} {token : Token} :
    readWord? word s t = some (token, rest) ↔ token = .scalar s ∧ t = word ++ rest := by
  simp only [readWord?, Option.map_eq_some_iff, List.isPrefixOf?_eq_some_iff_append_eq,
    Prod.mk.injEq]
  constructor
  · rintro ⟨rest, rfl, rfl, rfl⟩
    exact ⟨rfl, rfl⟩
  · rintro ⟨rfl, rfl⟩
    exact ⟨rest, rfl, rfl, rfl⟩

theorem tokenSpelling_of_readToken? {t rest : Text} {token : Token}
    (h : readToken? t = some (token, rest)) :
    ∃ s, TokenSpelling token s ∧ token.EndsBefore rest ∧ t = s ++ rest := by
  unfold readToken? at h
  split at h
  · cases h
  split at h
  case h_1 m hm =>
    cases h
    obtain rfl := Mark.ofChar?_eq_some_iff.mp hm
    exact ⟨_, .mark m, trivial, rfl⟩
  split_ifs at h with hquote hn ht hf
  · simp only [Option.map_eq_some_iff, Prod.exists, Prod.mk.injEq] at h
    obtain ⟨u, after, hchars, rfl, rfl⟩ := h
    obtain ⟨s, hs, rfl⟩ := charsSpelling_of_readChars? hchars
    exact ⟨_, .string hs, trivial, by simp [hquote]⟩
  · obtain ⟨rfl, ht⟩ := readWord?_eq_some_iff.mp h
    exact ⟨_, .null, trivial, ht⟩
  · obtain ⟨rfl, ht⟩ := readWord?_eq_some_iff.mp h
    exact ⟨_, .true, trivial, ht⟩
  · obtain ⟨rfl, ht⟩ := readWord?_eq_some_iff.mp h
    exact ⟨_, .false, trivial, ht⟩
  · simp only [Option.map_eq_some_iff, Prod.exists, Prod.mk.injEq] at h
    obtain ⟨n, after, hnumeral, rfl, rfl⟩ := h
    obtain ⟨ht, hstops⟩ := spelling_of_readNumeral? hnumeral
    exact ⟨_, .number n, hstops, ht⟩

/-- What a number starts with starts no other token. -/
theorem readToken?_of_numeral {c : Char} {t rest : Text} {n : Numeral} (hc : StartsNumeral c)
    (h : readNumeral? (c :: t) = some (n, rest)) :
    readToken? (c :: t) = some (.scalar (.number n.value), rest) := by
  have hmark : Mark.ofChar? c = none := by
    rw [Option.eq_none_iff_forall_ne_some]
    intro m hm
    exact hc.ne (d := m.char) (by cases m <;> decide) (Mark.ofChar?_eq_some_iff.mp hm)
  simp [readToken?, hmark, hc.ne (d := '"') (by decide), hc.ne (d := 'n') (by decide),
    hc.ne (d := 't') (by decide), hc.ne (d := 'f') (by decide), h]

theorem readToken?_append {token : Token} {s rest : Text} (hs : TokenSpelling token s)
    (hend : token.EndsBefore rest) (hrest : StopsParts rest) :
    readToken? (s ++ rest) = some (token, rest) := by
  cases hs with
  | mark m => simp [readToken?, Mark.ofChar?_eq_some_iff.mpr rfl]
  | null => rfl
  | true => rfl
  | false => rfl
  | string hchars => simp [readToken?, Mark.ofChar?, readChars?_append hchars]
  | number n =>
    have hread := readNumeral?_append n hend hrest
    obtain ⟨c, t, ht, hc⟩ := n.exists_cons
    rw [ht] at hread ⊢
    exact readToken?_of_numeral hc hread

theorem exists_cons_of_tokenSpelling {token : Token} {s : Text} (h : TokenSpelling token s) :
    ∃ c t, s = c :: t ∧ isSpacing c = false ∧ c ≠ '.' ∧ c ≠ 'e' ∧ c ≠ 'E' := by
  cases h with
  | mark m => exact ⟨m.char, [], rfl, by cases m <;> decide⟩
  | null => exact ⟨'n', _, rfl, by decide⟩
  | true => exact ⟨'t', _, rfl, by decide⟩
  | false => exact ⟨'f', _, rfl, by decide⟩
  | string => exact ⟨'"', _, rfl, by decide⟩
  | number n =>
    obtain ⟨c, t, ht, hc⟩ := n.exists_cons
    refine ⟨c, t, ht, ?_, hc.ne (by decide), hc.ne (by decide), hc.ne (by decide)⟩
    simp [isSpacing, hc.ne (d := ' ') (by decide), hc.ne (d := '\t') (by decide),
      hc.ne (d := '\n') (by decide), hc.ne (d := '\r') (by decide)]

/-! ## Texts -/

theorem length_lt_of_readToken? {t rest : Text} {token : Token}
    (h : readToken? t = some (token, rest)) : rest.length < t.length := by
  obtain ⟨s, hs, -, rfl⟩ := tokenSpelling_of_readToken? h
  obtain ⟨c, u, rfl, -⟩ := exists_cons_of_tokenSpelling hs
  rw [List.length_append, List.length_cons]
  omega

/-- The tokens of a text. -/
def tokens? : Text → Option (List Token)
  | [] => some []
  | c :: t =>
    if isSpacing c then tokens? t
    else
      match _h : readToken? (c :: t) with
      | none => none
      | some (token, rest) => (tokens? rest).map (token :: ·)
termination_by t => t.length
decreasing_by
  · simp
  · exact length_lt_of_readToken? _h

theorem stopsParts_of_spells {t : Text} {ts : List Token} (h : Spells t ts) : StopsParts t := by
  cases h with
  | nil => nofun
  | blank hc =>
    intro d hd
    cases hd
    refine ⟨?_, ?_, ?_⟩ <;> rintro rfl <;> exact absurd hc (by decide)
  | token hs =>
    obtain ⟨c, u, rfl, -, hc⟩ := exists_cons_of_tokenSpelling hs
    intro d hd
    cases hd
    exact hc

theorem spells_of_tokens? {t : Text} {ts : List Token} (h : tokens? t = some ts) :
    Spells t ts := by
  fun_induction tokens? t generalizing ts with
  | case1 =>
    cases h
    exact .nil
  | case2 c t hc ih => exact .blank hc (ih h)
  | case3 => cases h
  | case4 c t _ token rest htoken ih =>
    simp only [Option.map_eq_some_iff] at h
    obtain ⟨ts, hts, rfl⟩ := h
    obtain ⟨s, hs, hend, ht⟩ := tokenSpelling_of_readToken? htoken
    rw [ht]
    exact .token hs hend (ih hts)

theorem tokens?_of_spells {t : Text} {ts : List Token} (h : Spells t ts) :
    tokens? t = some ts := by
  induction h with
  | nil => rw [tokens?]
  | blank hc _ ih => rw [tokens?, if_pos hc, ih]
  | token hs hend hrest ih =>
    have hread := readToken?_append hs hend (stopsParts_of_spells hrest)
    obtain ⟨c, u, rfl, hblank, -⟩ := exists_cons_of_tokenSpelling hs
    rw [List.cons_append, tokens?, if_neg (by simp [hblank])]
    split
    case h_1 hnone =>
      rw [← List.cons_append, hread] at hnone
      cases hnone
    case h_2 hsome =>
      rw [← List.cons_append, hread] at hsome
      cases hsome
      rw [ih]
      rfl

/-- **Reading the tokens of a text finds exactly those that it spells.** -/
theorem tokens?_eq_some_iff {t : Text} {ts : List Token} : tokens? t = some ts ↔ Spells t ts :=
  ⟨spells_of_tokens?, tokens?_of_spells⟩

end ConditionalText.Json
