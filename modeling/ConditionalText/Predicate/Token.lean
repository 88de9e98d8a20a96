import ConditionalText.Predicate.Expr

/-!
# The tokens of a predicate

The terminals of the predicate grammar (specification, §12.1). Where an operand is due, a token is a
boolean, a number, a string or an identifier (`readAtom?`); after an operand it is an infix operator
(`readOperator?`). Each reader takes the longest token there is and returns what follows it.

* A word is a boolean exactly when it is `true` or `false`.
* A number must not touch a word character: `1a` is no token at all, while in `1.` the number ends
  before the point.
* Inside quotes a backslash takes the next character with it.

`length_readAtom?_lt` and `length_readOperator?_lt`: a token is never empty.
-/

namespace ConditionalText.Predicate

open ConditionalText.Text

/-! ## Strings -/

/-- The two quotes a string may stand in. -/
def isQuote (c : Char) : Bool :=
  c = '"' || c = '\x27'

/-- The character that a backslash in front of `c` stands for. -/
def unescape (c : Char) : Char :=
  if c = 'n' then '\n'
  else if c = 'r' then '\r'
  else if c = 't' then '\t'
  else if c = '0' then '\x00'
  else c

/-- The value of a string up to its closing quote, and what follows it. -/
def readString? (quote : Char) : Text → Option (Text × Text)
  | [] => none
  | '\\' :: c :: rest => (readString? quote rest).map fun (s, after) => (unescape c :: s, after)
  | c :: rest =>
    if c = quote then some ([], rest)
    else (readString? quote rest).map fun (s, after) => (c :: s, after)

/-! ## Numbers and words -/

/-- Whether a text goes on with a word character. -/
def touchesWord : Text → Bool
  | [] => false
  | c :: _ => isWordChar c

/-- The digits after a point, if a point and a digit come next; and what follows them. -/
def splitFraction : Text → Text × Text
  | '.' :: digits =>
    if (digits.takeWhile isDigit).isEmpty then ([], '.' :: digits)
    else (digits.takeWhile isDigit, digits.dropWhile isDigit)
  | t => ([], t)

/-- Digits and an optional fraction, not touching a word. -/
def readNumber? (t : Text) : Option (Number × Text) :=
  let (fraction, after) := splitFraction (t.dropWhile isDigit)
  if touchesWord after then none
  else some (Number.ofDigits (t.takeWhile isDigit) fraction, after)

/-- What a word stands for. -/
def ofWord (word : Text) : Expr :=
  if word = "true".toList then .literal (.boolean true)
  else if word = "false".toList then .literal (.boolean false)
  else .identifier word

/-- An operand other than a parenthesis. -/
def readAtom? : Text → Option (Expr × Text)
  | [] => none
  | c :: rest =>
    if isDigit c then
      (readNumber? (c :: rest)).map fun (n, after) => (.literal (.number n), after)
    else if isQuote c then
      (readString? c rest).map fun (s, after) => (.literal (.string s), after)
    else if isWordStart c then
      some (ofWord (c :: rest.takeWhile isWordChar), rest.dropWhile isWordChar)
    else none

/-! ## Operators -/

/-- The longest infix operator at the start of a text. -/
def readOperator? : Text → Option (Operator × Text)
  | '|' :: '|' :: rest => some (.or, rest)
  | '&' :: '&' :: rest => some (.and, rest)
  | '=' :: '=' :: '=' :: rest => some (.compare .strictEqual, rest)
  | '!' :: '=' :: '=' :: rest => some (.compare .strictNotEqual, rest)
  | '=' :: '=' :: rest => some (.compare .equal, rest)
  | '!' :: '=' :: rest => some (.compare .notEqual, rest)
  | '<' :: '=' :: rest => some (.compare (.relation .lessEqual), rest)
  | '>' :: '=' :: rest => some (.compare (.relation .greaterEqual), rest)
  | '<' :: rest => some (.compare (.relation .less), rest)
  | '>' :: rest => some (.compare (.relation .greater), rest)
  | _ => none

/-! ## A token is never empty -/

theorem length_readOperator?_lt {t rest : Text} {op : Operator}
    (h : readOperator? t = some (op, rest)) : rest.length < t.length := by
  unfold readOperator? at h
  split at h <;> simp_all <;> omega

theorem length_readString?_lt {quote : Char} {t s rest : Text}
    (h : readString? quote t = some (s, rest)) : rest.length < t.length := by
  fun_induction readString? quote t generalizing s with
  | case1 => simp at h
  | case2 c more ih =>
    obtain ⟨⟨s', r'⟩, hr, he⟩ := Option.map_eq_some_iff.1 h
    simp only [Prod.mk.injEq] at he
    obtain ⟨-, rfl⟩ := he
    have := ih hr
    simp only [List.length_cons]
    omega
  | case3 c more =>
    simp only [Option.some.injEq, Prod.mk.injEq] at h
    simp [← h.2]
  | case4 c more _ _ ih =>
    obtain ⟨⟨s', r'⟩, hr, he⟩ := Option.map_eq_some_iff.1 h
    simp only [Prod.mk.injEq] at he
    obtain ⟨-, rfl⟩ := he
    have := ih hr
    simp only [List.length_cons]
    omega

theorem length_splitFraction_le (t : Text) : (splitFraction t).2.length ≤ t.length := by
  unfold splitFraction
  split
  · split
    · exact Nat.le_refl _
    · exact Nat.le_succ_of_le (List.dropWhile_sublist _).length_le
  · exact Nat.le_refl _

theorem length_readNumber?_lt {c : Char} {t rest : Text} {n : Number} (hc : isDigit c = true)
    (h : readNumber? (c :: t) = some (n, rest)) : rest.length < (c :: t).length := by
  have hw : ((c :: t).dropWhile isDigit).length ≤ t.length := by
    rw [List.dropWhile_cons_of_pos hc]
    exact (List.dropWhile_sublist _).length_le
  have hf := length_splitFraction_le ((c :: t).dropWhile isDigit)
  simp only [readNumber?, Option.ite_none_left_eq_some, Option.some.injEq, Prod.mk.injEq] at h
  rw [← h.2.2, List.length_cons]
  exact Nat.lt_succ_of_le (Nat.le_trans hf hw)

theorem length_readAtom?_lt {t rest : Text} {e : Expr} (h : readAtom? t = some (e, rest)) :
    rest.length < t.length := by
  cases t with
  | nil => simp [readAtom?] at h
  | cons c t =>
    simp only [readAtom?] at h
    split at h
    · next hc =>
      obtain ⟨⟨n, r⟩, hn, he⟩ := Option.map_eq_some_iff.1 h
      simp only [Prod.mk.injEq] at he
      exact he.2 ▸ length_readNumber?_lt hc hn
    split at h
    · obtain ⟨⟨s, r⟩, hs, he⟩ := Option.map_eq_some_iff.1 h
      simp only [Prod.mk.injEq] at he
      have := length_readString?_lt hs
      simp only [List.length_cons, ← he.2]
      omega
    split at h
    · simp only [Option.some.injEq, Prod.mk.injEq] at h
      have := (List.dropWhile_sublist isWordChar (l := t)).length_le
      simp only [List.length_cons, ← h.2]
      omega
    · simp at h

end ConditionalText.Predicate
