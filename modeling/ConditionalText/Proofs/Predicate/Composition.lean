import ConditionalText.Proofs.Predicate.Substitution

/-!
# Substituting twice

What substituting puts into a text is closed: a literal ends where its value ends, whatever the
value holds, and behind it the text goes on as it did. So a second pass finds the quoted runs, words
and single characters of the first one again, and looks up no more than the words that were left.
This needs no well-formed predicate; quotes may be left open.

* `spanQuoted_again`, `spanQuoted_literalOf`: a quoted run is found again, and a literal is one.
* `substitute_quoted_append`, `substitute_word_append`: the two pieces that a second pass meets.
* `substitute_replaceWord_append`: what stands for a word, in the second pass.
* `substitute_substitute`: **substituting twice is substituting once, in both environments
  together.**
-/

namespace ConditionalText.Predicate

open ConditionalText.Text

variable {env : Environment}

/-! ## Quoted runs -/

/-- A run that can be read as a string is found whatever follows it. -/
theorem spanQuoted_of_readString? {quote : Char} (hquote : quote ≠ '\\') {body s u : Text}
    (h : readString? quote (body ++ u) = some (s, u)) : spanQuoted quote (body ++ u) = (body, u) := by
  obtain ⟨body', hspan, -⟩ := exists_spanQuoted_of_readString? hquote h
  have happend : body' ++ u = body ++ u := by
    have := spanQuoted_append quote (body ++ u)
    rwa [hspan] at this
  rw [hspan, List.append_cancel_right happend]

/-- **A quoted run is found again**, whatever has come to follow it; one that is left open must
still be followed by nothing. -/
theorem spanQuoted_again {quote : Char} (hquote : quote ≠ '\\') {t u : Text}
    (hu : (spanQuoted quote t).2 = [] → u = []) :
    spanQuoted quote ((spanQuoted quote t).1 ++ u) = ((spanQuoted quote t).1, u) := by
  cases h : readString? quote t with
  | none =>
    have hopen := spanQuoted_of_readString?_eq_none h
    rw [hopen] at hu ⊢
    rw [hu rfl, List.append_nil, hopen]
  | some found =>
    obtain ⟨body, hspan, hbody⟩ := exists_spanQuoted_of_readString? hquote h
    rw [hspan]
    exact spanQuoted_of_readString? hquote (hbody u)

/-- The literal of a value is one quoted run. -/
theorem spanQuoted_literalOf (value u : Text) :
    spanQuoted '"' (value.flatMap escapeChar ++ ['"'] ++ u) =
      (value.flatMap escapeChar ++ ['"'], u) := by
  refine spanQuoted_of_readString? (by decide) (s := value) ?_
  rw [List.append_assoc]
  exact readString?_literalOf value u

/-! ## The second pass -/

/-- A quoted run stays as it is, and the pass goes on behind it. -/
theorem substitute_quoted_append {quote : Char} (hquote : isQuote quote = true) {body u : Text}
    (hspan : spanQuoted quote (body ++ u) = (body, u)) :
    substitute env (quote :: body ++ u) = quote :: body ++ substitute env u := by
  rw [List.cons_append, substitute_of_isQuote hquote, hspan]
  rfl

/-- A word is replaced where the text does not go on with it. -/
theorem substitute_word_append {c : Char} {word u : Text} (hword : ∀ d ∈ c :: word, isWordChar d)
    (hu : touchesWord u = false) :
    substitute env (c :: word ++ u) = replaceWord env (c :: word) ++ substitute env u := by
  have hall : ∀ d ∈ word, isWordChar d = true := fun d hd => hword d (List.mem_cons_of_mem c hd)
  obtain ⟨htake, hdrop⟩ : u.takeWhile isWordChar = [] ∧ u.dropWhile isWordChar = u :=
    takeWhile_append_of_touchesWord (fun _ hd => hd) hu []
  rw [List.cons_append, substitute_of_isWordChar (hword c List.mem_cons_self),
    List.takeWhile_append_of_pos hall, List.dropWhile_append_of_pos hall, htake, hdrop,
    List.append_nil]

theorem substitute_literalOf_append (value u : Text) :
    substitute env (literalOf value ++ u) = literalOf value ++ substitute env u :=
  substitute_quoted_append (by decide) (spanQuoted_literalOf value u)

/-- What stands for a word is a literal, which stays, or the word itself, which is looked up in the
second environment. -/
theorem substitute_replaceWord_append (first second : Environment) {c : Char} {word u : Text}
    (hword : ∀ d ∈ c :: word, isWordChar d) (hu : touchesWord u = false) :
    substitute second (replaceWord first (c :: word) ++ u) =
      replaceWord (second.merge first) (c :: word) ++ substitute second u := by
  by_cases hc : isDigit c = true
  · rw [replaceWord_of_isDigit hc, replaceWord_of_isDigit hc, substitute_word_append hword hu,
      replaceWord_of_isDigit hc]
  · rw [replaceWord_of_not_isDigit hc, replaceWord_of_not_isDigit hc, Table.get?_merge]
    cases first.get? (c :: word) with
    | some value => exact substitute_literalOf_append value u
    | none =>
      change substitute second (c :: word ++ u) = _
      rw [substitute_word_append hword hu, replaceWord_of_not_isDigit hc]
      rfl

/-- A second pass goes by the pieces of the first one: what was quoted or put in stays, and a word
that was left is looked up again. -/
theorem substitute_twice (first second : Environment) (t : Text) :
    substitute second (substitute first t) = substitute (second.merge first) t := by
  -- quoted run by quoted run, word by word and character by character, as substituting goes
  fun_induction substitute first t with
  | case1 => rw [substitute_nil, substitute_nil]
  | case2 c t hquote ih =>
    have hagain := spanQuoted_again (ne_backslash_of_isQuote hquote) (t := t)
      (u := substitute first (spanQuoted c t).2) fun h => by rw [h, substitute_nil]
    rw [substitute_quoted_append hquote hagain, substitute_of_isQuote hquote, ih]
    rfl
  | case3 c t _ hc ih =>
    have hrest := touchesWord_substitute first (touchesWord_dropWhile t)
    rw [substitute_replaceWord_append first second (isWordChar_of_mem_word hc t) hrest, ih,
      substitute_of_isWordChar hc]
  | case4 c t hquote hword ih =>
    have hplain : isPlain c = true := by simp [isPlain, hquote, hword]
    rw [substitute_of_isPlain hplain, substitute_of_isPlain hplain, ih]

theorem merge_self (env : Environment) : env.merge env = env :=
  Table.ext fun name => by rw [Table.get?_merge, Option.or_self]

/-- **Substituting twice is substituting once, in both environments together**, whatever the
predicate and the values are; where both environments have a variable the first one counts. So a
second pass in the same environment changes nothing. -/
theorem substitute_substitute (first second : Environment) (t : Text) :
    substitute second (substitute first t) = substitute (second.merge first) t ∧
      substitute first (substitute first t) = substitute first t := by
  refine ⟨substitute_twice first second t, ?_⟩
  rw [substitute_twice, merge_self]

end ConditionalText.Predicate
