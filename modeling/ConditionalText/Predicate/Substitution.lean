import ConditionalText.Environment
import ConditionalText.Predicate.Token

/-!
# Substituting variables

The substitution of the specification (§4.1, §12.1). Every word of a predicate that names a variable
is replaced by a string literal with the variable's value, so that a value can never be read as
operators. Words that start with a digit and everything inside quotes stay as they are.
-/

namespace ConditionalText.Predicate

open ConditionalText.Text

/-- A character of a value inside a literal. -/
def escapeChar (c : Char) : Text :=
  if c = '\\' then "\\\\".toList
  else if c = '"' then "\\\"".toList
  else if c = '\n' then "\\n".toList
  else if c = '\r' then "\\r".toList
  else if c = '\t' then "\\t".toList
  else [c]

/-- The string literal of a value. -/
def literalOf (value : Text) : Text :=
  '"' :: value.flatMap escapeChar ++ ['"']

/-- A quoted run up to and with its closing quote, or up to the end if it has none; and what
follows it. -/
def spanQuoted (quote : Char) : Text → Text × Text
  | [] => ([], [])
  | '\\' :: c :: rest =>
    let (body, after) := spanQuoted quote rest
    ('\\' :: c :: body, after)
  | c :: rest =>
    if c = quote then ([c], rest)
    else
      let (body, after) := spanQuoted quote rest
      (c :: body, after)

theorem length_spanQuoted_le (quote : Char) (t : Text) :
    (spanQuoted quote t).2.length ≤ t.length := by
  fun_induction spanQuoted quote t <;> simp_all <;> omega

/-- What stands for a word: the literal of its value if it is a variable. -/
def replaceWord (env : Environment) (word : Text) : Text :=
  match word with
  | [] => []
  | c :: _ => if isDigit c then word else ((env.get? word).map literalOf).getD word

/-- The predicate with its variables replaced. -/
def substitute (env : Environment) : Text → Text
  | [] => []
  | c :: rest =>
    if isQuote c then
      c :: (spanQuoted c rest).1 ++ substitute env (spanQuoted c rest).2
    else if isWordChar c then
      replaceWord env (c :: rest.takeWhile isWordChar) ++ substitute env (rest.dropWhile isWordChar)
    else c :: substitute env rest
termination_by t => t.length
decreasing_by
  · exact Nat.lt_succ_of_le (length_spanQuoted_le c rest)
  · exact Nat.lt_succ_of_le (List.dropWhile_sublist _).length_le
  · exact Nat.lt_succ_self _

end ConditionalText.Predicate
