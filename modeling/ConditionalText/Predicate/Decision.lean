import ConditionalText.Predicate.Meaning
import ConditionalText.Predicate.Reading
import ConditionalText.Predicate.Substitution

/-!
# Deciding a predicate

The predicate evaluator of the specification (§4.1). A predicate is decided in an environment: its
variables are replaced, the text is read, and the truth of the value is the answer.
-/

namespace ConditionalText.Predicate

/-- Reads a text and evaluates it, without any variables. -/
def evaluate (t : Text) : Except Error Value :=
  ((parse t).mapError .malformed).bind Expr.eval

/-- `evaluate` (§4.1, §12.1): whether a predicate takes its branch. -/
def holdsIn (env : Environment) (t : Text) : Except Error Bool :=
  (evaluate (substitute env (Text.trim t))).map Value.truthy

end ConditionalText.Predicate
