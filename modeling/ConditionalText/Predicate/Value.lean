import ConditionalText.Number.Reading
import ConditionalText.Number.Shortest
import ConditionalText.Text.Blank
import ConditionalText.Text.Quoted

/-!
# The values of predicates

A predicate yields a boolean, a number or a string (specification, §12.1). Each of them decides a
branch: `truthy` is false for `false`, for zero, for what is not a number and for the empty string.
-/

namespace ConditionalText.Predicate

/-- The kinds of values. -/
inductive Kind where
  | boolean
  | number
  | string
  deriving DecidableEq, Repr

/-- The name of a kind in messages. -/
def Kind.name : Kind → String
  | .boolean => "boolean"
  | .number => "number"
  | .string => "string"

/-- What a predicate evaluates to. -/
inductive Value where
  | boolean (b : Bool)
  | number (n : Number)
  | string (s : Text)
  deriving DecidableEq, Repr

namespace Value

def kind : Value → Kind
  | .boolean _ => .boolean
  | .number _ => .number
  | .string _ => .string

/-- Whether a value takes its branch. -/
def truthy : Value → Bool
  | .boolean b => b
  | .number n => n != .nan && !n.isZero
  | .string s => !s.isEmpty

/-- A value as it is shown, a string in quotes. -/
def render : Value → Text
  | .boolean b => if b then "true".toList else "false".toList
  | .number n => n.render
  | .string s => Text.quote s

/-- Equality without conversion: same kind, same value. -/
def strictEquals : Value → Value → Bool
  | .boolean a, .boolean b => a == b
  | .number a, .number b => a.equals b
  | .string a, .string b => a == b
  | _, _ => false

end Value

/-- The number a string stands for, blanks around it ignored. -/
def numeric? (s : Text) : Option Number :=
  Number.read? (Text.trim s)

end ConditionalText.Predicate
