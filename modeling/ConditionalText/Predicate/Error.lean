import ConditionalText.Predicate.Expr

/-!
# What can be wrong with a predicate

The predicate errors of the specification (§11.1, §12.1): either its text is no expression, or its
evaluation meets an identifier without a value or two values that have no order.
-/

namespace ConditionalText.Predicate

/-- What could have stood where reading stopped. -/
inductive Expected where
  /-- The start of an expression. -/
  | expression
  /-- An operand, after `!` or an infix operator. -/
  | operand
  /-- An infix operator, or the end of the text. -/
  | operatorOrEnd
  /-- An infix operator, inside parentheses. -/
  | operator
  deriving DecidableEq, Repr

/-- The infix operators in the order in which messages list them. -/
def operatorNames : String :=
  "or, and, strict_eq, strict_ne, eq, ne, le, ge, lt, or gt"

def Expected.message : Expected → String
  | .expression => "expected expr"
  | .operand => "expected not, boolean, number, string, or identifier"
  | .operatorOrEnd => "expected EOI, " ++ operatorNames
  | .operator => "expected " ++ operatorNames

/-- Where the text of a predicate stops being one. -/
structure SyntaxError where
  expected : Expected
  /-- The number of characters before the place. -/
  position : Nat
  /-- The place in its line, from 1. -/
  column : Nat
  deriving DecidableEq, Repr

/-- What is wrong with a predicate. -/
inductive Error where
  | malformed (e : SyntaxError)
  | unknownIdentifier (name : Text)
  | typeMismatch (relation : Relation) (left right : Kind)
  deriving DecidableEq, Repr

def SyntaxError.message (e : SyntaxError) : String :=
  e.expected.message ++ " at column " ++ toString e.column

def Error.message : Error → String
  | .malformed e => "Syntax error: " ++ e.message
  | .unknownIdentifier name => "Unknown identifier '" ++ String.ofList name ++ "'"
  | .typeMismatch relation left right =>
    "Type error: cannot compare " ++ left.name ++ " " ++ relation.symbol ++ " " ++ right.name

end ConditionalText.Predicate
