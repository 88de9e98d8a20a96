import ConditionalText.Predicate.Value

/-!
# Expressions

The trees of the predicate grammar (specification, §12.1). A predicate is an expression of literals,
identifiers, `!` and the infix operators. Parentheses leave no trace: they only decide which tree is
meant.
-/

namespace ConditionalText.Predicate

/-- The operators that need an order of their operands. -/
inductive Relation where
  | less
  | lessEqual
  | greater
  | greaterEqual
  deriving DecidableEq, Repr

/-- The operators that compare two values. -/
inductive Comparison where
  | equal
  | notEqual
  | strictEqual
  | strictNotEqual
  | relation (r : Relation)
  deriving DecidableEq, Repr

/-- The infix operators. -/
inductive Operator where
  | or
  | and
  | compare (c : Comparison)
  deriving DecidableEq, Repr

/-- The spelling of a relation. -/
def Relation.symbol : Relation → String
  | .less => "<"
  | .lessEqual => "<="
  | .greater => ">"
  | .greaterEqual => ">="

/-- The spelling of a comparison. -/
def Comparison.symbol : Comparison → String
  | .equal => "=="
  | .notEqual => "!="
  | .strictEqual => "==="
  | .strictNotEqual => "!=="
  | .relation r => r.symbol

namespace Operator

/-- The spelling of an operator. -/
def symbol : Operator → String
  | .or => "||"
  | .and => "&&"
  | .compare c => c.symbol

/-- Every operator. -/
def all : List Operator :=
  [.or, .and, .compare .equal, .compare .notEqual, .compare .strictEqual,
    .compare .strictNotEqual, .compare (.relation .less), .compare (.relation .lessEqual),
    .compare (.relation .greater), .compare (.relation .greaterEqual)]

/-- The operator of a spelling. -/
def ofSymbol? (s : String) : Option Operator :=
  all.find? fun op => op.symbol == s

/-- How tightly operators bind, loosest first (§12.1). -/
inductive Binding where
  | disjunction
  | conjunction
  | equality
  | relation
  deriving DecidableEq, Repr

/-- The level of an operator. -/
def binding : Operator → Binding
  | .or => .disjunction
  | .and => .conjunction
  | .compare (.relation _) => .relation
  | .compare _ => .equality

end Operator

/-- An expression. -/
inductive Expr where
  | literal (v : Value)
  | identifier (name : Text)
  | not (operand : Expr)
  | binary (op : Operator) (left right : Expr)
  deriving DecidableEq, Repr

end ConditionalText.Predicate
