import ConditionalText.Predicate.Error

/-!
# The value of an expression

The semantics of predicates (specification, §12.1). The logical operators yield the operand that
decides and do not look at the other one. Equality converts a string to a number when it stands
beside one; the strict form never converts. The relations order two numbers, or two strings by code
points, or a number and a string that reads as a number; nothing else has an order.
-/

namespace ConditionalText.Predicate

/-- Equality that reads a string beside a number as a number. -/
def looseEquals : Value → Value → Bool
  | .string s, .number n => (numeric? s).any fun m => m.equals n
  | .number n, .string s => (numeric? s).any fun m => m.equals n
  | a, b => a.strictEquals b

/-- The order of two values: `none` where they have no common kind to be compared in,
`some none` where one side is not a number. -/
def order? : Value → Value → Option (Option Ordering)
  | .number a, .number b => some (a.order b)
  | .string a, .string b => some (some (if a < b then .lt else if a = b then .eq else .gt))
  | .string s, .number n => (numeric? s).map fun m => m.order n
  | .number n, .string s => (numeric? s).map fun m => n.order m
  | _, _ => none

/-- Whether a relation holds between two sides of a given order. -/
def Relation.holds : Relation → Ordering → Bool
  | .less, o => o == .lt
  | .lessEqual, o => o != .gt
  | .greater, o => o == .gt
  | .greaterEqual, o => o != .lt

/-- Whether a comparison holds. -/
def Comparison.holds (c : Comparison) (left right : Value) : Except Error Bool :=
  match c with
  | .equal => .ok (looseEquals left right)
  | .notEqual => .ok (!looseEquals left right)
  | .strictEqual => .ok (left.strictEquals right)
  | .strictNotEqual => .ok (!left.strictEquals right)
  | .relation r =>
    match order? left right with
    | none => .error (.typeMismatch r left.kind right.kind)
    | some o => .ok (o.any r.holds)

/-- The value of an expression. -/
def Expr.eval : Expr → Except Error Value
  | .literal v => .ok v
  | .identifier name => .error (.unknownIdentifier name)
  | .not e => e.eval.map fun v => .boolean !v.truthy
  | .binary .or left right => left.eval.bind fun v => if v.truthy then .ok v else right.eval
  | .binary .and left right => left.eval.bind fun v => if v.truthy then right.eval else .ok v
  | .binary (.compare c) left right =>
    left.eval.bind fun v => right.eval.bind fun w => (c.holds v w).map .boolean

end ConditionalText.Predicate
