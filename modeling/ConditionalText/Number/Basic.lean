/-!
# Binary floating-point numbers

The numbers of predicates are IEEE 754 binary64 values. A finite one is a sign and a whole number
of units of `2 ^ -1074`, the smallest positive value of the format, so comparing two numbers is
comparing two integers. What is not a number is comparable with nothing, and both zeros are equal.

* `order_swap`: exchanging the sides reverses the answer.
-/

namespace ConditionalText

/-- A binary64 value; a finite one is `units` times `2 ^ -1074`, with a sign of its own so that
zero has two forms. -/
inductive Number where
  | nan
  | infinity (negative : Bool)
  | finite (negative : Bool) (units : Nat)
  deriving DecidableEq, Repr

namespace Number

/-- A finite value as an integer number of units. -/
def signed (negative : Bool) (units : Nat) : Int :=
  if negative then -units else units

/-- The order of two numbers; nothing is comparable with what is not a number. -/
def order : Number → Number → Option Ordering
  | .nan, _ => none
  | _, .nan => none
  | .infinity s, .infinity t => some (compare (signed s 1) (signed t 1))
  | .infinity s, .finite _ _ => some (compare (signed s 1) 0)
  | .finite _ _, .infinity t => some (compare 0 (signed t 1))
  | .finite s m, .finite t n => some (compare (signed s m) (signed t n))

/-- Equality of values: both zeros are equal, and what is not a number equals nothing. -/
def equals (a b : Number) : Bool :=
  a.order b == some .eq

/-- Zero, of either sign. -/
def isZero : Number → Bool
  | .finite _ units => units == 0
  | _ => false

theorem order_swap : ∀ a b : Number, b.order a = (a.order b).map Ordering.swap
  | .nan, b => by cases b <;> rfl
  | .infinity _, .nan => rfl
  | .finite _ _, .nan => rfl
  | .infinity _, .infinity _ => congrArg some Std.OrientedOrd.eq_swap
  | .infinity _, .finite _ _ => congrArg some Std.OrientedOrd.eq_swap
  | .finite _ _, .infinity _ => congrArg some Std.OrientedOrd.eq_swap
  | .finite _ _, .finite _ _ => congrArg some Std.OrientedOrd.eq_swap

end Number

end ConditionalText
