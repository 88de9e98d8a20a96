import ConditionalText.Number.Basic
import ConditionalText.Text.Word

/-!
# Reading numbers

`ofDecimal` gives the binary64 value nearest to `digits × 10 ^ exponent`, a tie going to the even
significand and everything from `2 ^ 1024 - 2 ^ 970` on to infinity. The rounding is done on exact
natural numbers, so there is nothing to go wrong in the last place.

`read?` reads a whole text as a number: an optional sign, then `inf`, `infinity` or `nan` in any
case, or digits with an optional point (a digit on at least one side of it) and an optional
exponent.
-/

namespace ConditionalText.Number

open ConditionalText.Text

/-! ## Rounding -/

/-- The natural number nearest to `num / den`, a tie going to the even one. -/
def roundHalfEven (num den : Nat) : Nat :=
  let quotient := num / den
  let twice := 2 * (num % den)
  if twice < den then quotient
  else if den < twice then quotient + 1
  else quotient + quotient % 2

/-- The first number of units that is out of range: `2 ^ 1024` in units of `2 ^ -1074`. -/
def unitLimit : Nat := Nat.pow 2 2098

/-- The units of the binary64 value nearest to `num / den` units: from `2 ^ 53` units on only
multiples of a power of two are available, so that 53 binary digits suffice. -/
def roundUnits (num den : Nat) : Nat :=
  let gap := Nat.pow 2 (Nat.log2 (num / den) - 52)
  roundHalfEven num (den * gap) * gap

/-- The number of decimal digits of a natural number other than zero. -/
def digitCount (n : Nat) : Nat :=
  (Nat.toDigits 10 n).length

/-- The binary64 value nearest to `digits × 10 ^ exponent`. A value of `10 ^ 310` or more is out
of range whatever its digits, and one below `10 ^ -400` is less than half a unit, so neither needs
its powers of ten. -/
def ofDecimal (negative : Bool) (digits : Nat) (exponent : Int) : Number :=
  if digits = 0 then .finite negative 0
  else if 310 < digitCount digits + exponent then .infinity negative
  else if digitCount digits + exponent < -400 then .finite negative 0
  else
    let units := roundUnits (digits * Nat.pow 10 exponent.toNat * Nat.pow 2 1074)
      (Nat.pow 10 (-exponent).toNat)
    if unitLimit ≤ units then .infinity negative else .finite negative units

/-! ## The text of a number -/

/-- The value of a run of decimal digits. -/
def digitsValue (digits : Text) : Nat :=
  digits.foldl (fun value c => 10 * value + (c.toNat - '0'.toNat)) 0

/-- Digits with an optional fraction, as a number. -/
def ofDigits (whole fraction : Text) : Number :=
  ofDecimal false (digitsValue (whole ++ fraction)) (-fraction.length)

/-- The text in lower case, for the ASCII letters. -/
def foldCase (t : Text) : Text :=
  t.map Char.toLower

/-- A sign in front of a text: whether it is a minus, and what follows it. -/
def splitSign : Text → Bool × Text
  | '-' :: rest => (true, rest)
  | '+' :: rest => (false, rest)
  | t => (false, t)

/-- An optional exponent at the end of a number. -/
def readExponent? : Text → Option Int
  | [] => some 0
  | mark :: rest =>
    if mark = 'e' || mark = 'E' then
      match splitSign rest with
      | (negative, digits) =>
        if digits.isEmpty || !digits.all isDigit then none
        else some (signed negative (digitsValue digits))
    else none

/-- The digits after a point, if a point comes next; and what follows them. -/
def splitPoint : Text → Text × Text
  | '.' :: digits => (digits.takeWhile isDigit, digits.dropWhile isDigit)
  | t => ([], t)

/-- Digits, an optional fraction and an optional exponent. -/
def readDecimal? (negative : Bool) (t : Text) : Option Number :=
  let whole := t.takeWhile isDigit
  let (fraction, rest) := splitPoint (t.dropWhile isDigit)
  if whole.isEmpty && fraction.isEmpty then none
  else (readExponent? rest).map fun exponent =>
    ofDecimal negative (digitsValue (whole ++ fraction)) (exponent - fraction.length)

/-- A whole text as a number, if it is one. -/
def read? (t : Text) : Option Number :=
  match splitSign t with
  | (negative, body) =>
    let word := foldCase body
    if word = "inf".toList || word = "infinity".toList then some (.infinity negative)
    else if word = "nan".toList then some .nan
    else readDecimal? negative body

end ConditionalText.Number
