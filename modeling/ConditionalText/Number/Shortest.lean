import ConditionalText.Number.Basic
import ConditionalText.Text.Basic

/-!
# The shortest text of a number

A number is written with the fewest decimal digits that read back as the same number, and of those
the digits nearest to it. The reals that round to a value form an interval around it; `shortest`
goes through the decimal grids from coarse to fine, and the first grid with a point in the interval
gives the digits. If any point of a grid lies in the interval, so does one of the two neighbours of
the value on that grid, so two tests a grid suffice.

`render` writes the digits positionally, without an exponent and without a trailing `.0`.
-/

namespace ConditionalText.Number

/-- A decimal `digits × 10 ^ exponent`. -/
structure Decimal where
  digits : Nat
  exponent : Int
  deriving DecidableEq, Repr

/-- The reals that round to a value, in quarters of a unit. -/
structure RoundingInterval where
  low : Nat
  high : Nat
  /-- An end of the interval rounds to the value exactly when its significand is even. -/
  endsIncluded : Bool
  deriving DecidableEq, Repr

/-- The interval of `units` reaches half way to the next value on both sides; below a power of two
the values lie twice as dense, so there it is half as wide. -/
def RoundingInterval.around (units : Nat) : RoundingInterval :=
  let power := Nat.log2 units - 52
  let gap := Nat.pow 2 power
  let below := if 0 < power && units == Nat.pow 2 (Nat.log2 units) then gap else 2 * gap
  { low := 4 * units - below, high := 4 * units + 2 * gap, endsIncluded := units / gap % 2 == 0 }

/-- Whether `quarters / scale` lies in the interval. -/
def RoundingInterval.holds (i : RoundingInterval) (scale quarters : Nat) : Bool :=
  if i.endsIncluded then i.low * scale ≤ quarters && quarters ≤ i.high * scale
  else i.low * scale < quarters && quarters < i.high * scale

/-- The multiple of `10 ^ exponent` nearest to `units` among its two neighbours that read back as
it, if one does; of two at the same distance the larger. -/
def nearestOnGrid (units : Nat) (exponent : Int) : Option Decimal :=
  let interval := RoundingInterval.around units
  let scale := Nat.pow 10 (-exponent).toNat
  let step := Nat.pow 10 exponent.toNat * Nat.pow 2 1076
  let value := 4 * units * scale
  let floor := value / step
  let down := interval.holds scale (floor * step)
  let up := interval.holds scale ((floor + 1) * step)
  if up && (!down || step ≤ 2 * (value % step)) then some ⟨floor + 1, exponent⟩
  else if down then some ⟨floor, exponent⟩
  else none

/-- The decimal grids that can matter, from `10 ^ 309` down to `10 ^ -324`. -/
def grids : List Int :=
  (List.range 634).map fun (i : Nat) => 309 - (i : Int)

/-- The shortest decimal that reads back as `units`. -/
def shortest (units : Nat) : Decimal :=
  (grids.findSome? (nearestOnGrid units)).getD ⟨0, 0⟩

/-- A decimal written out, the point only where a fraction follows it. -/
def Decimal.render (d : Decimal) : Text :=
  let digits := Nat.toDigits 10 d.digits
  if 0 ≤ d.exponent then digits ++ List.replicate d.exponent.toNat '0'
  else
    let places := (-d.exponent).toNat
    let padded := List.replicate (places + 1 - digits.length) '0' ++ digits
    let whole := padded.length - places
    padded.take whole ++ '.' :: padded.drop whole

/-- The sign of a number, written only if negative. -/
def signText (negative : Bool) : Text :=
  if negative then ['-'] else []

/-- The text of a number. -/
def render : Number → Text
  | .nan => "NaN".toList
  | .infinity negative => signText negative ++ "inf".toList
  | .finite negative units =>
    signText negative ++ if units = 0 then ['0'] else (shortest units).render

end ConditionalText.Number
