import ConditionalText.Text.Basic

/-!
# Variable-length quantities in Base64

The numbers of the mappings (specification, §12.4). An integer is written in Base64 digits of five
bits each, the least significant first; the sixth bit of a digit says that another follows. The
lowest bit of the number is its sign.
-/

namespace ConditionalText.SourceMap

/-- The Base64 alphabet. -/
def alphabet : Text :=
  "ABCDEFGHIJKLMNOPQRSTUVWXYZabcdefghijklmnopqrstuvwxyz0123456789+/".toList

/-- The Base64 digit of a value below 64. -/
def base64 (value : Nat) : Char :=
  alphabet.getD value 'A'

/-- An integer as a natural number with the sign in its lowest bit. -/
def foldSign : Int → Nat
  | .ofNat n => 2 * n
  | .negSucc n => 2 * (n + 1) + 1

/-- The digit values of a natural number, five bits each, all but the last marked as followed. -/
def vlqDigits (n : Nat) : List Nat :=
  if n < 32 then [n] else (32 + n % 32) :: vlqDigits (n / 32)
termination_by n

/-- An integer as a variable-length quantity. -/
def encodeVlq (value : Int) : Text :=
  (vlqDigits (foldSign value)).map base64

end ConditionalText.SourceMap
