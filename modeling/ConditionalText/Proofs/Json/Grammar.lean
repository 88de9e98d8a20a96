import ConditionalText.Number.Reading
import ConditionalText.SourceMap.Json
import Mathlib.Data.Rat.Init

/-!
# What a JSON text says

The grammar of JSON, in two layers. The tokens of a value are fixed by the value: where brackets,
commas and colons stand is never a choice. What is left open is how each token is spelled, and the
blanks between them.

* `Value.tokens`: the tokens of a value.
* `CharSpelling`: the ways to write a character of a string, as it is, by a short escape, by its
  code in four hexadecimal digits, or by a pair of surrogates.
* `Numeral`: a number as it is written, digit by digit; its shape is part of the type.
* `Spells`: a text is a row of tokens and blanks.
* `Denotes`: **a text is valid JSON for a value** if it spells the tokens of the value.
-/

namespace ConditionalText.Json

open ConditionalText.Text

/-! ## Values -/

/-- A value that holds no others. -/
inductive Scalar where
  | null
  | bool (b : Bool)
  | number (value : ℚ)
  | string (t : Text)

/-- A value. The members of an object are in the order of the text, and nothing keeps two of them
from having the same name. -/
inductive Value where
  | scalar (s : Scalar)
  | array (elements : List Value)
  | object (members : List (Text × Value))

namespace Value

/-- A string, as a value. -/
def ofText (t : Text) : Value :=
  .scalar (.string t)

/-- A list of strings, as a value. -/
def ofTexts (ts : List Text) : Value :=
  .array (ts.map ofText)

end Value

/-! ## Tokens -/

/-- The characters that give a text its structure. -/
inductive Mark where
  | openArray
  | closeArray
  | openObject
  | closeObject
  | comma
  | colon

/-- How a mark is written. -/
def Mark.char : Mark → Char
  | .openArray => '['
  | .closeArray => ']'
  | .openObject => '\x7b'
  | .closeObject => '\x7d'
  | .comma => ','
  | .colon => ':'

/-- What stands between blanks. -/
inductive Token where
  | mark (m : Mark)
  | scalar (s : Scalar)

/-- Rows of tokens with a comma between each two. -/
def commaJoined : List (List Token) → List Token
  | [] => []
  | [row] => row
  | row :: more => row ++ .mark .comma :: commaJoined more

mutual

/-- The tokens of a value. -/
def Value.tokens : Value → List Token
  | .scalar s => [.scalar s]
  | .array elements =>
    .mark .openArray :: commaJoined (elementRows elements) ++ [.mark .closeArray]
  | .object members =>
    .mark .openObject :: commaJoined (memberRows members) ++ [.mark .closeObject]

/-- The tokens of each element of an array. -/
def elementRows : List Value → List (List Token)
  | [] => []
  | v :: more => v.tokens :: elementRows more

/-- The tokens of each member of an object. -/
def memberRows : List (Text × Value) → List (List Token)
  | [] => []
  | (name, v) :: more => (.scalar (.string name) :: .mark .colon :: v.tokens) :: memberRows more

end

/-! ## Characters of strings -/

/-- The value of a hexadecimal digit, in either case. -/
def hexValue? (c : Char) : Option Nat :=
  if '0' ≤ c ∧ c ≤ '9' then some (c.toNat - '0'.toNat)
  else if 'a' ≤ c ∧ c ≤ 'f' then some (c.toNat - 'a'.toNat + 10)
  else if 'A' ≤ c ∧ c ≤ 'F' then some (c.toNat - 'A'.toNat + 10)
  else none

/-- The value of four hexadecimal digits. -/
def codeUnit? (a b c d : Char) : Option Nat := do
  return 16 * (16 * (16 * (← hexValue? a) + (← hexValue? b)) + (← hexValue? c)) + (← hexValue? d)

/-- The character that a backslash and one other character stand for. -/
def shortEscape? : Char → Option Char
  | '"' => some '"'
  | '\\' => some '\\'
  | '/' => some '/'
  | 'b' => some '\x08'
  | 'f' => some '\x0c'
  | 'n' => some '\n'
  | 'r' => some '\r'
  | 't' => some '\t'
  | _ => none

/-- A character that may stand for itself in a string. -/
def isPlain (c : Char) : Bool :=
  0x20 ≤ c.toNat && c ≠ '"' && c ≠ '\\'

def IsHighSurrogate (unit : Nat) : Prop :=
  0xd800 ≤ unit ∧ unit < 0xdc00

def IsLowSurrogate (unit : Nat) : Prop :=
  0xdc00 ≤ unit ∧ unit < 0xe000

instance (unit : Nat) : Decidable (IsHighSurrogate unit) :=
  inferInstanceAs (Decidable (_ ∧ _))

instance (unit : Nat) : Decidable (IsLowSurrogate unit) :=
  inferInstanceAs (Decidable (_ ∧ _))

/-- The code of the character that a pair of surrogates stands for. -/
def pairCode (high low : Nat) : Nat :=
  0x10000 + (high - 0xd800) * 0x400 + (low - 0xdc00)

/-- The ways to write a character of a string. -/
inductive CharSpelling : Char → Text → Prop where
  | plain {c : Char} : isPlain c = true → CharSpelling c [c]
  | short {e c : Char} : shortEscape? e = some c → CharSpelling c ['\\', e]
  | code {p q r s c : Char} : codeUnit? p q r s = some c.toNat →
      CharSpelling c ['\\', 'u', p, q, r, s]
  | pair {p q r s p' q' r' s' c : Char} {high low : Nat} :
      codeUnit? p q r s = some high → codeUnit? p' q' r' s' = some low →
      IsHighSurrogate high → IsLowSurrogate low → c.toNat = pairCode high low →
      CharSpelling c ['\\', 'u', p, q, r, s, '\\', 'u', p', q', r', s']

/-- The ways to write the characters of a string. -/
inductive CharsSpelling : Text → Text → Prop where
  | nil : CharsSpelling [] []
  | cons {c : Char} {t s u : Text} :
      CharSpelling c s → CharsSpelling t u → CharsSpelling (c :: t) (s ++ u)

/-! ## Numbers -/

/-- One or more decimal digits. -/
@[ext]
structure Digits where
  text : Text
  ne_nil : text ≠ []
  isDigit_of_mem : ∀ c ∈ text, isDigit c = true

/-- The exponent of a number, as it is written. -/
structure Exponent where
  mark : Char
  mark_eq : mark = 'e' ∨ mark = 'E'
  sign : Option Char
  sign_eq : ∀ c ∈ sign, c = '+' ∨ c = '-'
  digits : Digits

/-- A number as it is written. It does not start with a zero unless this is all there is before the
point. -/
structure Numeral where
  negative : Bool
  whole : Digits
  whole_eq_of_zero : whole.text.head? = some '0' → whole.text = ['0']
  fraction : Option Digits
  exponent : Option Exponent

def Exponent.value (e : Exponent) : Int :=
  if e.sign = some '-' then -Number.digitsValue e.digits.text else Number.digitsValue e.digits.text

def fractionSpelling : Option Digits → Text
  | none => []
  | some digits => '.' :: digits.text

def exponentSpelling : Option Exponent → Text
  | none => []
  | some e => e.mark :: (e.sign.toList ++ e.digits.text)

namespace Numeral

def spelling (n : Numeral) : Text :=
  (if n.negative then ['-'] else []) ++
    (n.whole.text ++ (fractionSpelling n.fraction ++ exponentSpelling n.exponent))

/-- The digits after the point. -/
def places (n : Numeral) : Text :=
  n.fraction.elim [] Digits.text

/-- The number that is written. -/
def value (n : Numeral) : ℚ :=
  (if n.negative then -1 else 1) * Number.digitsValue (n.whole.text ++ n.places) *
    10 ^ (n.exponent.elim 0 Exponent.value - n.places.length)

end Numeral

/-! ## Texts -/

/-- The ways to write a token. -/
inductive TokenSpelling : Token → Text → Prop where
  | mark (m : Mark) : TokenSpelling (.mark m) [m.char]
  | null : TokenSpelling (.scalar .null) "null".toList
  | true : TokenSpelling (.scalar (.bool true)) "true".toList
  | false : TokenSpelling (.scalar (.bool false)) "false".toList
  | number (n : Numeral) : TokenSpelling (.scalar (.number n.value)) n.spelling
  | string {t s : Text} : CharsSpelling t s →
      TokenSpelling (.scalar (.string t)) ('"' :: s ++ ['"'])

/-- A blank between tokens. -/
def isSpacing (c : Char) : Bool :=
  c = ' ' || c = '\t' || c = '\n' || c = '\r'

/-- A text that does not go on with a digit. -/
def StopsDigits (t : Text) : Prop :=
  ∀ c ∈ t.head?, isDigit c = false

/-- Whether a token is at its end before the given text: the digits of a number go on as long as
there are any. -/
def Token.EndsBefore : Token → Text → Prop
  | .scalar (.number _), t => StopsDigits t
  | _, _ => True

/-- A text is a row of tokens, with blanks anywhere between them. -/
inductive Spells : Text → List Token → Prop where
  | nil : Spells [] []
  | blank {c : Char} {t : Text} {ts : List Token} :
      isSpacing c = true → Spells t ts → Spells (c :: t) ts
  | token {token : Token} {s t : Text} {ts : List Token} :
      TokenSpelling token s → token.EndsBefore t → Spells t ts → Spells (s ++ t) (token :: ts)

/-- A text is valid JSON for a value. -/
def Denotes (t : Text) (v : Value) : Prop :=
  Spells t v.tokens

end ConditionalText.Json
