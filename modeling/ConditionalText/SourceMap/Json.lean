import ConditionalText.Text.Basic

/-!
# JSON text

What is needed to write an object of strings and lists of strings, without any blanks. In a string
the quote, the backslash and the control characters below the space are escaped and all else stands
for itself.
-/

namespace ConditionalText.Json

/-- A hexadecimal digit of a value below 16. -/
def hexDigit (value : Nat) : Char :=
  Nat.digitChar value

/-- One character inside a string. -/
def escapeChar (c : Char) : Text :=
  if c = '"' then "\\\"".toList
  else if c = '\\' then "\\\\".toList
  else if c = '\x08' then "\\b".toList
  else if c = '\x0c' then "\\f".toList
  else if c = '\n' then "\\n".toList
  else if c = '\r' then "\\r".toList
  else if c = '\t' then "\\t".toList
  else if c.toNat < 0x20 then
    "\\u00".toList ++ [hexDigit (c.toNat / 16), hexDigit (c.toNat % 16)]
  else [c]

/-- A string. -/
def string (t : Text) : Text :=
  '"' :: t.flatMap escapeChar ++ ['"']

/-- Texts with a comma between each two. -/
def commaSeparated : List Text → Text
  | [] => []
  | [t] => t
  | t :: more => t ++ ',' :: commaSeparated more

/-- A list of strings. -/
def strings (ts : List Text) : Text :=
  '[' :: commaSeparated (ts.map string) ++ [']']

/-- An object of the given names and the texts of their values. -/
def object (fields : List (Text × Text)) : Text :=
  '\x7b' :: commaSeparated (fields.map fun (name, value) => string name ++ ':' :: value) ++ ['\x7d']

end ConditionalText.Json
