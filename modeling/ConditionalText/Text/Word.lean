import ConditionalText.Text.Basic

/-!
# Words and identifiers

A word is a run of ASCII letters, digits and underscores. An identifier is a word that does not
start with a digit.
-/

namespace ConditionalText.Text

/-- An ASCII digit. -/
def isDigit (c : Char) : Bool :=
  '0' ≤ c && c ≤ '9'

/-- An ASCII letter. -/
def isLetter (c : Char) : Bool :=
  ('a' ≤ c && c ≤ 'z') || ('A' ≤ c && c ≤ 'Z')

/-- A character an identifier may start with. -/
def isWordStart (c : Char) : Bool :=
  c = '_' || isLetter c

/-- A character of a word. -/
def isWordChar (c : Char) : Bool :=
  isWordStart c || isDigit c

/-- A letter or underscore, then word characters. -/
def isIdentifier : Text → Bool
  | [] => false
  | c :: rest => isWordStart c && rest.all isWordChar

end ConditionalText.Text
