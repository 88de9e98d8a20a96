import ConditionalText.Text.Visible

/-!
# Quoted text

How a text is shown inside double quotes: quotes and backslashes are escaped, the usual control
characters have a letter, every other character that is not visible is written by its code point,
and all else stands for itself.
-/

namespace ConditionalText.Text

/-- One character as it stands inside the quotes. -/
def quoteChar (c : Char) : Text :=
  if c = '"' then "\\\"".toList
  else if c = '\\' then "\\\\".toList
  else if c = '\n' then "\\n".toList
  else if c = '\r' then "\\r".toList
  else if c = '\t' then "\\t".toList
  else if c.toNat = 0 then "\\0".toList
  else if isVisible c then [c]
  else "\\u\x7b".toList ++ Nat.toDigits 16 c.toNat ++ "\x7d".toList

/-- A text in double quotes. -/
def quote (t : Text) : Text :=
  '"' :: t.flatMap quoteChar ++ ['"']

end ConditionalText.Text
