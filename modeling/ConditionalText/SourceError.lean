import ConditionalText.Directive.Basic
import ConditionalText.Predicate.Error

/-!
# What can be wrong with a source

The errors of the specification (§7, §11.1). A directive line may be malformed, a directive may
stand outside any block, a block may be left open, or a predicate may fail. Every error knows the
offset of the directive it is about, for an open block that of its `if`.
-/

namespace ConditionalText

/-- What is wrong with a source. -/
inductive SourceError where
  | malformed (e : MalformedDirective)
  | unexpectedDirective (tag : Tag) (offset : Nat)
  | unterminatedBlock (openBlocks : Nat) (offset : Nat)
  | predicate (text : Text) (offset : Nat) (cause : Predicate.Error)
  deriving DecidableEq, Repr

namespace SourceError

/-- Where the error stands in the text. -/
def offset : SourceError → Nat
  | .malformed e => e.offset
  | .unexpectedDirective _ offset => offset
  | .unterminatedBlock _ offset => offset
  | .predicate _ offset _ => offset

def message : SourceError → String
  | .malformed e => e.message
  | .unexpectedDirective tag offset =>
    "Unexpected " ++ tag.render ++ " at offset " ++ toString offset ++ " without a matching //#if"
  | .unterminatedBlock openBlocks offset =>
    "Unexpected end of input: " ++ toString openBlocks ++
      " unclosed block(s), innermost //#if at offset " ++ toString offset
  | .predicate text offset cause =>
    "Invalid predicate \"" ++ String.ofList text ++ "\" at offset " ++ toString offset ++ ": " ++
      cause.message

end SourceError

end ConditionalText
