import ConditionalText.Text.Blank
import ConditionalText.Text.Span

/-!
# Directives

The directive scanner of the specification (§4.2, §6, §12.2). A directive is a whole line: spaces
and tabs, the marker `//#`, one of four keywords, and after `if` and `elif` a predicate. Any other
line is ordinary text, also one whose keyword goes on (`//#ifdef`).

* `items` gives the directives of a text in order, and in the place of a directive line that has no
  predicate but needs one, or has one but takes none, what is wrong with it.
* A carriage return at the end of the line does not belong to the directive.
-/

namespace ConditionalText

open ConditionalText.Text

/-- The four keywords. -/
inductive Tag where
  | ifTag
  | elifTag
  | elseTag
  | endifTag
  deriving DecidableEq, Repr

namespace Tag

def keyword : Tag → String
  | .ifTag => "if"
  | .elifTag => "elif"
  | .elseTag => "else"
  | .endifTag => "endif"

/-- A tag as it stands in a line. -/
def render (tag : Tag) : String :=
  "//#" ++ tag.keyword

def needsPredicate : Tag → Bool
  | .ifTag | .elifTag => true
  | .elseTag | .endifTag => false

/-- The keyword at the start of a text, and what follows it. -/
def read? : Text → Option (Tag × Text)
  | 'i' :: 'f' :: rest => some (.ifTag, rest)
  | 'e' :: 'l' :: 'i' :: 'f' :: rest => some (.elifTag, rest)
  | 'e' :: 'l' :: 's' :: 'e' :: rest => some (.elseTag, rest)
  | 'e' :: 'n' :: 'd' :: 'i' :: 'f' :: rest => some (.endifTag, rest)
  | _ => none

/-- The tag of a keyword. -/
def ofKeyword? (keyword : Text) : Option Tag :=
  match read? keyword with
  | some (tag, []) => some tag
  | _ => none

end Tag

/-- A directive of a text (§3). -/
structure Directive where
  tag : Tag
  predicate : Option Text
  /-- Where it stands: the line without its end. -/
  span : Span
  deriving DecidableEq, Repr

/-- A directive line that is not a directive. -/
inductive MalformedDirective where
  | missingPredicate (tag : Tag) (offset : Nat)
  | unexpectedPredicate (tag : Tag) (offset : Nat) (text : Text)
  deriving DecidableEq, Repr

namespace MalformedDirective

def tag : MalformedDirective → Tag
  | .missingPredicate tag _ => tag
  | .unexpectedPredicate tag _ _ => tag

def offset : MalformedDirective → Nat
  | .missingPredicate _ offset => offset
  | .unexpectedPredicate _ offset _ => offset

def message : MalformedDirective → String
  | .missingPredicate tag offset =>
    "Missing predicate for " ++ tag.render ++ " at offset " ++ toString offset
  | .unexpectedPredicate tag offset text =>
    "Unexpected predicate '" ++ String.ofList text ++ "' for " ++ tag.render ++ " at offset " ++
      toString offset

end MalformedDirective

namespace Directive

/-- What a directive line comes to. -/
abbrev Item := Except MalformedDirective Directive

/-! ## One line -/

/-- Whether a keyword ends before a text: at the end of the line, at a carriage return that ends
the line, or at a space or tab. -/
def endsKeyword : Text → Bool
  | [] => true
  | ['\r'] => true
  | c :: _ => isSpaceOrTab c

/-- The tag of a directive line and what follows its keyword. -/
def splitLine? (line : Text) : Option (Tag × Text) :=
  match skipSpaces line with
  | '/' :: '/' :: '#' :: rest => (Tag.read? rest).filter fun (_, after) => endsKeyword after
  | _ => none

/-- The predicate in what follows a keyword, if there is one. -/
def predicateOf? (after : Text) : Option Text :=
  let predicate := trimEnd (skipSpaces after)
  if predicate.isEmpty then none else some predicate

/-- The number of bytes of a line without a carriage return at its end. -/
def bareLength (line : Text) : Nat :=
  byteLength line - if line.getLast? = some '\r' then 1 else 0

/-- What a line at a given offset comes to; nothing if it is ordinary text. -/
def ofLine? (offset : Nat) (line : Text) : Option Item :=
  (splitLine? line).map fun (tag, after) =>
    match tag.needsPredicate, predicateOf? after with
    | true, none => .error (.missingPredicate tag offset)
    | false, some text => .error (.unexpectedPredicate tag offset text)
    | _, predicate => .ok { tag, predicate, span := ⟨offset, offset + bareLength line⟩ }

/-! ## All lines -/

/-- The items of lines, the first of which starts at the given offset. -/
def itemsFrom (offset : Nat) : List Text → List Item
  | [] => []
  | line :: more => (ofLine? offset line).toList ++ itemsFrom (offset + byteLength line + 1) more

/-- The items of a text, in order. -/
def items (t : Text) : List Item :=
  itemsFrom 0 (lines t)

/-- `scan` (§4.2): the directives of a text, or what is wrong with the first malformed one. -/
def scan (t : Text) : Except MalformedDirective (List Directive) :=
  (items t).mapM id

end Directive

end ConditionalText
