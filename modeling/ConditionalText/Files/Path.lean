import ConditionalText.Text.Basic

/-!
# Paths

A path is a text, and what is made of it keeps its spelling: doubled slashes and dots inside it
stay. Its components are the pieces between slashes, of which empty ones and `.` do not count, but
for a `.` that starts a relative path.

Paths and the names in them are Unicode texts throughout. Names that are not, which a file system
may have, are left out, and with them the replacement of what cannot be shown of such a name.

* `fileName?`: the last component, if it is a name.
* `parent?`: the path without its last component.
* `join`: a path below another one; an absolute path stands for itself.
* `extension?`: what follows the last dot of the file name, unless that dot starts it.
-/

namespace ConditionalText.Files

open ConditionalText.Text

/-- A path as it is spelled. -/
abbrev Path := Text

/-- The component that stands for the directory itself. -/
def dot : Text := ['.']

/-- The component that stands for the directory above. -/
def dotDot : Text := ['.', '.']

namespace Path

/-- Whether a path starts at the root. -/
def isAbsolute : Path → Bool
  | '/' :: _ => true
  | _ => false

/-- Whether a path ends in a slash. -/
def endsInSlash (p : Path) : Bool :=
  p.getLast? == some '/'

/-- A path below another one. -/
def join (p below : Path) : Path :=
  if isAbsolute below || p.isEmpty then below
  else if endsInSlash p then p ++ below
  else p ++ '/' :: below

/-! ## Components -/

/-- The pieces between the slashes behind the root, last first. -/
def piecesReversed (p : Path) : List Text :=
  (pieces '/' (if isAbsolute p then p.tail else p)).reverse

/-- Whether a piece with the given ones before it is a component: it is not empty, and it is no
`.` but at the start of a relative path. -/
def counts (absolute : Bool) (piece : Text) (before : List Text) : Bool :=
  !piece.isEmpty && (piece != dot || (before.isEmpty && !absolute))

/-- Pieces, last first, without those at the end that do not count. -/
def trimPieces (absolute : Bool) : List Text → List Text
  | [] => []
  | piece :: before =>
    if counts absolute piece before then piece :: before else trimPieces absolute before

/-- The path of pieces, last first. -/
def ofPieces (absolute : Bool) (ps : List Text) : Path :=
  (if absolute then ['/'] else []) ++ joinWith '/' ps.reverse

/-- The last component and, last first, the pieces before it. -/
def splitLast? (p : Path) : Option (Text × List Text) :=
  match trimPieces (isAbsolute p) (piecesReversed p) with
  | [] => none
  | last :: before => some (last, before)

/-- The last component, if it is a name. -/
def fileName? (p : Path) : Option Text :=
  match splitLast? p with
  | none => none
  | some (last, _) => if last == dot || last == dotDot then none else some last

/-- The path without its last component. -/
def parent? (p : Path) : Option Path :=
  (splitLast? p).map fun (_, before) =>
    ofPieces (isAbsolute p) (trimPieces (isAbsolute p) before)

/-- The path with another name in the place of its file name. -/
def withFileName (p : Path) (name : Text) : Path :=
  match fileName? p with
  | none => join p name
  | some _ => join ((parent? p).getD []) name

/-- What follows the last dot of the file name, unless the name starts with that dot. -/
def extension? (p : Path) : Option Text := do
  let name ← fileName? p
  match name.reverse.dropWhile (· ≠ '.') with
  | [] | [_] => none
  | _ :: _ => some (name.reverse.takeWhile (· ≠ '.')).reverse

/-! ## Ancestors -/

/-- The path of some pieces, last first, and those of the components before their last one. -/
def ancestorsOf (absolute : Bool) : List Text → List Path
  | [] => []
  | piece :: before =>
    if counts absolute piece before then
      ofPieces absolute (piece :: before) :: ancestorsOf absolute before
    else ancestorsOf absolute before

/-- A path as it is spelled and the directories above it, nearest first. -/
def ancestors (p : Path) : List Path :=
  if p.isEmpty then []
  else p :: ((splitLast? p).map fun (_, before) => ancestorsOf (isAbsolute p) before).getD []

/-- The components that lead to a path, in order; dots among them. -/
def components (p : Path) : List Text :=
  (pieces '/' p).filter fun piece => !piece.isEmpty

end Path

end ConditionalText.Files
