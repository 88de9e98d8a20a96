import ConditionalText.Files.Path
import ConditionalText.Table

/-!
# File trees

What the batch driver of the specification (§12.5) works on: a tree of directories and files, and
the directory that relative paths start from. A place is the list of names that lead to it from the
root; the root itself is always there and is a directory.

A path is followed component by component (`descend`), so every directory on the way has to exist
even if `..` leaves it again. Reading, writing and creating directories fail with the error that an
operating system would give; a path that it cannot take at all (`checkPath`) leads nowhere. The
place of a path is found by its absolute path (`resolve`), which is longer than the path itself and
so may be more than the system can take.
-/

namespace ConditionalText.Files

open ConditionalText.Text

/-- Why an operation on a tree failed. -/
inductive OsError where
  | notFound
  | alreadyExists
  | notADirectory
  | isADirectory
  | nameTooLong
  | zeroInName
  deriving DecidableEq, Repr

def OsError.message : OsError → String
  | .notFound => "No such file or directory (os error 2)"
  | .alreadyExists => "File exists (os error 17)"
  | .notADirectory => "Not a directory (os error 20)"
  | .isADirectory => "Is a directory (os error 21)"
  | .nameTooLong => "File name too long (os error 36)"
  | .zeroInName => "file name contained an unexpected NUL byte"

/-- What a file holds: a text, or bytes that are not UTF-8. -/
inductive Content where
  | text (t : Text)
  | binary (bytes : ByteArray)
  deriving DecidableEq

namespace Content

def ofBytes (bytes : ByteArray) : Content :=
  match String.fromUTF8? bytes with
  | some s => .text s.toList
  | none => .binary bytes

def toBytes : Content → ByteArray
  | .text t => (String.ofList t).toUTF8
  | .binary bytes => bytes

end Content

/-- What stands at a place. -/
inductive Node where
  | directory
  | file (content : Content)
  deriving DecidableEq

/-- The names that lead to a place from the root. -/
abbrev Place := List Text

instance : KeyOrder Place := inferInstanceAs (KeyOrder (List Text))

/-- A tree of files. -/
structure FileTree where
  /-- Everything below the root. -/
  nodes : Table Place Node
  /-- Where relative paths start. -/
  current : Place
  deriving DecidableEq

namespace FileTree

/-! ## Places -/

/-- What stands at a place. -/
def node? (t : FileTree) (place : Place) : Option Node :=
  if place.isEmpty then some .directory else t.nodes.get? place

def setNode (t : FileTree) (place : Place) (node : Node) : FileTree :=
  { t with nodes := t.nodes.insert place node }

/-- The names in a directory, in order. -/
def names (t : FileTree) (place : Place) : List Text :=
  t.nodes.keys.filterMap fun key => if key.dropLast = place then key.getLast? else none

/-- The length of the longest place. -/
def depth (t : FileTree) : Nat :=
  (t.nodes.keys.map List.length).foldl max 0

/-! ## Following paths -/

/-- The place a component leads to. -/
def follow (place : Place) (component : Text) : Place :=
  if component = dot then place
  else if component = dotDot then place.dropLast
  else place ++ [component]

/-- The most bytes that a name can have. -/
def maxNameBytes : Nat := 255

/-- The most bytes that a path can have. -/
def maxPathBytes : Nat := 4095

/-- What is wrong with a path wherever it is followed from. -/
def checkPath (p : Path) : Except OsError Unit :=
  if '\x00' ∈ p then .error .zeroInName
  else if maxPathBytes < byteLength p then .error .nameTooLong
  else if p.isEmpty then .error .notFound
  else .ok ()

/-- Follows components from a place; all but the last must lead to directories, and the last to
something. -/
def descend (t : FileTree) : Place → List Text → Except OsError Place
  | place, [] =>
    match t.node? place with
    | none => .error .notFound
    | some _ => .ok place
  | place, component :: more =>
    match t.node? place with
    | none => .error .notFound
    | some (.file _) => .error .notADirectory
    | some .directory =>
      if maxNameBytes < byteLength component then .error .nameTooLong
      else descend t (follow place component) more

/-- What it takes to follow a component. -/
theorem descend_cons_eq_ok_iff {t : FileTree} {place q : Place} {c : Text} {cs : List Text} :
    t.descend place (c :: cs) = .ok q ↔
      t.node? place = some .directory ∧ byteLength c ≤ maxNameBytes ∧
        t.descend (follow place c) cs = .ok q := by
  rw [descend]
  split
  · next h => simp [h]
  · next h => simp [h]
  · next h =>
    split
    · next hlong =>
      constructor
      · intro heq
        cases heq
      · rintro ⟨-, hshort, -⟩
        exact absurd hlong (Nat.not_lt.mpr hshort)
    · next hshort => simp [h, Nat.not_lt.mp hshort]

/-- Where following a path starts. -/
def origin (t : FileTree) (p : Path) : Place :=
  if p.isAbsolute then [] else t.current

/-- The place of a path; a slash at its end asks for a directory. -/
def locate (t : FileTree) (p : Path) : Except OsError Place :=
  (checkPath p).bind fun _ =>
    (t.descend (t.origin p) p.components).bind fun place =>
      match p.endsInSlash, t.node? place with
      | true, some (.file _) => .error .notADirectory
      | _, _ => .ok place

/-- Whether a path leads to a directory. -/
def isDirectory (t : FileTree) (p : Path) : Bool :=
  match t.locate p with
  | .ok place => t.node? place == some .directory
  | .error _ => false

/-- Where the last component of a path is to stand: its directory, which must exist, and the
component. The root has none, and asking for it gives the error `atRoot`. -/
def locateLast (t : FileTree) (p : Path) (atRoot : OsError) : Except OsError (Place × Text) :=
  (checkPath p).bind fun _ =>
    match p.components.getLast? with
    | none => .error atRoot
    | some last =>
      (t.descend (t.origin p) p.components.dropLast).bind fun place =>
        match t.node? place with
        | some .directory => .ok (place, last)
        | _ => .error .notADirectory

/-! ## Resolving paths -/

/-- The bytes of the absolute path of a place. -/
def pathBytes : Place → Nat
  | [] => 0
  | name :: below => 1 + byteLength name + pathBytes below

/-- Whether what follows a name in a path asks for a directory: dots or a slash at the end of the
path, or `..`. -/
def asksForDirectory (slash : Bool) : List Text → Bool
  | [] => slash
  | component :: more =>
    component = dotDot ||
      component = dot && (more.isEmpty || asksForDirectory slash more)

/-- Whether no absolute path on the way from a place is too long. Each name is looked up by its
absolute path, with a slash behind it where a directory is asked for. -/
def resolvableFrom (slash : Bool) : Place → List Text → Bool
  | _, [] => true
  | place, component :: more =>
    (component = dot || component = dotDot ||
      pathBytes (follow place component) + (if asksForDirectory slash more then 1 else 0) ≤
        maxPathBytes) &&
    resolvableFrom slash (follow place component) more

/-- Whether no absolute path on the way of a path is too long. -/
def resolvable (t : FileTree) (p : Path) : Bool :=
  resolvableFrom p.endsInSlash (t.origin p) p.components

/-- The place of a path, told by its absolute path. That may be too long although the path is
not. -/
def resolve (t : FileTree) (p : Path) : Except OsError Place :=
  (t.locate p).bind fun place =>
    if t.resolvable p then .ok place else .error .nameTooLong

/-! ## Operations -/

/-- What a file holds. -/
def read (t : FileTree) (p : Path) : Except OsError Content :=
  (t.locate p).bind fun place =>
    match t.node? place with
    | some (.file content) => .ok content
    | some .directory => .error .isADirectory
    | none => .error .notFound

/-- Writes a file, in the place of what it held before. -/
def write (t : FileTree) (p : Path) (content : Content) : Except OsError FileTree :=
  (t.locateLast p .isADirectory).bind fun (place, last) =>
    if last = dot ∨ last = dotDot ∨ p.endsInSlash then .error .isADirectory
    else if maxNameBytes < byteLength last then .error .nameTooLong
    else if t.node? (place ++ [last]) = some .directory then .error .isADirectory
    else .ok (t.setNode (place ++ [last]) (.file content))

/-- Creates a directory, which must not exist. -/
def makeDirectory (t : FileTree) (p : Path) : Except OsError FileTree :=
  (t.locateLast p .alreadyExists).bind fun (place, last) =>
    if last = dot ∨ last = dotDot then .error .alreadyExists
    else if maxNameBytes < byteLength last then .error .nameTooLong
    else if (t.node? (place ++ [last])).isSome then .error .alreadyExists
    else .ok (t.setNode (place ++ [last]) .directory)

/-- Creates the first of some directories, and before it those of the others that are missing. -/
def makeAncestors (t : FileTree) : List Path → Except OsError Unit × FileTree
  | [] => (.ok (), t)
  | p :: above =>
    match t.makeDirectory p with
    | .ok t' => (.ok (), t')
    | .error .notFound =>
      match t.makeAncestors above with
      | (.error e, t') => (.error e, t')
      | (.ok (), t') =>
        match t'.makeDirectory p with
        | .ok t'' => (.ok (), t'')
        | .error e => (if t'.isDirectory p then .ok () else .error e, t')
    | .error e => (if t.isDirectory p then .ok () else .error e, t)

/-- Makes sure that a path leads to a directory. What has been created before an error stays. -/
def makeDirectories (t : FileTree) (p : Path) : Except OsError Unit × FileTree :=
  t.makeAncestors p.ancestors

end FileTree

end ConditionalText.Files
