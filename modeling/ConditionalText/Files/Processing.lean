import ConditionalText.Files.Config
import ConditionalText.Files.Tree
import ConditionalText.Preprocess
import ConditionalText.Text.Location

/-!
# Preprocessing files

The batch driver of the specification (§12.5). A file is read, preprocessed and written to another
place, with a source map beside it if asked for. A directory is walked in the order of names; every
file with a wanted extension becomes an output, and an error of one file is noted and does not stop
the others. The output directory is never walked itself: every directory is resolved, to be compared
with it, and one that cannot be resolved stops the walk.

The walk sees the tree as it is when it enters a directory, outputs of this run among it. It goes
no deeper than the deepest place of the tree it starts with: an output stands no deeper below the
source directory than the file it comes from.
-/

namespace ConditionalText.Files

open ConditionalText.Text

/-! ## Errors -/

/-- Why a source could not be read. -/
inductive ReadError where
  | os (e : OsError)
  | notUtf8
  deriving DecidableEq, Repr

def ReadError.message : ReadError → String
  | .os e => e.message
  | .notUtf8 => "stream did not contain valid UTF-8"

/-- Why a file or directory was not preprocessed. -/
inductive FileError where
  | read (p : Path) (cause : ReadError)
  | preprocess (p : Path) (location : Location) (cause : SourceError)
  | os (cause : OsError)
  | notAFilePath (p : Path)
  | missingDirectory (p : Path)
  | resolve (p : Path) (cause : OsError)
  deriving DecidableEq, Repr

/-- The message of a source's error, followed by that of its cause if it has one: a predicate's
error is said twice. -/
def FileError.withCause (cause : SourceError) : String :=
  match cause with
  | .predicate _ _ inner => cause.message ++ ": " ++ inner.message
  | _ => cause.message

def FileError.message : FileError → String
  | .read p cause => "failed to read " ++ String.ofList p ++ ": " ++ cause.message
  | .preprocess p location cause =>
    "failed to preprocess " ++ String.ofList p ++ ":" ++ location.render ++ ": " ++
      withCause cause
  | .os cause => cause.message
  | .notAFilePath p => "Not a file path: " ++ String.ofList p
  | .missingDirectory p => "Source directory does not exist: " ++ String.ofList p
  | .resolve p cause => "failed to resolve " ++ String.ofList p ++ ": " ++ cause.message

/-! ## Actions -/

/-- Work on a tree that may fail; what it did before failing stays. -/
abbrev Action := ExceptT FileError (StateM FileTree)

namespace Action

def ofExcept {α : Type} (result : Except FileError α) : Action α :=
  ExceptT.mk (pure result)

/-- A step that fails without any effect. -/
def ofStep (step : FileTree → Except OsError FileTree) : Action Unit := do
  match step (← get) with
  | .ok t => set t
  | .error e => throw (.os e)

def writeFile (p : Path) (t : Text) : Action Unit :=
  ofStep fun tree => tree.write p (.text t)

def makeDirectories (p : Path) : Action Unit := do
  let (result, tree) := (← get).makeDirectories p
  set tree
  match result with
  | .ok () => pure ()
  | .error e => throw (.os e)

def resolve (p : Path) : Action Place := do
  match (← get).resolve p with
  | .ok place => return place
  | .error e => throw (.os e)

end Action

/-! ## One file -/

/-- How files are preprocessed, and in which environment. -/
structure Setup where
  env : Environment
  config : Config

/-- The file name of a path that must have one. -/
def fileName (p : Path) : Except FileError Text :=
  match p.fileName? with
  | some name => .ok name
  | none => .error (.notAFilePath p)

/-- An output with the comment that names its map, on a line of its own. -/
def withMapComment (text mapName : Text) : Text :=
  let text := if text.isEmpty || text.getLast? == some '\n' then text else text ++ ['\n']
  text ++ SourceMap.linkComment mapName ++ ['\n']

namespace Setup

/-- Reads and preprocesses a file: its text and what becomes of it. -/
def processText (s : Setup) (tree : FileTree) (p : Path) :
    Except FileError (Text × Output) :=
  match tree.read p with
  | .error e => .error (.read p (.os e))
  | .ok (.binary _) => .error (.read p .notUtf8)
  | .ok (.text source) =>
    match preprocess s.env source with
    | .error e => .error (.preprocess p (Text.locate source e.offset) e)
    | .ok out => .ok (source, out)

/-- The summary of one preprocessed file. -/
def summaryOf (out : Output) : Summary :=
  { processed := 1
    changed := if out.isUnchanged then 0 else 1
    removedBytes := out.removedBytes
    errors := [] }

/-- `preprocess_file` (§12.5): preprocesses a file into another one. -/
def processFile (s : Setup) (source output : Path) : Action Summary := do
  let (text, out) ← Action.ofExcept (s.processText (← get) source)
  if let some parent := output.parent? then Action.makeDirectories parent
  if s.config.sourceMaps then
    let name ← Action.ofExcept (fileName output)
    let mapName := name ++ ".map".toList
    let map := out.sourceMap text
      { file := some name, sourceName := source, includeContent := s.config.embedSources }
    Action.writeFile (output.withFileName mapName) map.toJson
    Action.writeFile output (withMapComment out.text mapName)
  else
    Action.writeFile output out.text
  return summaryOf out

/-! ## A directory -/

/-- Where a directory's outputs go. -/
structure Walk where
  /-- The output directory as it is spelled. -/
  output : Path
  /-- The place it leads to. -/
  place : Place

/-- The output of a file of which the names below the source directory are given. -/
def outputPath (s : Setup) (w : Walk) (below : List Text) (name : Text) : Path :=
  w.output.join (if s.config.keepStructure then joinWith '/' (below ++ [name]) else name)

/-- Notes what came of one more file. -/
def record (action : Action Summary) (summary : Summary) : Action Summary :=
  tryCatch (do return summary.merge (← action)) fun e => return summary.addError e.message

/-- The recursive walk (§12.5) through a directory, given as it is spelled, its place and the names
that lead to it from the source directory; `fuel` bounds the depth. A directory whose path cannot be
resolved ends the walk, and what has been written stays. -/
def walk (s : Setup) (w : Walk) :
    Nat → Path → Place → List Text → Summary → Action Summary
  | 0, _, _, _, summary => return summary
  | fuel + 1, dir, place, below, summary => do
    ((← get).names place).foldlM
      (fun summary name => do
        let p := dir.join name
        if (← get).isDirectory p then
          let here ← Action.resolve p
          if here = w.place then return summary
          else s.walk w fuel p here (below ++ [name]) summary
        else if s.config.picks p then
          record (s.processFile p (s.outputPath w below name)) summary
        else return summary)
      summary

/-- `preprocess_directory` (§12.5): preprocesses the files of a directory into another one. -/
def processDirectory (s : Setup) (source output : Path) : Action Summary := do
  if !(← get).isDirectory source then throw (.missingDirectory source)
  Action.makeDirectories output
  let tree ← get
  match tree.resolve output, tree.locate source with
  | .error e, _ => throw (.resolve output e)
  | _, .error _ => throw (.missingDirectory source)
  | .ok outputPlace, .ok place =>
    s.walk { output, place := outputPlace } (tree.depth + 1) source place [] .empty

end Setup

end ConditionalText.Files
