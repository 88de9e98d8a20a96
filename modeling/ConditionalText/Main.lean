import ConditionalText.CommandLine.Program

/-!
# The command line on a disk

The part of the disk that a run can see is loaded into a tree, the program runs on it, and what it
changed is written back.
-/

namespace ConditionalText.Main

open ConditionalText.Files
open ConditionalText.CommandLine

/-- The absolute path of a place. -/
def pathOf (place : Place) : String :=
  String.ofList ('/' :: Text.joinWith '/' place)

/-- Loads what stands at a place, without what is below it. -/
def loadNode (tree : FileTree) (place : Place) : IO FileTree := do
  let file := (← IO.currentDir) / pathOf place
  if place.isEmpty then return tree
  else if ← file.isDir then return tree.setNode place .directory
  else if ← file.pathExists then
    return tree.setNode place (.file (.ofBytes (← IO.FS.readBinFile file)))
  else return tree

/-- Loads what stands at a place and everything below it. -/
partial def loadBelow (tree : FileTree) (place : Place) : IO FileTree := do
  let tree ← loadNode tree place
  let file := (← IO.currentDir) / pathOf place
  if !(← file.isDir) then return tree
  (← file.readDir).foldlM (fun tree entry => loadBelow tree (place ++ [entry.fileName.toList])) tree

/-- Loads the places that a path leads through, and below the last one everything if `deep`. -/
def loadPath (deep : Bool) (tree : FileTree) (p : Path) : IO FileTree := do
  let mut tree := tree
  let mut place := tree.origin p
  for component in p.components do
    tree ← loadNode tree place
    place := FileTree.follow place component
  if deep then loadBelow tree place else loadNode tree place

/-- The current directory, with the directories above it. -/
def emptyTree : IO FileTree := do
  let current := Path.components (toString (← IO.currentDir)).toList
  let above := (List.range current.length).map fun n => (current.take (n + 1), Node.directory)
  return { nodes := .ofList above, current }

/-- The part of the disk that a run can see. -/
def load (o : Options) : IO FileTree := do
  let tree ← emptyTree
  (o.inputs ++ o.outDir.toList).foldlM (loadPath o.outDir.isSome) tree

/-- Writes back what a run changed, directories before what is in them. -/
def save (before after : FileTree) : IO Unit :=
  for (place, node) in after.nodes.entries do
    if before.node? place ≠ some node then
      match node with
      | .directory => IO.FS.createDirAll (pathOf place)
      | .file content => IO.FS.writeBinFile (pathOf place) content.toBytes

/-- The pieces of a block of bytes, each ended by a zero. -/
def splitZero (bytes : ByteArray) : List (List UInt8) :=
  let step (byte : UInt8) : List (List UInt8) → List (List UInt8)
    | [] => [[byte]]
    | piece :: more => if byte = 0 then [] :: piece :: more else (byte :: piece) :: more
  bytes.toList.foldr step [[]]

/-- The variables of the process, as far as the system shows them. -/
def processVars : IO (List (ByteArray × ByteArray)) := do
  try
    let block ← IO.FS.readBinFile "/proc/self/environ"
    return (splitZero block).filterMap fun entry =>
      match entry.dropWhile (· ≠ 61) with
      | [] => none
      | _ :: value => some (⟨(entry.takeWhile (· ≠ 61)).toArray⟩, ⟨value.toArray⟩)
  catch _ => return []

/-- Runs the program on the disk. -/
def run (args : List Text) : IO UInt32 := do
  let before ←
    match Options.parse args with
    | .ok o => load o
    | .error _ => emptyTree
  let (exit, after) := program args (← processVars) before
  save before after
  IO.print (String.ofList exit.stdout)
  IO.eprint (String.ofList exit.stderr)
  return exit.code.toUInt32

end ConditionalText.Main

def main (args : List String) : IO UInt32 :=
  ConditionalText.Main.run (args.map String.toList)
