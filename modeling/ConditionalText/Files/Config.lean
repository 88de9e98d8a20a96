import ConditionalText.Files.Path

/-!
# What is done with files, and what came of it

The configuration of the specification (§11.3) and the summary of a run (§12.5).
-/

namespace ConditionalText.Files

open ConditionalText.Text

/-- How files are preprocessed. -/
structure Config where
  /-- Whether a source map is written beside every output. -/
  sourceMaps : Bool
  /-- Whether source maps hold the text of the source. -/
  embedSources : Bool
  /-- The extensions of the files that are picked from a directory. -/
  extensions : List Text
  /-- Whether the outputs of a directory keep their places below it. -/
  keepStructure : Bool
  /-- Whether more is logged. -/
  debug : Bool
  deriving DecidableEq, Repr

namespace Config

def default : Config :=
  { sourceMaps := false
    embedSources := false
    extensions := ["js", "ts", "mjs", "cjs", "jsx", "tsx"].map String.toList
    keepStructure := true
    debug := false }

/-- Equality of texts in which the case of ASCII letters does not matter. -/
def sameIgnoringCase (a b : Text) : Bool :=
  a.map Char.toLower == b.map Char.toLower

/-- Whether a file is picked from a directory; dots in front of a wanted extension and case do not
matter. -/
def picks (c : Config) (p : Path) : Bool :=
  p.extension?.any fun extension =>
    c.extensions.any fun wanted =>
      sameIgnoringCase (wanted.dropWhile (· = '.')) extension

end Config

/-- What came of some files. -/
structure Summary where
  processed : Nat
  changed : Nat
  removedBytes : Nat
  errors : List String
  deriving DecidableEq, Repr

namespace Summary

def empty : Summary := ⟨0, 0, 0, []⟩

def merge (a b : Summary) : Summary :=
  { processed := a.processed + b.processed
    changed := a.changed + b.changed
    removedBytes := a.removedBytes + b.removedBytes
    errors := a.errors ++ b.errors }

def addError (s : Summary) (message : String) : Summary :=
  { s with errors := s.errors ++ [message] }

def isSuccess (s : Summary) : Bool :=
  s.errors.isEmpty

/-- The errors in the order of their texts. -/
def sortErrors (s : Summary) : Summary :=
  { s with errors := s.errors.mergeSort fun a b => a ≤ b }

end Summary

end ConditionalText.Files
