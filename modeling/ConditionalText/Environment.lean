import ConditionalText.Table
import ConditionalText.Text.Blank
import ConditionalText.Text.Word

/-!
# Environments

The environment of the specification (§3, §11.3) gives values to names. Names are ordered by code
points, which is the order of their UTF-8 bytes. An environment comes from pairs, from the variables
of a process, or from definitions `NAME=value`.
-/

namespace ConditionalText

/-- Names with their values. -/
abbrev Environment := Table Text Text

namespace Environment

open ConditionalText.Text

/-- `from_process` (§11.3): the usable variables of a process, as the block of its variables lists
them. The name is an identifier, and name and value are UTF-8. Of several such variables with one
name the last one counts. -/
def ofProcess (vars : List (ByteArray × ByteArray)) : Environment :=
  .ofList <| vars.filterMap fun (name, value) => do
    let name ← String.fromUTF8? name
    let value ← String.fromUTF8? value
    if isIdentifier name.toList then some (name.toList, value.toList) else none

/-- The block of a process in which variables have been set one after another: each name stands in
it once, with the value that it was given last. -/
def setVars : List (ByteArray × ByteArray) → List (ByteArray × ByteArray)
  | [] => []
  | (name, value) :: later =>
    if later.any fun var => var.1 = name then setVars later else (name, value) :: setVars later

/-! ## Definitions -/

/-- A definition whose name is no identifier. -/
structure InvalidDefinition where
  definition : Text
  deriving DecidableEq, Repr

def InvalidDefinition.message (e : InvalidDefinition) : String :=
  "Invalid variable name in definition: '" ++ String.ofList e.definition ++ "'"

/-- The text before the first `=`, and the text after it if there is one. -/
def splitDefinition (definition : Text) : Text × Option Text :=
  (definition.takeWhile (· ≠ '='), (definition.dropWhile (· ≠ '=')).tail?)

/-- `parse_define` (§11.3): reads `NAME=value`, or `NAME` alone for the value `true`. Blanks around
the name do not count, those of the value do. -/
def parseDefinition (definition : Text) : Except InvalidDefinition (Text × Text) :=
  let (name, value) := splitDefinition definition
  if isIdentifier (trim name) then .ok (trim name, value.getD "true".toList)
  else .error ⟨definition⟩

end Environment

end ConditionalText
