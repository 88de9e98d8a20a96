import ConditionalText.CommandLine.Arguments
import ConditionalText.Environment
import ConditionalText.Files.Config

/-!
# The options of a run

The arguments with their definitions read (specification, §12.6), and what follows from them: the
environment and the configuration (§11.3).
-/

namespace ConditionalText.CommandLine

open ConditionalText.Files

/-- What a run is asked to do. -/
structure Options where
  inputs : List Path
  definitions : List (Text × Text)
  useProcessVars : Bool
  outDir : Option Path
  sourceMap : Bool
  sourcesContent : Bool
  extensions : List Text
  flatten : Bool
  debug : Bool
  deriving DecidableEq, Repr

/-- Why accepted arguments make no run. -/
inductive OptionsError where
  | definition (e : Environment.InvalidDefinition)
  | sourceMapNeedsOutDir
  deriving DecidableEq, Repr

def OptionsError.message : OptionsError → String
  | .definition e => e.message
  | .sourceMapNeedsOutDir => "--source-map requires --out-dir"

/-- Why there is nothing to run. -/
inductive Refusal where
  | early (e : EarlyExit)
  | options (e : OptionsError)
  deriving DecidableEq, Repr

namespace Options

/-- The options of arguments: the first invalid definition counts before anything else. -/
def ofArguments (a : Arguments) : Except OptionsError Options :=
  match a.definitions.mapM Environment.parseDefinition with
  | .error e => .error (.definition e)
  | .ok definitions =>
    if a.outDir.isNone && a.has .sourceMap then .error .sourceMapNeedsOutDir
    else .ok
      { inputs := a.inputs
        definitions
        useProcessVars := !a.has .noProcessEnv
        outDir := a.outDir
        sourceMap := a.has .sourceMap
        sourcesContent := a.has .sourcesContent
        extensions := a.extensions
        flatten := a.has .flatten
        debug := a.has .debug }

/-- The options of a command line. -/
def parse (args : List Text) : Except Refusal Options :=
  match Arguments.read args with
  | .error e => .error (.early e)
  | .ok a => (ofArguments a).mapError .options

/-- The environment of a run: the variables of the process, unless they are not wanted, and over
them the definitions. -/
def environment (o : Options) (vars : List (ByteArray × ByteArray)) : Environment :=
  let process := if o.useProcessVars then Environment.ofProcess vars else .empty
  process.merge (.ofList o.definitions)

/-- The configuration of a run. -/
def config (o : Options) : Config :=
  { sourceMaps := o.sourceMap
    embedSources := o.sourcesContent
    extensions :=
      if o.extensions.isEmpty then Config.default.extensions else o.extensions
    keepStructure := !o.flatten
    debug := o.debug }

end Options

end ConditionalText.CommandLine
