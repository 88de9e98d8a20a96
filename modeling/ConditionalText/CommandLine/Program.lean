import ConditionalText.CommandLine.Jobs

/-!
# The program

What the program of the specification (§12.6) prints and leaves behind, given its arguments, the
variables of its process and the files it starts with. How the reader of arguments words a usage
error is left out.
-/

namespace ConditionalText.CommandLine

open ConditionalText.Files

/-- The version of the program. -/
def version : String := "0.1.0"

/-- The line that `--version` prints. -/
def versionLine : String := "condpp " ++ version ++ "\n"

/-- What `--help` prints. -/
def helpText : String :=
  "Strip disabled //#if branches from source files\n\n" ++
  "Usage: condpp [OPTIONS] <INPUT>...\n\n" ++
  "Arguments:\n" ++
  "  <INPUT>...  Source files or directories to preprocess\n\n" ++
  "Options:\n" ++
  "  -D, --define <KEY=VALUE>  Define a variable for predicates (bare KEY means true)\n" ++
  "      --no-process-env      Do not import process environment variables\n" ++
  "  -o, --out-dir <DIR>       Output directory; required for directories and multiple inputs\n" ++
  "      --source-map          Write a Source Map v3 file next to every output\n" ++
  "      --sources-content     Embed the original text in emitted source maps\n" ++
  "      --ext <EXT>           File extension to pick up when walking directories (repeatable)\n" ++
  "      --flatten             Write directory outputs without mirroring the input tree\n" ++
  "      --debug               Enable debug logging\n" ++
  "  -h, --help                Print help\n" ++
  "  -V, --version             Print version\n"

/-- How the program ends. -/
structure Exit where
  code : UInt8
  stdout : Text
  stderr : Text
  deriving DecidableEq, Repr

namespace Exit

/-- Messages for the error output, each ended by a line feed. -/
def messages (ms : List String) : Text :=
  ms.flatMap fun m => m.toList ++ ['\n']

/-- How the program ends if there is nothing to run. -/
def ofRefusal : Refusal → Exit
  | .early .help => ⟨0, helpText.toList, []⟩
  | .early .version => ⟨0, versionLine.toList, []⟩
  | .early (.usage _) => ⟨2, [], []⟩
  | .options e => ⟨1, [], messages ["Error: " ++ e.message]⟩

/-- How the program ends if its jobs cannot be planned. -/
def ofPlanError (e : PlanError) : Exit :=
  ⟨1, [], messages ["Error: " ++ e.message]⟩

/-- How the program ends after a run. -/
def ofOutcome (o : Outcome) : Exit :=
  { code := if o.summary.isSuccess then 0 else 1
    stdout := o.stdout.getD []
    stderr := messages (o.summary.errors.map ("error: " ++ ·)) }

/-- A line without a carriage return at its end. -/
def bareLine (line : Text) : Text :=
  if line.getLast? = some '\r' then line.dropLast else line

/-- The lines of the error output that report an error. A message may hold line feeds, and then
counts line by line. -/
def reports (e : Exit) : List Text :=
  ((Text.lines e.stderr).map bareLine).filter fun line =>
    "error: ".toList.isPrefixOf line || "Error: ".toList.isPrefixOf line

end Exit

/-- The whole program. -/
def program (args : List Text) (vars : List (ByteArray × ByteArray)) (tree : FileTree) :
    Exit × FileTree :=
  match Options.parse args with
  | .error e => (.ofRefusal e, tree)
  | .ok o =>
    match run o vars tree with
    | (.error e, tree) => (.ofPlanError e, tree)
    | (.ok outcome, tree) => (.ofOutcome outcome, tree)

end ConditionalText.CommandLine
