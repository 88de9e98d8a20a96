import ConditionalText.Text.Basic

/-!
# Reading the command line

The arguments of the command-line driver (specification, §12.6) are read from left to right. Options
and inputs may be mixed; `--` ends the options, and a single `-` is an input. An option's value
follows it as the next argument or is attached to it, after `=` for a long option and directly or
after one `=` for a short one.

A value or a run of inputs is checked only when it is complete, that is, when the next option, an
input after an option, or the end comes (`settle`). So an unknown option is reported before a fault
in the value in front of it, while `--help` is not.
-/

namespace ConditionalText.CommandLine

/-- The options without a value. -/
inductive Flag where
  | noProcessEnv
  | sourceMap
  | sourcesContent
  | flatten
  | debug
  deriving DecidableEq, Repr

/-- The options with a value. -/
inductive Setting where
  | define
  | outDir
  | extension
  deriving DecidableEq, Repr

/-- The options. -/
inductive Parameter where
  | flag (f : Flag)
  | setting (s : Setting)
  | help
  | version
  deriving DecidableEq, Repr

/-- The long options by name. -/
def longNames : List (Text × Parameter) :=
  [("define".toList, .setting .define),
    ("no-process-env".toList, .flag .noProcessEnv),
    ("out-dir".toList, .setting .outDir),
    ("source-map".toList, .flag .sourceMap),
    ("sources-content".toList, .flag .sourcesContent),
    ("ext".toList, .setting .extension),
    ("flatten".toList, .flag .flatten),
    ("debug".toList, .flag .debug),
    ("help".toList, .help),
    ("version".toList, .version)]

/-- The short options by letter. -/
def shortNames : List (Char × Parameter) :=
  [('D', .setting .define), ('o', .setting .outDir), ('h', .help), ('V', .version)]

/-- Why the command line was not accepted. -/
inductive UsageError where
  | missingArgument
  | invalidValue
  | unknownArgument
  | repeatedArgument
  | unexpectedValue
  deriving DecidableEq, Repr

/-- What ends the reading of a command line early. -/
inductive EarlyExit where
  | usage (e : UsageError)
  | help
  | version
  deriving DecidableEq, Repr

/-- The argument that is not complete yet. -/
inductive Pending where
  | nothing
  /-- An option and its value, if it has come. -/
  | setting (s : Setting) (value : Option Text)
  /-- A run of inputs. -/
  | inputs (values : List Text)
  deriving DecidableEq, Repr

/-- What has been read of a command line. -/
structure Arguments where
  inputs : List Text
  definitions : List Text
  outDir : Option Text
  extensions : List Text
  flags : List Flag
  pending : Pending
  deriving DecidableEq, Repr

namespace Arguments

/-- Nothing read yet. -/
def start : Arguments := ⟨[], [], none, [], [], .nothing⟩

/-- Whether a flag has been given. -/
def has (a : Arguments) (f : Flag) : Bool :=
  a.flags.contains f

/-! ## Single arguments -/

/-- Takes an option with its value. -/
def take (a : Arguments) (s : Setting) (value : Text) : Except EarlyExit Arguments :=
  match s with
  | .define => .ok { a with definitions := a.definitions ++ [value] }
  | .extension => .ok { a with extensions := a.extensions ++ [value] }
  | .outDir =>
    if a.outDir.isSome then .error (.usage .repeatedArgument)
    else if value.isEmpty then .error (.usage .invalidValue)
    else .ok { a with outDir := some value }

/-- Completes the pending argument. -/
def settle (a : Arguments) : Except EarlyExit Arguments :=
  let settled := { a with pending := .nothing }
  match a.pending with
  | .nothing => .ok settled
  | .setting _ none => .error (.usage .invalidValue)
  | .setting s (some value) => settled.take s value
  | .inputs values =>
    if values.any List.isEmpty then .error (.usage .invalidValue)
    else .ok { settled with inputs := a.inputs ++ values }

/-- An input. -/
def positional (a : Arguments) (value : Text) : Except EarlyExit Arguments :=
  match a.pending with
  | .inputs values => .ok { a with pending := .inputs (values ++ [value]) }
  | _ => a.settle.map fun a => { a with pending := .inputs [value] }

/-- An argument that is no option: the value that is due, or an input. -/
def plain (a : Arguments) (value : Text) : Except EarlyExit Arguments :=
  match a.pending with
  | .setting s none => .ok { a with pending := .setting s (some value) }
  | _ => a.positional value

/-- An option, with the value attached to it if there is one. -/
def option (a : Arguments) (p : Parameter) (attached : Option Text) :
    Except EarlyExit Arguments :=
  match p, attached with
  | .setting s, none => a.settle.map fun a => { a with pending := .setting s none }
  | .setting s, some value => a.settle.bind fun a => a.take s value
  | _, some _ => .error (.usage .unexpectedValue)
  | .flag f, none =>
    a.settle.bind fun a =>
      if a.has f then .error (.usage .repeatedArgument)
      else .ok { a with flags := a.flags ++ [f] }
  | .help, none => a.settle.bind fun _ => .error .help
  | .version, none => a.settle.bind fun _ => .error .version

/-- A long option without its dashes. -/
def long (a : Arguments) (body : Text) : Except EarlyExit Arguments :=
  match longNames.lookup (body.takeWhile (· ≠ '=')) with
  | none => .error (.usage .unknownArgument)
  | some p => a.option p (body.dropWhile (· ≠ '=')).tail?

/-- The value attached to a short option, if there is one. -/
def attachedValue? : Text → Option Text
  | [] => none
  | '=' :: value => some value
  | value => some value

/-- Short options without their dash; the first one with a value takes the rest. -/
def shorts (a : Arguments) : Text → Except EarlyExit Arguments
  | [] => .ok a
  | letter :: rest =>
    match shortNames.lookup letter with
    | none => .error (.usage .unknownArgument)
    | some (.setting s) => a.option (.setting s) (attachedValue? rest)
    | some p => (a.option p none).bind fun a => a.shorts rest

/-- One argument before `--`. -/
def argument (a : Arguments) : Text → Except EarlyExit Arguments
  | '-' :: '-' :: body => a.long body
  | ['-'] => a.plain ['-']
  | '-' :: letters => a.shorts letters
  | value => a.plain value

/-! ## All arguments -/

/-- The arguments after `--`. -/
def readInputs (a : Arguments) : List Text → Except EarlyExit Arguments
  | [] => a.settle
  | value :: more => (a.positional value).bind fun a => a.readInputs more

/-- Reads arguments up to the end. -/
def readAll (a : Arguments) : List Text → Except EarlyExit Arguments
  | [] => a.settle
  | ['-', '-'] :: more => a.readInputs more
  | arg :: more => (a.argument arg).bind fun a => a.readAll more

/-- An input is needed, and the content of sources needs a source map to stand in. -/
def check (a : Arguments) : Except EarlyExit Arguments :=
  if a.inputs.isEmpty || (a.has .sourcesContent && !a.has .sourceMap) then
    .error (.usage .missingArgument)
  else .ok a

/-- Reads a command line without the name of the program. -/
def read (args : List Text) : Except EarlyExit Arguments :=
  (start.readAll args).bind check

end Arguments

end ConditionalText.CommandLine
