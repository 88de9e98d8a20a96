import ConditionalText.CommandLine.Options
import ConditionalText.Files.Processing

/-!
# The jobs of a run

Every input becomes a job (specification, §12.6). Without an output directory there must be a single
input that is no directory, and it is printed. With one, a single directory is written straight into
it, and everything else gets an entry in it that is named after the input.

The errors of jobs are noted, and listed in the order of their texts.
-/

namespace ConditionalText.CommandLine

open ConditionalText.Files

/-- One unit of work. -/
inductive Job where
  /-- A file to be printed. -/
  | print (source : Path)
  | file (source output : Path)
  | directory (source output : Path)
  deriving DecidableEq, Repr

/-- Why no jobs could be planned. -/
inductive PlanError where
  | outDirRequired
  | noFileName (input : Path)
  deriving DecidableEq, Repr

def PlanError.message : PlanError → String
  | .outDirRequired => "--out-dir is required when preprocessing directories or multiple inputs"
  | .noFileName input => "Input has no file name: " ++ String.ofList input

namespace Job

/-- The job of an input when there is an output directory. -/
def ofInput (tree : FileTree) (outDir : Path) (single : Bool) (input : Path) :
    Except PlanError Job :=
  match input.fileName? with
  | none => .error (.noFileName input)
  | some name =>
    if tree.isDirectory input then
      .ok (.directory input (if single then outDir else outDir.join name))
    else .ok (.file input (outDir.join name))

/-- The jobs of a run. -/
def plan (o : Options) (tree : FileTree) : Except PlanError (List Job) :=
  match o.outDir with
  | some outDir => o.inputs.mapM (ofInput tree outDir (o.inputs.length == 1))
  | none =>
    match o.inputs with
    | [input] => if tree.isDirectory input then .error .outDirRequired else .ok [.print input]
    | _ => .error .outDirRequired

/-- Does a job: what came of it, and the text to be printed if there is one. -/
def execute (s : Setup) : Job → Action (Summary × Option Text)
  | .print source => do
    let (_, out) ← Action.ofExcept (s.processText (← get) source)
    return (Setup.summaryOf out, some out.text)
  | .file source output => return (← s.processFile source output, none)
  | .directory source output => return (← s.processDirectory source output, none)

end Job

/-- What a run came to. -/
structure Outcome where
  summary : Summary
  /-- The text of a file that was to be printed. -/
  stdout : Option Text
  deriving DecidableEq, Repr

namespace Outcome

def empty : Outcome := ⟨.empty, none⟩

/-- The outcome with that of one more job. -/
def add (o : Outcome) : Except FileError (Summary × Option Text) → Outcome
  | .ok (summary, stdout) => ⟨o.summary.merge summary, stdout.or o.stdout⟩
  | .error e => { o with summary := o.summary.addError e.message }

end Outcome

/-- Does jobs one after another. -/
def runJobs (s : Setup) (o : Outcome) : List Job → StateM FileTree Outcome
  | [] => return { o with summary := o.summary.sortErrors }
  | job :: more => do
    let result ← (job.execute s).run
    runJobs s (o.add result) more

/-- Plans the jobs of a run and does them. -/
def run (o : Options) (vars : List (ByteArray × ByteArray)) (tree : FileTree) :
    Except PlanError Outcome × FileTree :=
  match Job.plan o tree with
  | .error e => (.error e, tree)
  | .ok jobs =>
    let (outcome, tree) := (runJobs ⟨o.environment vars, o.config⟩ .empty jobs).run tree
    (.ok outcome, tree)

end ConditionalText.CommandLine
