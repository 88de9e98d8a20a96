import ConditionalText.CommandLine.Jobs
import ConditionalText.Proofs.Files.Path
import Mathlib.Data.List.Basic

/-!
# Where the jobs of a plan write

With an output directory every input becomes a job, and unless it is a directory on its own the
job's output is named after the last component of the input. So the outputs are told apart by the
names of the inputs, whatever directories these stand in.

* `plan_outputs_nodup_iff`: **the outputs are pairwise different exactly if the names of the inputs
  are.**
* `plan_outputs_collide`: two files of one name in two directories are given the same output, and
  only one of them is found there after the run.
-/

namespace ConditionalText

open Files

namespace Files.Path

/-- Different relative paths stay different below a path. -/
theorem join_inj {p a b : Path} (ha : isAbsolute a = false) (hb : isAbsolute b = false) :
    p.join a = p.join b ↔ a = b := by
  refine ⟨fun h => ?_, fun h => by rw [h]⟩
  unfold join at h
  rw [ha, hb, Bool.false_or] at h
  split at h
  · exact h
  · split at h
    · exact List.append_cancel_left h
    · exact (List.cons.inj (List.append_cancel_left h)).2

theorem join_fileName?_inj (p a b : Path) :
    a.fileName?.map p.join = b.fileName?.map p.join ↔ a.fileName? = b.fileName? := by
  cases ha : a.fileName? with
  | none => cases b.fileName? <;> simp
  | some name =>
    cases hb : b.fileName? with
    | none => simp
    | some name' =>
      rw [Option.map_some, Option.map_some, Option.some_inj, Option.some_inj]
      exact join_inj (isAbsolute_of_noSlash (not_mem_of_fileName? ha))
        (isAbsolute_of_noSlash (not_mem_of_fileName? hb))

end Files.Path

namespace CommandLine

namespace Job

/-- What a job reads. -/
def source : Job → Path
  | .print source => source
  | .file source _ => source
  | .directory source _ => source

/-- Where a job writes, if it does. -/
def output? : Job → Option Path
  | .print _ => none
  | .file _ output => some output
  | .directory _ output => some output

variable {tree : FileTree} {outDir : Path} {inputs : List Path} {jobs : List Job}

theorem source_of_ofInput {single : Bool} {input : Path} {job : Job}
    (h : ofInput tree outDir single input = .ok job) : job.source = input := by
  unfold ofInput at h
  split at h
  · cases h
  · split at h
    · cases h
      rfl
    · cases h
      rfl

theorem output?_of_ofInput {input : Path} {job : Job}
    (h : ofInput tree outDir false input = .ok job) :
    job.output? = input.fileName?.map outDir.join := by
  unfold ofInput at h
  split at h
  · cases h
  · next name hname =>
    rw [hname]
    split at h
    · cases h
      rfl
    · cases h
      rfl

/-- Whatever is known of the job of every input is known of all jobs. -/
theorem map_eq_of_mapM {α : Type} {single : Bool} {ofJob : Job → α} {ofPath : Path → α}
    (hone : ∀ input job, ofInput tree outDir single input = .ok job → ofJob job = ofPath input)
    (h : inputs.mapM (ofInput tree outDir single) = .ok jobs) :
    jobs.map ofJob = inputs.map ofPath := by
  induction inputs generalizing jobs with
  | nil =>
    cases h
    rfl
  | cons input inputs ih =>
    rw [List.mapM_cons] at h
    cases hjob : ofInput tree outDir single input with
    | error e =>
      rw [hjob] at h
      cases h
    | ok job =>
      cases hmore : inputs.mapM (ofInput tree outDir single) with
      | error e =>
        rw [hjob, hmore] at h
        cases h
      | ok more =>
        rw [hjob, hmore] at h
        cases h
        rw [List.map_cons, List.map_cons, hone input job hjob, ih hmore]

end Job

variable {o : Options} {outDir : Path} {tree : FileTree} {jobs : List Job}

/-- **The outputs of a plan are told apart by the names of the inputs.** Every input has its job,
and the outputs are pairwise different exactly if the names of the inputs are. -/
theorem plan_outputs_nodup_iff (hout : o.outDir = some outDir) (h : Job.plan o tree = .ok jobs) :
    jobs.map Job.source = o.inputs ∧
      ((jobs.map Job.output?).Nodup ↔ (o.inputs.map Path.fileName?).Nodup) := by
  rw [Job.plan, hout] at h
  have hsources : jobs.map Job.source = o.inputs := by
    rw [Job.map_eq_of_mapM (fun _ _ => Job.source_of_ofInput) h, List.map_id']
  refine ⟨hsources, ?_⟩
  by_cases hsingle : o.inputs.length = 1
  · -- one input has one output
    have hlength : jobs.length = 1 := by rw [← hsingle, ← hsources, List.length_map]
    obtain ⟨input, hinput⟩ := List.length_eq_one_iff.mp hsingle
    obtain ⟨job, hjob⟩ := List.length_eq_one_iff.mp hlength
    rw [hinput, hjob]
    exact iff_of_true (List.pairwise_singleton _ _) (List.pairwise_singleton _ _)
  · rw [beq_false_of_ne hsingle] at h
    rw [Job.map_eq_of_mapM (fun _ _ => Job.output?_of_ofInput) h]
    simp only [List.Nodup, List.pairwise_map, ne_eq, Path.join_fileName?_inj]

/-- Two files of one name in two directories. -/
def twinTree : FileTree where
  nodes := .ofList
    [(["a".toList], .directory), (["a".toList, "x.js".toList], .file (.text "1".toList)),
     (["b".toList], .directory), (["b".toList, "x.js".toList], .file (.text "2".toList))]
  current := []

def twinOptions : Options where
  inputs := ["a/x.js".toList, "b/x.js".toList]
  definitions := []
  useProcessVars := false
  outDir := some "out".toList
  sourceMap := false
  sourcesContent := false
  extensions := []
  flatten := false
  debug := false

/-- The two files are given one output. -/
theorem plan_outputs_nodup_iff_twins :
    twinOptions.outDir = some "out".toList ∧
      Job.plan twinOptions twinTree =
        .ok [.file "a/x.js".toList "out/x.js".toList, .file "b/x.js".toList "out/x.js".toList] ∧
      ¬ (twinOptions.inputs.map Path.fileName?).Nodup := by
  refine ⟨rfl, by decide +kernel, fun hnodup => ?_⟩
  have hplan : Job.plan twinOptions twinTree =
      .ok [.file "a/x.js".toList "out/x.js".toList, .file "b/x.js".toList "out/x.js".toList] := by
    decide +kernel
  have houtputs := (plan_outputs_nodup_iff rfl hplan).2.mpr hnodup
  revert houtputs
  decide

/-- **Different files can be given one output.** Both inputs are there, at different places, and
after the run the output directory holds what became of only one of them, without an error. -/
theorem plan_outputs_collide :
    twinTree.locate "a/x.js".toList = .ok ["a".toList, "x.js".toList] ∧
      twinTree.locate "b/x.js".toList = .ok ["b".toList, "x.js".toList] ∧
      Job.plan twinOptions twinTree =
        .ok [.file "a/x.js".toList "out/x.js".toList, .file "b/x.js".toList "out/x.js".toList] ∧
      (run twinOptions [] twinTree).1 = .ok ⟨⟨2, 0, 0, []⟩, none⟩ ∧
      (run twinOptions [] twinTree).2.names ["out".toList] = ["x.js".toList] ∧
      (run twinOptions [] twinTree).2.node? ["out".toList, "x.js".toList] =
        some (.file (.text "2".toList)) := by
  decide +kernel

end CommandLine

end ConditionalText
