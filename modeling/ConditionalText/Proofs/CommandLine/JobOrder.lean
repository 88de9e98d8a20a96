import ConditionalText.CommandLine.Jobs
import ConditionalText.Proofs.CommandLine.Plan
import ConditionalText.Proofs.Files.InStep
import ConditionalText.Proofs.Files.Summary

/-!
# Jobs in any order

Jobs that keep away from each other's outputs can be done in any order: what one of them leaves are
its outputs and directories above them (`Job.execute_writes`), and another one does not notice
(`Job.execute_alike`). So two of them commute (`Job.execute_comm`), and so do all of them.

A source path with a name that no file can have is the exception. It is not found, but for another
reason once the directory is there that the name would stand in (`job_order_matters`).

* `runJobs_perm`: **the order of jobs and the order of their results do not matter.**
-/

namespace ConditionalText.CommandLine

open ConditionalText.Text
open ConditionalText.Files
open ConditionalText.Files.FileTree

/-! ## Jobs on a tree -/

namespace Job

variable {s : Setup} {t t' : FileTree} {a b job : Job}

/-- The places where a job writes: its outputs, or the directory that they stand in. -/
def locations (s : Setup) (t : FileTree) : Job → List Place
  | .print _ => []
  | .file _ output => (output :: s.outputPaths output).map t.target
  | .directory _ output => [t.target output]

/-- A job with an output, and with paths that do not go up. The path of a file that is read has no
name that is too long. -/
def Direct : Job → Prop
  | .print _ => False
  | .file source output =>
    dotDot ∉ source.components ∧ dotDot ∉ output.components ∧
      ∀ c ∈ source.components, byteLength c ≤ maxNameBytes
  | .directory source output => dotDot ∉ source.components ∧ dotDot ∉ output.components

instance : DecidablePred Direct
  | .print _ => inferInstanceAs (Decidable False)
  | .file _ _ => inferInstanceAs (Decidable (_ ∧ _ ∧ _))
  | .directory _ _ => inferInstanceAs (Decidable (_ ∧ _))

/-- Two jobs that keep away from each other's outputs. -/
structure Independent (s : Setup) (t : FileTree) (a b : Job) : Prop where
  outputs : ∀ v ∈ a.locations s t, ∀ w ∈ b.locations s t, Apart v w
  left : ∀ w ∈ b.locations s t, Apart w (t.target a.source)
  right : ∀ v ∈ a.locations s t, Apart v (t.target b.source)

theorem independent_iff :
    Independent s t a b ↔ (∀ v ∈ a.locations s t, ∀ w ∈ b.locations s t, Apart v w) ∧
      (∀ w ∈ b.locations s t, Apart w (t.target a.source)) ∧
      ∀ v ∈ a.locations s t, Apart v (t.target b.source) :=
  ⟨fun ⟨h₁, h₂, h₃⟩ => ⟨h₁, h₂, h₃⟩, fun ⟨h₁, h₂, h₃⟩ => ⟨h₁, h₂, h₃⟩⟩

instance (s : Setup) (t : FileTree) (a b : Job) : Decidable (Independent s t a b) :=
  decidable_of_iff _ independent_iff.symm

theorem Independent.symm (h : Independent s t a b) : Independent s t b a where
  outputs w hw v hv := (h.outputs v hv w hw).symm
  left := h.right
  right := h.left

theorem locations_congr (h : t'.current = t.current) (job : Job) :
    job.locations s t' = job.locations s t := by
  cases job with
  | print source => rfl
  | file source output => exact List.map_congr_left fun p _ => target_congr h p
  | directory source output => rw [locations, locations, target_congr h]

theorem Independent.congr (h : Independent s t a b) (hcurrent : t'.current = t.current) :
    Independent s t' a b := by
  constructor
  · rw [locations_congr hcurrent, locations_congr hcurrent]
    exact h.outputs
  · rw [locations_congr hcurrent, target_congr hcurrent]
    exact h.left
  · rw [locations_congr hcurrent, target_congr hcurrent]
    exact h.right

theorem exec_return (a : Action Summary) (t : FileTree) :
    (do return (← a, none) : Action (Summary × Option Text)).exec t =
      ((a.exec t).1.map (·, none), (a.exec t).2) := by
  rw [Action.exec_bind]
  rcases a.exec t with ⟨e | summary, t'⟩
  · rfl
  · rfl

theorem exec_execute_file (s : Setup) (source output : Path) (t : FileTree) :
    ((file source output).execute s).exec t =
      (((s.processFile source output).exec t).1.map (·, none),
        ((s.processFile source output).exec t).2) :=
  exec_return _ t

theorem exec_execute_directory (s : Setup) (source output : Path) (t : FileTree) :
    ((directory source output).execute s).exec t =
      (((s.processDirectory source output).exec t).1.map (·, none),
        ((s.processDirectory source output).exec t).2) :=
  exec_return _ t

/-- A job writes at its places and below them, and creates directories above them. -/
theorem execute_writes (h : t.WellFormed) (hjob : job.Direct) :
    t.Writes (fun q => ∃ w ∈ job.locations s t, w <+: q)
      (fun q => ∃ w ∈ job.locations s t, q <+: w ∨ w <+: q) ((job.execute s).exec t).2 := by
  cases job with
  | print source => exact hjob.elim
  | file source output =>
    obtain ⟨-, hout, -⟩ := hjob
    rw [exec_execute_file]
    refine (Setup.processFile_writes h
      (forward_of_not_mem (h.node?_origin output) hout)).mono ?_ ?_
    · rintro q ⟨p, hp, rfl⟩
      exact ⟨_, List.mem_map_of_mem (List.mem_cons_of_mem _ hp), List.prefix_refl _⟩
    · rintro q ⟨parent, hparent, hq⟩
      exact ⟨_, List.mem_map_of_mem List.mem_cons_self,
        .inl (hq.trans (target_parent_isPrefix hout hparent))⟩
  | directory source output =>
    rw [exec_execute_directory]
    refine (Setup.processDirectory_writes h hjob.2).mono ?_ ?_
    · exact fun q hq => ⟨_, List.mem_singleton_self _, hq⟩
    · exact fun q hq => ⟨_, List.mem_singleton_self _, hq⟩

/-- A job does not notice what is written elsewhere. -/
theorem execute_alike {ws : List Place} {more : Place → Option Node} (h : InStep ws more t t')
    (hjob : job.Direct) (hsource : ∀ w ∈ ws, Apart w (t.target job.source))
    (houtput : ∀ v ∈ job.locations s t, ∀ w ∈ ws, Apart w v) :
    Alike ws more ((job.execute s).exec t) ((job.execute s).exec t') := by
  cases job with
  | print source => exact hjob.elim
  | file source output =>
    obtain ⟨hpath, hout, hshort⟩ := hjob
    rw [exec_execute_file, exec_execute_file]
    have halike := Setup.InStep.processFile (s := s) h (h.read hpath hsource hshort) hout
      fun p hp => houtput _ (List.mem_map_of_mem hp)
    exact ⟨congrArg (Except.map (·, none)) halike.1, halike.2⟩
  | directory source output =>
    rw [exec_execute_directory, exec_execute_directory]
    have halike := Setup.InStep.processDirectory (s := s) h hjob.1 hjob.2 hsource
      (houtput _ (List.mem_singleton_self _))
    exact ⟨congrArg (Except.map (·, none)) halike.1, halike.2⟩

/-- The directories that work has created above its places. -/
def created (ws : List Place) (t t' : FileTree) (q : Place) : Option Node :=
  if t.node? q = none ∧ t'.node? q = some .directory ∧ ∃ w ∈ ws, q <+: w then some .directory
  else none

/-- Work leaves a tree that is in step with the one it started from. -/
theorem inStep_of_writes {ws : List Place} (h : t.WellFormed)
    (hwrites : t.Writes (fun q => ∃ w ∈ ws, w <+: q) (fun q => ∃ w ∈ ws, q <+: w ∨ w <+: q) t') :
    InStep ws (created ws t t') t t' where
  left := h
  right := hwrites.wellFormed
  current := hwrites.current
  above q := by
    rw [created]
    split
    · next hcreated => exact .inr ⟨rfl, hcreated.2.2⟩
    · exact .inl rfl
  node q hq := by
    rw [created]
    rcases hwrites.node q with hsame | ⟨⟨w, hw, hstarts⟩, -⟩ | ⟨⟨w, hw, habove⟩, hnone, hnew⟩
    · rw [hsame]
      cases hnode : t.node? q with
      | none => simp
      | some node => rfl
    · exact absurd hstarts (hq w hw)
    · have hstarts := habove.resolve_right (hq w hw)
      rw [if_pos ⟨hnone, hnew, w, hw, hstarts⟩, hnone, hnew]
      rfl

/-- Work leaves alone what is apart from its places. -/
theorem eq_of_writes {ws : List Place} {q : Place}
    (hwrites : t.Writes (fun q => ∃ w ∈ ws, w <+: q) (fun q => ∃ w ∈ ws, q <+: w ∨ w <+: q) t')
    (hq : ∀ w ∈ ws, Apart w q) : t'.node? q = t.node? q := by
  rcases hwrites.node q with hsame | ⟨⟨w, hw, hstarts⟩, -⟩ | ⟨⟨w, hw, habove⟩, -⟩
  · exact hsame
  · exact absurd hstarts (hq w hw).1
  · exact (habove.elim (hq w hw).2 (hq w hw).1).elim

/-- What stands below the places of one job is what that job has left there, whichever of two jobs
comes first. -/
theorem eq_below_locations (h : t.WellFormed) (ha : a.Direct) (hb : b.Direct)
    (hindependent : Independent s t a b) {q : Place} (hq : ∃ v ∈ a.locations s t, v <+: q) :
    ((b.execute s).exec ((a.execute s).exec t).2).2.node? q =
      ((a.execute s).exec ((b.execute s).exec t).2).2.node? q := by
  obtain ⟨v, hv, hstarts⟩ := hq
  have hwritesA := execute_writes (s := s) h ha
  have hstepB := inStep_of_writes h (execute_writes (s := s) h hb)
  have hapart : ∀ w ∈ b.locations s t, Apart w q := fun w hw =>
    (hindependent.outputs v hv w hw).symm.of_isPrefix hstarts
  have hlast := execute_writes (s := s) hwritesA.wellFormed hb
  rw [locations_congr hwritesA.current] at hlast
  have halike := execute_alike hstepB ha hindependent.left fun v hv w hw =>
    (hindependent.outputs v hv w hw).symm
  rw [eq_of_writes hlast hapart, halike.2.eq_of_apart hapart]

/-- **Two jobs that keep away from each other's outputs commute.** -/
theorem execute_comm (h : t.WellFormed) (ha : a.Direct) (hb : b.Direct)
    (hindependent : Independent s t a b) :
    ((b.execute s).exec ((a.execute s).exec t).2).1 = ((b.execute s).exec t).1 ∧
      ((a.execute s).exec ((b.execute s).exec t).2).1 = ((a.execute s).exec t).1 ∧
      ((b.execute s).exec ((a.execute s).exec t).2).2 =
        ((a.execute s).exec ((b.execute s).exec t).2).2 := by
  have hwritesA := execute_writes (s := s) h ha
  have hwritesB := execute_writes (s := s) h hb
  have hstepA := inStep_of_writes h hwritesA
  have hstepB := inStep_of_writes h hwritesB
  have halikeB := execute_alike hstepA hb hindependent.right fun v hv w hw =>
    hindependent.outputs w hw v hv
  have halikeA := execute_alike hstepB ha hindependent.left fun v hv w hw =>
    (hindependent.outputs v hv w hw).symm
  refine ⟨halikeB.1, halikeA.1, halikeB.2.right.ext halikeA.2.right ?_ fun q => ?_⟩
  · rw [halikeB.2.current, halikeA.2.current, hwritesB.current, hwritesA.current]
  by_cases hqa : ∃ v ∈ a.locations s t, v <+: q
  · exact eq_below_locations h ha hb hindependent hqa
  by_cases hqb : ∃ w ∈ b.locations s t, w <+: q
  · exact (eq_below_locations h hb ha hindependent.symm hqb).symm
  -- elsewhere both have created directories, if anything
  have hqa' : ∀ v ∈ a.locations s t, ¬ v <+: q := fun v hv hstarts => hqa ⟨v, hv, hstarts⟩
  have hqb' : ∀ w ∈ b.locations s t, ¬ w <+: q := fun w hw hstarts => hqb ⟨w, hw, hstarts⟩
  rw [halikeB.2.node q hqa', hstepB.node q hqb', halikeA.2.node q hqb', hstepA.node q hqa',
    Option.or_assoc, Option.or_assoc]
  congr 1
  rcases hstepA.above q with hA | ⟨hA, -⟩
  · rw [hA, Option.or_none, Option.none_or]
  · rcases hstepB.above q with hB | ⟨hB, -⟩
    · rw [hB, Option.or_none, Option.none_or]
    · rw [hA, hB]

end Job

/-! ## All jobs -/

variable {s : Setup} {t : FileTree} {jobs jobs' : List Job}

/-- Does jobs one after another and gives their results. -/
def executeAll (s : Setup) (t : FileTree) :
    List Job → List (Except FileError (Summary × Option Text)) × FileTree
  | [] => ([], t)
  | job :: more =>
    let (result, t₁) := (job.execute s).exec t
    let (results, t₂) := executeAll s t₁ more
    (result :: results, t₂)

theorem executeAll_cons (s : Setup) (t : FileTree) (job : Job) (more : List Job) :
    executeAll s t (job :: more) =
      (((job.execute s).exec t).1 :: (executeAll s ((job.execute s).exec t).2 more).1,
        (executeAll s ((job.execute s).exec t).2 more).2) := rfl

/-- **Jobs that keep away from each other's outputs can be done in any order.** -/
theorem executeAll_perm (hperm : jobs.Perm jobs') (h : t.WellFormed)
    (hdirect : ∀ job ∈ jobs, job.Direct) (hindependent : jobs.Pairwise (Job.Independent s t)) :
    (executeAll s t jobs').1.Perm (executeAll s t jobs).1 ∧
      (executeAll s t jobs').2 = (executeAll s t jobs).2 := by
  induction hperm generalizing t with
  | nil => exact ⟨.refl _, rfl⟩
  | @cons job jobs jobs' _ ih =>
    have hwrites := Job.execute_writes (s := s) h (hdirect job List.mem_cons_self)
    obtain ⟨hresults, htree⟩ := ih hwrites.wellFormed
      (fun j hj => hdirect j (List.mem_cons_of_mem job hj))
      ((List.pairwise_cons.mp hindependent).2.imp fun hab => hab.congr hwrites.current)
    rw [executeAll_cons, executeAll_cons, htree]
    exact ⟨hresults.cons _, rfl⟩
  | swap a b jobs =>
    obtain ⟨hfirst, hsecond, htree⟩ := Job.execute_comm h (hdirect b List.mem_cons_self)
      (hdirect a (List.mem_cons_of_mem b List.mem_cons_self))
      ((List.pairwise_cons.mp hindependent).1 a List.mem_cons_self)
    simp only [executeAll_cons]
    rw [hfirst, hsecond, htree]
    exact ⟨.swap _ _ _, rfl⟩
  | trans hperm _ ih₁ ih₂ =>
    obtain ⟨hresults₁, htree₁⟩ := ih₁ h hdirect hindependent
    obtain ⟨hresults₂, htree₂⟩ := ih₂ h (fun j hj => hdirect j (hperm.mem_iff.mpr hj))
      (hperm.pairwise hindependent fun hab => hab.symm)
    exact ⟨hresults₂.trans hresults₁, htree₂.trans htree₁⟩

/-! ## Results -/

namespace Outcome

/-- The outcome with its errors sorted. -/
def sorted (o : Outcome) : Outcome :=
  { o with summary := o.summary.sortErrors }

/-- What results come to, in the order in which they arrive. -/
def ofResults (results : List (Except FileError (Summary × Option Text))) : Outcome :=
  (results.foldl add empty).sorted

/-- The summary of a result. -/
def part : Except FileError (Summary × Option Text) → Summary
  | .ok (summary, _) => summary
  | .error e => .ofError e.message

/-- Whether a result has nothing to be printed. -/
def Silent : Except FileError (Summary × Option Text) → Prop
  | .ok (_, stdout) => stdout = none
  | .error _ => True

theorem foldl_add {results : List (Except FileError (Summary × Option Text))}
    (h : ∀ r ∈ results, Silent r) (o : Outcome) :
    results.foldl add o = ⟨(results.map part).foldl Summary.merge o.summary, o.stdout⟩ := by
  induction results generalizing o with
  | nil => rfl
  | cons r results ih =>
    rw [List.foldl_cons, List.map_cons, List.foldl_cons,
      ih fun r hr => h r (List.mem_cons_of_mem _ hr)]
    cases r with
    | error e => rfl
    | ok r =>
      obtain ⟨summary, stdout⟩ := r
      have hstdout : stdout = none := h _ List.mem_cons_self
      subst hstdout
      rfl

/-- Results may arrive in any order if nothing is to be printed. -/
theorem ofResults_perm {results results' : List (Except FileError (Summary × Option Text))}
    (hperm : results.Perm results') (h : ∀ r ∈ results, Silent r) :
    ofResults results = ofResults results' := by
  have h' : ∀ r ∈ results', Silent r := fun r hr => h r (hperm.mem_iff.mpr hr)
  rw [ofResults, ofResults, foldl_add h, foldl_add h', sorted, sorted,
    Summary.sortErrors_foldl_merge (hperm.map part)]

end Outcome

/-- A run notes the results in the order of its jobs. -/
theorem runJobs_eq (s : Setup) (o : Outcome) (t : FileTree) (jobs : List Job) :
    (runJobs s o jobs).run t =
      (((executeAll s t jobs).1.foldl Outcome.add o).sorted, (executeAll s t jobs).2) := by
  induction jobs generalizing o t with
  | nil => rfl
  | cons job jobs ih => exact ih _ _

theorem Job.silent_of_direct {job : Job} (hjob : job.Direct) :
    Outcome.Silent ((job.execute s).exec t).1 := by
  have hmap (r : Except FileError Summary) : Outcome.Silent (r.map (·, none)) := by
    cases r with
    | error e => trivial
    | ok summary => rfl
  cases job with
  | print source => exact hjob.elim
  | file source output =>
    rw [exec_execute_file]
    exact hmap _
  | directory source output =>
    rw [exec_execute_directory]
    exact hmap _

theorem silent_of_mem_executeAll (hdirect : ∀ job ∈ jobs, job.Direct) :
    ∀ r ∈ (executeAll s t jobs).1, Outcome.Silent r := by
  induction jobs generalizing t with
  | nil =>
    intro r hr
    cases hr
  | cons job jobs ih =>
    intro r hr
    rw [executeAll_cons] at hr
    rcases List.mem_cons.mp hr with rfl | hr
    · exact Job.silent_of_direct (hdirect job List.mem_cons_self)
    · exact ih (fun j hj => hdirect j (List.mem_cons_of_mem job hj)) r hr

/-- **The order of jobs and the order of their results do not matter.** For jobs that keep away from
each other's outputs: doing them in any order and noting their results in any order comes to what
the run comes to. -/
theorem runJobs_perm (h : t.WellFormed) (hdirect : ∀ job ∈ jobs, job.Direct)
    (hindependent : jobs.Pairwise (Job.Independent s t)) (hperm : jobs'.Perm jobs)
    {results : List (Except FileError (Summary × Option Text))}
    (hresults : results.Perm (executeAll s t jobs').1) :
    (runJobs s .empty jobs).run t = (.ofResults results, (executeAll s t jobs').2) := by
  obtain ⟨hall, htree⟩ := executeAll_perm hperm.symm h hdirect hindependent
  have hsame : Outcome.ofResults (executeAll s t jobs).1 = .ofResults results :=
    Outcome.ofResults_perm (hall.symm.trans hresults.symm) (silent_of_mem_executeAll hdirect)
  rw [runJobs_eq, htree, ← hsame]
  rfl

/-- A file and a directory with another one. -/
def smallTree : FileTree where
  nodes := .ofList
    [(["a.js".toList], .file (.text "1".toList)), (["d".toList], .directory),
     (["d".toList, "b.js".toList], .file (.text "2".toList))]
  current := []

/-- Two jobs with a directory above their outputs that both create. -/
def sharingJobs : List Job :=
  [.file "a.js".toList "out/a.js".toList, .directory "d".toList "out/d".toList]

theorem runJobs_perm_sharing :
    smallTree.WellFormed ∧ (∀ job ∈ sharingJobs, job.Direct) ∧
      sharingJobs.Pairwise (Job.Independent ⟨.empty, .default⟩ smallTree) ∧
      (runJobs ⟨.empty, .default⟩ .empty sharingJobs).run smallTree =
        (.ofResults (executeAll ⟨.empty, .default⟩ smallTree sharingJobs.reverse).1,
          (executeAll ⟨.empty, .default⟩ smallTree sharingJobs.reverse).2) ∧
      (executeAll ⟨.empty, .default⟩ smallTree sharingJobs.reverse).2.names ["out".toList] =
        ["a.js".toList, "d".toList] := by
  have hdirect : ∀ job ∈ sharingJobs, job.Direct := by decide +kernel
  have hindependent : sharingJobs.Pairwise (Job.Independent ⟨.empty, .default⟩ smallTree) := by
    decide +kernel
  exact ⟨by decide +kernel, hdirect, hindependent,
    runJobs_perm (by decide +kernel) hdirect hindependent (List.reverse_perm _) (.refl _),
    by decide +kernel⟩

/-- A job that creates a directory, and one whose source would stand in it if it could: no file has
so long a name. -/
def longNameJobs : List Job :=
  [.file "a.js".toList "p/a.js".toList,
   .file ("p/".toList ++ List.replicate 256 'n') "q.js".toList]

/-- A source that is missing and one that cannot be are reported differently. -/
theorem summary_errors_ne (p : Path) :
    (([.ok (⟨1, 0, 0, []⟩, none), .error (.read p (.os .nameTooLong))].foldl Outcome.add
        .empty).sorted).summary ≠
      (([.error (.read p (.os .notFound)), .ok (⟨1, 0, 0, []⟩, none)].foldl Outcome.add
        .empty).sorted).summary := by
  intro heq
  have herrors : [FileError.message (.read p (.os .nameTooLong))].mergeSort (fun x y => x ≤ y) =
      [FileError.message (.read p (.os .notFound))].mergeSort fun x y => x ≤ y :=
    congrArg Summary.errors heq
  rw [List.mergeSort_singleton, List.mergeSort_singleton] at herrors
  have hmessage := (String.append_right_inj _).mp (List.cons.inj herrors).1
  exact absurd hmessage (by decide)

/-- **The order can matter.** The jobs keep away from each other's outputs and their paths do not go
up, but the error of the second one depends on whether the first one has been done. -/
theorem job_order_matters :
    smallTree.WellFormed ∧
      (∀ job ∈ longNameJobs, dotDot ∉ job.source.components ∧
        ∀ output ∈ job.output?, dotDot ∉ output.components) ∧
      longNameJobs.Pairwise (Job.Independent ⟨.empty, .default⟩ smallTree) ∧
      ((runJobs ⟨.empty, .default⟩ .empty longNameJobs).run smallTree).1.summary ≠
        ((runJobs ⟨.empty, .default⟩ .empty longNameJobs.reverse).run smallTree).1.summary := by
  refine ⟨by decide +kernel, by decide +kernel, by decide +kernel, fun heq => ?_⟩
  have hgiven : (executeAll ⟨.empty, .default⟩ smallTree longNameJobs).1 =
      [.ok (⟨1, 0, 0, []⟩, none),
       .error (.read ("p/".toList ++ List.replicate 256 'n') (.os .nameTooLong))] := by
    decide +kernel
  have hreversed : (executeAll ⟨.empty, .default⟩ smallTree longNameJobs.reverse).1 =
      [.error (.read ("p/".toList ++ List.replicate 256 'n') (.os .notFound)),
       .ok (⟨1, 0, 0, []⟩, none)] := by
    decide +kernel
  rw [runJobs_eq, runJobs_eq, hgiven, hreversed] at heq
  exact summary_errors_ne _ heq

end ConditionalText.CommandLine
