import ConditionalText.Preprocess
import ConditionalText.Proofs.Nesting.Run
import ConditionalText.Proofs.Predicate.Lookup

/-!
# Adding variables

A predicate that has an answer keeps it when variables are added. An operand that is evaluated has
all its names defined already; one that is skipped may have new values put in, but stays skipped.
The words `true` and `false` are the exception: they have a value of their own, so they must not
become variables.

* `eval_substitute_of_extendedBy`: the value of an expression, operator by operator.
* `holdsIn_of_extendedBy`: the answer to a predicate.
* `after_of_answers`, `run_of_answers`: a run asks what it asked, and gets the answers it got.
* `preprocess_of_extendedBy`: **adding variables changes no output.**
-/

namespace ConditionalText

open ConditionalText.Text

/-- An environment with further variables, none of them called like a boolean. -/
structure Environment.ExtendedBy (env more : Environment) : Prop where
  keeps : ∀ name value, env.get? name = some value → more.get? name = some value
  fresh : ∀ name, env.get? name = none → more.get? name ≠ none →
    name ≠ "true".toList ∧ name ≠ "false".toList

variable {env more : Environment}

/-- One more variable. -/
theorem Environment.ExtendedBy.insert {name : Text} (hnew : env.get? name = none)
    (htrue : name ≠ "true".toList) (hfalse : name ≠ "false".toList) (value : Text) :
    env.ExtendedBy (env.insert name value) where
  keeps other held hheld := by
    have hne : name ≠ other := by
      rintro rfl
      cases hnew.symm.trans hheld
    rw [Table.get?_insert, if_neg hne, hheld]
  fresh other hnone hsome := by
    by_cases heq : name = other
    · exact heq ▸ ⟨htrue, hfalse⟩
    · rw [Table.get?_insert, if_neg heq] at hsome
      exact absurd hnone hsome

/-! ## Predicates -/

namespace Predicate

theorem bind_eq_ok_iff {α β : Type} {x : Except Error α} {f : α → Except Error β} {b : β} :
    x.bind f = .ok b ↔ ∃ a, x = .ok a ∧ f a = .ok b := by
  cases x <;> simp [Except.bind]

theorem map_eq_ok_iff {α β : Type} {x : Except Error α} {f : α → β} {b : β} :
    x.map f = .ok b ↔ ∃ a, x = .ok a ∧ f a = b := by
  cases x <;> simp [Except.map]

/-- A leaf with a value keeps it, if the word it is written as is no new variable. -/
theorem eval_lookUp_of_extendedBy (h : env.ExtendedBy more) {word : Text} {leaf : Expr} {v : Value}
    (hleaf : env.get? word = none → leaf.eval = .ok v → more.get? word = none)
    (hv : (lookUp env word leaf).eval = .ok v) : (lookUp more word leaf).eval = .ok v := by
  unfold lookUp at hv ⊢
  cases hword : env.get? word with
  | some value =>
    rw [hword] at hv
    rw [h.keeps word value hword]
    exact hv
  | none =>
    rw [hword] at hv
    rw [hleaf hword hv]
    exact hv

/-- **The value of an expression stays when variables are added.** -/
theorem eval_substitute_of_extendedBy (h : env.ExtendedBy more) {e : Expr} {v : Value}
    (hv : (e.substitute env).eval = .ok v) : (e.substitute more).eval = .ok v := by
  induction e generalizing v with
  | literal value =>
    cases value with
    | boolean b =>
      cases b with
      | true =>
        refine eval_lookUp_of_extendedBy h (fun hnone _ => ?_) hv
        by_contra hsome
        exact (h.fresh _ hnone hsome).1 rfl
      | false =>
        refine eval_lookUp_of_extendedBy h (fun hnone _ => ?_) hv
        by_contra hsome
        exact (h.fresh _ hnone hsome).2 rfl
    | number n => exact hv
    | string s => exact hv
  | identifier name =>
    -- an identifier has no value of its own
    exact eval_lookUp_of_extendedBy h (fun _ hleaf => by cases hleaf) hv
  | not e ih =>
    obtain ⟨w, hw, rfl⟩ := map_eq_ok_iff.mp hv
    exact map_eq_ok_iff.mpr ⟨w, ih hw, rfl⟩
  | binary op left right ihl ihr =>
    cases op with
    | or =>
      obtain ⟨w, hw, hright⟩ := bind_eq_ok_iff.mp hv
      refine bind_eq_ok_iff.mpr ⟨w, ihl hw, ?_⟩
      by_cases htrue : w.truthy = true
      · rwa [if_pos htrue] at hright ⊢
      · rw [if_neg htrue] at hright ⊢
        exact ihr hright
    | and =>
      obtain ⟨w, hw, hright⟩ := bind_eq_ok_iff.mp hv
      refine bind_eq_ok_iff.mpr ⟨w, ihl hw, ?_⟩
      by_cases htrue : w.truthy = true
      · rw [if_pos htrue] at hright ⊢
        exact ihr hright
      · rwa [if_neg htrue] at hright ⊢
    | compare c =>
      obtain ⟨w, hw, hrest⟩ := bind_eq_ok_iff.mp hv
      obtain ⟨u, hu, hcompare⟩ := bind_eq_ok_iff.mp hrest
      exact bind_eq_ok_iff.mpr ⟨w, ihl hw, bind_eq_ok_iff.mpr ⟨u, ihr hu, hcompare⟩⟩

theorem evaluate_eq_ok_iff {t : Text} {v : Value} :
    evaluate t = .ok v ↔ ∃ e, parse t = .ok e ∧ e.eval = .ok v := by
  unfold evaluate
  cases parse t <;> simp [Except.mapError, Except.bind]

/-- **A predicate keeps its answer when variables are added.** -/
theorem holdsIn_of_extendedBy (h : env.ExtendedBy more) {t : Text} {holds : Bool}
    (ht : holdsIn env t = .ok holds) : holdsIn more t = .ok holds := by
  obtain ⟨v, hv, rfl⟩ := map_eq_ok_iff.mp ht
  obtain ⟨_, hparse, hvalue⟩ := evaluate_eq_ok_iff.mp hv
  obtain ⟨e, he, rfl⟩ := parse_substitute_eq_ok_iff.mp hparse
  refine map_eq_ok_iff.mpr ⟨v, evaluate_eq_ok_iff.mpr ⟨e.substitute more, ?_, ?_⟩, rfl⟩
  · exact parse_substitute_eq_ok_iff.mpr ⟨e, he, rfl⟩
  · exact eval_substitute_of_extendedBy h hvalue

end Predicate

/-! ## Runs -/

section Runs

variable {answer answer' : Decider}
  (h : ∀ text holds, answer text = .ok holds → answer' text = .ok holds)

include h

/-- A directive that is accepted is accepted with any further answers. -/
theorem Nesting.after_of_answers {n n' : Nesting} {d : Directive}
    (hafter : n.after answer d = .ok n') : n.after answer' d = .ok n' := by
  rw [after_eq_ok_iff] at hafter ⊢
  cases hafter with
  | opened htag hp ha => exact .opened htag hp (h _ _ ha)
  | skipped htag hblocks hm => exact .skipped htag hblocks hm
  | asked htag hblocks hm hp ha => exact .asked htag hblocks hm hp (h _ _ ha)
  | otherwise htag hblocks => exact .otherwise htag hblocks
  | closed htag hblocks => exact .closed htag hblocks

theorem Progress.run_of_answers {p p' : Progress} {items : List Directive.Item}
    (hrun : p.run answer items = .ok p') : p.run answer' items = .ok p' := by
  induction items generalizing p with
  | nil => exact hrun
  | cons item items ih =>
    cases item with
    | error e => cases hrun
    | ok d =>
      rw [Progress.run, Progress.step] at hrun ⊢
      cases hafter : p.nesting.after answer d with
      | error e =>
        rw [hafter] at hrun
        cases hrun
      | ok n =>
        rw [hafter] at hrun
        rw [Nesting.after_of_answers h hafter]
        exact ih hrun

end Runs

/-- **Adding variables changes no output**, as long as neither `true` nor `false` becomes one. -/
theorem preprocess_of_extendedBy {source : Text} {out : Output} (h : env.ExtendedBy more)
    (hout : preprocess env source = .ok out) : preprocess more source = .ok out := by
  unfold preprocess at hout ⊢
  cases hrun : Progress.start.run (Predicate.holdsIn env) (Directive.items source) with
  | error e =>
    rw [hrun] at hout
    cases hout
  | ok p =>
    rw [hrun] at hout
    rw [Progress.run_of_answers (fun _ _ => Predicate.holdsIn_of_extendedBy h) hrun]
    exact hout

/-- A variable that a skipped operand names may be added. -/
theorem preprocess_of_extendedBy_skipped :
    preprocess ((Table.ofList [("A".toList, "1".toList)]).insert "B".toList [])
        "//#if A == 1 || B\nb\n//#endif".toList =
      .ok ⟨"//#if A == 1 || B\nb\n//#endif".toList, ⟨[⟨0, 0⟩], 28⟩, 0⟩ := by
  have h : Environment.ExtendedBy (Table.ofList [("A".toList, "1".toList)])
      ((Table.ofList [("A".toList, "1".toList)]).insert "B".toList []) :=
    .insert (by decide) (by decide) (by decide) []
  exact preprocess_of_extendedBy h (by decide +kernel)

end ConditionalText
