import ConditionalText.Directive.Nesting

/-!
# Directives that fail

`apply` assigns the fields of a state one by one and fails in the middle of its work, so what a
failure leaves behind is not clear from its form. `after` has no state to leave: where the two come
to the same, a failure has left everything alone.

* `execM_bind`, `execM_ask_bind`, `execM_innermostM_bind`: work on a state, step by step.
* `execM_applyM`: **applying a directive in place comes to the state after it, or leaves the one
  before**, whatever effects the answers have.
* `applyAll_accepted`: a run that goes on behind every failure ends where the run of the directives
  that succeeded ends.
* `apply_failure_keeps_state`: both together.
-/

namespace ConditionalText.Nesting

section Effects

variable {m : Type → Type} [Monad m] {α β : Type}

/-! ## Work on a state -/

/-- What work on a state comes to, and the state it leaves. -/
def execM (a : ExceptT SourceError (StateT Nesting m) α) (n : Nesting) :
    m (Except SourceError α × Nesting) :=
  a.run.run n

@[simp] theorem execM_pure (x : α) (n : Nesting) :
    execM (pure x : ExceptT SourceError (StateT Nesting m) α) n = pure (.ok x, n) := rfl

@[simp] theorem execM_throw (e : SourceError) (n : Nesting) :
    execM (throw e : ExceptT SourceError (StateT Nesting m) α) n = pure (.error e, n) := rfl

theorem execM_bind (a : ExceptT SourceError (StateT Nesting m) α)
    (f : α → ExceptT SourceError (StateT Nesting m) β) (n : Nesting) :
    execM (a >>= f) n = execM a n >>= fun
      | (.ok x, n') => execM (f x) n'
      | (.error e, n') => pure (.error e, n') := by
  rw [execM, ExceptT.run_bind, StateT.run_bind]
  refine bind_congr fun r => ?_
  obtain ⟨_ | x, n'⟩ := r
  · rfl
  · rfl

variable [LawfulMonad m]

@[simp] theorem execM_get (n : Nesting) :
    execM (get : ExceptT SourceError (StateT Nesting m) Nesting) n = pure (.ok n, n) := by
  change (Except.ok <$> (get : StateT Nesting m Nesting)).run n = _
  simp

@[simp] theorem execM_modify (f : Nesting → Nesting) (n : Nesting) :
    execM (modify f : ExceptT SourceError (StateT Nesting m) PUnit) n = pure (.ok (), f n) := by
  change (Except.ok <$> (modify f : StateT Nesting m PUnit)).run n = _
  simp

/-- Asking leaves the state alone. -/
theorem execM_ask_bind (answer : Text → m (Except Predicate.Error Bool)) (d : Directive)
    (f : Bool → ExceptT SourceError (StateT Nesting m) α) (n : Nesting) :
    execM (ExceptT.mk (StateT.lift (askM answer d)) >>= f) n =
      askM answer d >>= fun
        | .ok holds => execM (f holds) n
        | .error e => pure (.error e, n) := by
  rw [execM_bind]
  change (do let r ← askM answer d; pure (r, n)) >>= _ = _
  rw [bind_assoc]
  refine bind_congr fun r => ?_
  rw [pure_bind]
  cases r with
  | error e => rfl
  | ok holds => rfl

/-- So does looking for the innermost block. -/
theorem execM_innermostM_bind (d : Directive)
    (f : Block → ExceptT SourceError (StateT Nesting m) α) (n : Nesting) :
    execM (innermostM d >>= f) n =
      match n.blocks with
      | [] => pure (.error (.unexpectedDirective d.tag d.span.start), n)
      | block :: _ => execM (f block) n := by
  rw [execM_bind, innermostM, execM_bind, execM_get, pure_bind]
  dsimp only
  cases n.blocks with
  | nil => rw [execM_throw, pure_bind]
  | cons block outer => rw [execM_pure, pure_bind]

/-! ## One directive -/

/-- What is left in the place of a state: the next one, or after a failure the one before. -/
def settle (n : Nesting) : Except SourceError Nesting → Except SourceError Unit × Nesting
  | .ok next => (.ok (), next)
  | .error e => (.error e, n)

theorem settle_map_ask (answer : Text → m (Except Predicate.Error Bool)) (d : Directive)
    (f : Bool → Nesting) (n : Nesting) :
    n.settle <$> (do return (← askM answer d).map f) =
      askM answer d >>= fun
        | .ok holds => pure (.ok (), f holds)
        | .error e => pure (.error e, n) := by
  rw [map_bind]
  refine bind_congr fun r => ?_
  rw [map_pure]
  cases r with
  | error e => rfl
  | ok holds => rfl

/-- **Applying a directive in place comes to the state after it, or leaves the one before**: in
every branch the assignments stand behind the last thing that can fail. -/
theorem execM_applyM (answer : Text → m (Except Predicate.Error Bool)) (n : Nesting)
    (d : Directive) : execM (applyM answer d) n = n.settle <$> n.afterM answer d := by
  obtain ⟨blocks, enabled, matched⟩ := n
  unfold applyM afterM
  cases htag : d.tag with
  | ifTag =>
    simp only [execM_ask_bind, settle_map_ask]
    simp only [execM_bind, execM_modify, pure_bind]
  | elifTag =>
    simp only [execM_innermostM_bind, htag]
    cases blocks with
    | nil => simp only [map_pure, settle]
    | cons block outer =>
      simp only [execM_bind, execM_get, pure_bind]
      cases matched with
      | true => simp only [if_true, execM_modify, map_pure, settle]
      | false =>
        simp only [Bool.false_eq_true, if_false, execM_ask_bind, settle_map_ask]
        simp only [execM_bind, execM_modify, pure_bind]
  | elseTag =>
    simp only [execM_innermostM_bind, htag]
    cases blocks with
    | nil => simp only [map_pure, settle]
    | cons block outer => simp only [execM_modify, map_pure, settle]
  | endifTag =>
    simp only [execM_innermostM_bind, htag]
    cases blocks with
    | nil => simp only [map_pure, settle]
    | cons block outer =>
      simp only [execM_bind, execM_modify, pure_bind, map_pure, settle, List.tail_cons]

end Effects

theorem run_apply (answer : Decider) (n : Nesting) (d : Directive) :
    (apply answer d).run.run n = n.settle (n.after answer d) :=
  execM_applyM (m := Id) answer n d

theorem eq_of_settle_eq_error {n n' : Nesting} {result : Except SourceError Nesting}
    {e : SourceError} (h : n.settle result = (.error e, n')) : n' = n := by
  cases result with
  | error e' => exact (Prod.mk.inj h).2.symm
  | ok next => cases h

/-! ## Many directives -/

/-- Applies directives one after another, each with its own decider, and goes on behind those that
fail; what came of each. -/
def applyEach : List (Directive × Decider) → StateM Nesting (List (Except SourceError Unit))
  | [] => return []
  | (d, answer) :: more => do
    let result ← (apply answer d).run
    let results ← applyEach more
    return result :: results

/-- Applies directives one after another, each with its own decider, up to the first that fails. -/
def applyAll : List (Directive × Decider) → ExceptT SourceError (StateM Nesting) Unit
  | [] => return ()
  | (d, answer) :: more => do
    apply answer d
    applyAll more

/-- The directives that succeeded, given what came of each. -/
def accepted (steps : List (Directive × Decider)) (results : List (Except SourceError Unit)) :
    List (Directive × Decider) :=
  (steps.zip results).filterMap fun (step, result) => if result.isOk then some step else none

theorem run_applyEach_cons (d : Directive) (answer : Decider) (more : List (Directive × Decider))
    (n : Nesting) :
    (applyEach ((d, answer) :: more)).run n =
      match n.settle (n.after answer d) with
      | (result, n') =>
        (result :: ((applyEach more).run n').1, ((applyEach more).run n').2) := by
  rw [← run_apply]
  rfl

theorem run_applyAll_cons_of_ok {d : Directive} {answer : Decider} {n next : Nesting}
    (h : n.after answer d = .ok next) (more : List (Directive × Decider)) :
    (applyAll ((d, answer) :: more)).run.run n = (applyAll more).run.run next := by
  have hrun : execM (m := Id) (apply answer d) n = (.ok (), next) :=
    (run_apply answer n d).trans (by rw [h, settle])
  change execM (m := Id) (apply answer d >>= fun _ => applyAll more) n = _
  rw [execM_bind, hrun]
  rfl

/-- **A run that goes on behind every failure ends where the run of the directives that succeeded
ends**, and in that run none of them fails. -/
theorem applyAll_accepted (steps : List (Directive × Decider)) (n : Nesting) :
    (applyAll (accepted steps ((applyEach steps).run n).1)).run.run n =
      (.ok (), ((applyEach steps).run n).2) := by
  induction steps generalizing n with
  | nil => rfl
  | cons step more ih =>
    obtain ⟨d, answer⟩ := step
    rw [run_applyEach_cons]
    cases hafter : n.after answer d with
    | error e =>
      -- the failure is left out, and the run goes on from the same state
      exact ih n
    | ok next =>
      exact (run_applyAll_cons_of_ok hafter _).trans (ih next)

/-- **A directive that fails leaves the state as it was**, whatever its tag, its predicate and the
state are, and whatever the decider does to a state of its own. So a run that goes on behind every
failure ends in the state, at the depth and with the check at the end of the run of those directives
that succeeded. -/
theorem apply_failure_keeps_state :
    (∀ (σ : Type) (answer : Text → StateM σ (Except Predicate.Error Bool)) (d : Directive)
      (n n' : Nesting) (s s' : σ) (e : SourceError),
      ((applyM answer d).run.run n).run s = ((.error e, n'), s') → n' = n) ∧
    ∀ (steps : List (Directive × Decider)) (n : Nesting),
      let ended := ((applyEach steps).run n).2
      let succeeded := accepted steps ((applyEach steps).run n).1
      ((applyAll succeeded).run.run n).1 = .ok () ∧
        ((applyAll succeeded).run.run n).2 = ended ∧
        ((applyAll succeeded).run.run n).2.depth = ended.depth ∧
        ((applyAll succeeded).run.run n).2.checkClosed = ended.checkClosed := by
  constructor
  · intro σ answer d n n' s s' e h
    have hrun : ((applyM answer d).run.run n).run s =
        (n.settle ((n.afterM answer d).run s).1, ((n.afterM answer d).run s).2) := by
      have heq := congrArg (fun x => x.run s) (execM_applyM answer n d)
      exact heq.trans (StateT.run_map ..)
    rw [hrun] at h
    exact eq_of_settle_eq_error (Prod.mk.inj h).1
  · intro steps n
    simp only [applyAll_accepted, and_self]

/-- A stray `endif` and an `if` without a predicate are passed over. -/
example :
    let yes : Decider := fun _ => .ok true
    let steps := [(⟨.endifTag, none, ⟨0, 8⟩⟩, yes), (⟨.ifTag, some ['t'], ⟨9, 16⟩⟩, yes),
      (⟨.ifTag, none, ⟨17, 22⟩⟩, yes), (⟨.elseTag, none, ⟨23, 30⟩⟩, yes)]
    let run := (applyEach steps).run start
    run.2 = ⟨[⟨true, 9⟩], false, true⟩ ∧
      (accepted steps run.1).map (fun step => step.1.span.start) = [9, 23] := by
  decide

end ConditionalText.Nesting
