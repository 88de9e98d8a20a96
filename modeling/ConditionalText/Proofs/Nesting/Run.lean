import ConditionalText.Directive.Nesting

/-!
# Runs of directives

`Step` lists everything that an accepted directive can do to the state, so that an invariant of
`after` is a case analysis with five cases and never unfolds it. `afterAll` applies directives one
after another. It is `afterAllM` for answers without effects; with the effect of noting what is
asked (`noting`) a run shows every call of the decider.

* `after_eq_ok_iff`: `after` accepts a directive exactly where there is a `Step`.
* `afterAll_append`: a run may be cut anywhere.
* `afterAllM_noting`: **a run asks the questions of its directives, each once and in order**, and
  noting them does not change the state.
-/

namespace ConditionalText.Nesting

variable {answer : Decider} {n n' : Nesting} {d : Directive}

/-! ## One directive -/

/-- What an accepted directive does to the state. -/
inductive Step (answer : Decider) (n : Nesting) (d : Directive) : Nesting → Prop
  | opened {text : Text} {holds : Bool} (tag : d.tag = .ifTag) (predicate : d.predicate = some text)
      (decided : answer text = .ok holds) :
      Step answer n d ⟨⟨n.enabled, d.span.start⟩ :: n.blocks, n.enabled && holds, holds⟩
  | skipped {block : Block} {outer : List Block} (tag : d.tag = .elifTag)
      (blocks : n.blocks = block :: outer) (matched : n.matched = true) :
      Step answer n d { n with enabled := false }
  | asked {block : Block} {outer : List Block} {text : Text} {holds : Bool} (tag : d.tag = .elifTag)
      (blocks : n.blocks = block :: outer) (unmatched : n.matched = false)
      (predicate : d.predicate = some text) (decided : answer text = .ok holds) :
      Step answer n d { n with enabled := block.outerEnabled && holds, matched := holds }
  | otherwise {block : Block} {outer : List Block} (tag : d.tag = .elseTag)
      (blocks : n.blocks = block :: outer) :
      Step answer n d { n with enabled := block.outerEnabled && !n.matched }
  | closed {block : Block} {outer : List Block} (tag : d.tag = .endifTag)
      (blocks : n.blocks = block :: outer) : Step answer n d ⟨outer, block.outerEnabled, false⟩

theorem ask_eq_ok_iff {holds : Bool} :
    ask answer d = .ok holds ↔ ∃ text, d.predicate = some text ∧ answer text = .ok holds := by
  cases hp : d.predicate with
  | none =>
    have hask : ask answer d = .error (.malformed (.missingPredicate d.tag d.span.start)) := by
      unfold ask askM
      rw [hp]
      rfl
    simp [hask]
  | some text =>
    have hask : ask answer d =
        (answer text).mapError fun cause => .predicate text d.span.start cause := by
      unfold ask askM
      rw [hp]
      rfl
    rw [hask]
    cases ha : answer text with
    | error cause =>
      constructor
      · intro h
        cases h
      · rintro ⟨_, htext, h⟩
        cases htext
        exact nomatch ha.symm.trans h
    | ok held =>
      constructor
      · intro h
        cases h
        exact ⟨text, rfl, ha⟩
      · rintro ⟨_, htext, h⟩
        cases htext
        cases ha.symm.trans h
        rfl

theorem map_ask_eq_ok_iff {f : Bool → Nesting} :
    (ask answer d).map f = .ok n' ↔
      ∃ text holds, d.predicate = some text ∧ answer text = .ok holds ∧ f holds = n' := by
  constructor
  · intro h
    cases hask : ask answer d with
    | error e =>
      rw [hask] at h
      exact absurd h (by simp [Except.map])
    | ok holds =>
      rw [hask] at h
      obtain ⟨text, hp, ha⟩ := ask_eq_ok_iff.mp hask
      exact ⟨text, holds, hp, ha, Except.ok.inj h⟩
  · rintro ⟨text, holds, hp, ha, rfl⟩
    rw [ask_eq_ok_iff.mpr ⟨text, hp, ha⟩]
    rfl

theorem after_ifTag (htag : d.tag = .ifTag) :
    n.after answer d = (ask answer d).map fun holds =>
      ⟨⟨n.enabled, d.span.start⟩ :: n.blocks, n.enabled && holds, holds⟩ := by
  unfold after afterM
  rw [htag]
  rfl

theorem after_elifTag {block : Block} {outer : List Block} (htag : d.tag = .elifTag)
    (hblocks : n.blocks = block :: outer) :
    n.after answer d =
      if n.matched then .ok { n with enabled := false }
      else (ask answer d).map fun holds =>
        { n with enabled := block.outerEnabled && holds, matched := holds } := by
  unfold after afterM
  rw [htag, hblocks]
  rfl

theorem after_elseTag {block : Block} {outer : List Block} (htag : d.tag = .elseTag)
    (hblocks : n.blocks = block :: outer) :
    n.after answer d = .ok { n with enabled := block.outerEnabled && !n.matched } := by
  unfold after afterM
  rw [htag, hblocks]
  rfl

theorem after_endifTag {block : Block} {outer : List Block} (htag : d.tag = .endifTag)
    (hblocks : n.blocks = block :: outer) :
    n.after answer d = .ok ⟨outer, block.outerEnabled, false⟩ := by
  unfold after afterM
  rw [htag, hblocks]
  rfl

/-- Outside all blocks only an `if` is accepted. -/
theorem after_of_blocks_nil (htag : d.tag ≠ .ifTag) (hblocks : n.blocks = []) :
    n.after answer d = .error (.unexpectedDirective d.tag d.span.start) := by
  unfold after afterM
  rw [hblocks]
  cases h : d.tag
  · exact absurd h htag
  all_goals rfl

/-- **`after` accepts a directive exactly where there is a step.** -/
theorem after_eq_ok_iff : n.after answer d = .ok n' ↔ Step answer n d n' := by
  constructor
  · intro h
    cases htag : d.tag with
    | ifTag =>
      rw [after_ifTag htag] at h
      obtain ⟨text, holds, hp, ha, rfl⟩ := map_ask_eq_ok_iff.mp h
      exact .opened htag hp ha
    | elifTag =>
      cases hblocks : n.blocks with
      | nil =>
        rw [after_of_blocks_nil (by rw [htag]; decide) hblocks] at h
        cases h
      | cons block outer =>
        rw [after_elifTag htag hblocks] at h
        cases hm : n.matched with
        | true =>
          rw [if_pos hm] at h
          exact Except.ok.inj h ▸ .skipped htag hblocks hm
        | false =>
          rw [if_neg (by rw [hm]; decide)] at h
          obtain ⟨text, holds, hp, ha, rfl⟩ := map_ask_eq_ok_iff.mp h
          exact .asked htag hblocks hm hp ha
    | elseTag =>
      cases hblocks : n.blocks with
      | nil =>
        rw [after_of_blocks_nil (by rw [htag]; decide) hblocks] at h
        cases h
      | cons block outer =>
        rw [after_elseTag htag hblocks] at h
        exact Except.ok.inj h ▸ .otherwise htag hblocks
    | endifTag =>
      cases hblocks : n.blocks with
      | nil =>
        rw [after_of_blocks_nil (by rw [htag]; decide) hblocks] at h
        cases h
      | cons block outer =>
        rw [after_endifTag htag hblocks] at h
        exact Except.ok.inj h ▸ .closed htag hblocks
  · intro h
    cases h with
    | opened htag hp ha =>
      rw [after_ifTag htag]
      exact map_ask_eq_ok_iff.mpr ⟨_, _, hp, ha, rfl⟩
    | skipped htag hblocks hm => rw [after_elifTag htag hblocks, if_pos hm]
    | asked htag hblocks hm hp ha =>
      rw [after_elifTag htag hblocks, if_neg (by rw [hm]; decide)]
      exact map_ask_eq_ok_iff.mpr ⟨_, _, hp, ha, rfl⟩
    | otherwise htag hblocks => exact after_elseTag htag hblocks
    | closed htag hblocks => exact after_endifTag htag hblocks

/-! ## Many directives -/

section Monadic

variable {m : Type → Type} [Monad m]

/-- The state after directives applied one after another, up to the first that fails, the answers
being given in a monad. -/
def afterAllM (answer : Text → m (Except Predicate.Error Bool)) (n : Nesting) :
    List Directive → m (Except SourceError Nesting)
  | [] => return .ok n
  | d :: more => do
    match ← n.afterM answer d with
    | .error e => return .error e
    | .ok next => next.afterAllM answer more

end Monadic

/-- The state after directives applied one after another, up to the first that fails. -/
def afterAll (answer : Decider) (n : Nesting) (ds : List Directive) : Except SourceError Nesting :=
  afterAllM (m := Id) answer n ds

theorem afterAll_cons (ds : List Directive) :
    n.afterAll answer (d :: ds) = (n.after answer d).bind fun next => next.afterAll answer ds := by
  show (match n.after answer d with
    | Except.error e => Except.error e
    | Except.ok next => next.afterAll answer ds) = _
  cases n.after answer d <;> rfl

/-- A run may be cut anywhere. -/
theorem afterAll_append (ds es : List Directive) :
    n.afterAll answer (ds ++ es) =
      (n.afterAll answer ds).bind fun next => next.afterAll answer es := by
  induction ds generalizing n with
  | nil => rfl
  | cons d ds ih =>
    rw [List.cons_append, afterAll_cons, afterAll_cons]
    cases n.after answer d with
    | error e => rfl
    | ok next => exact ih

theorem afterAll_cons_eq_ok_iff {ds : List Directive} :
    n.afterAll answer (d :: ds) = .ok n' ↔
      ∃ next, n.after answer d = .ok next ∧ next.afterAll answer ds = .ok n' := by
  rw [afterAll_cons]
  cases n.after answer d <;> simp [Except.bind]

theorem afterAll_append_eq_ok_iff {ds es : List Directive} :
    n.afterAll answer (ds ++ es) = .ok n' ↔
      ∃ next, n.afterAll answer ds = .ok next ∧ next.afterAll answer es = .ok n' := by
  rw [afterAll_append]
  cases n.afterAll answer ds <;> simp [Except.bind]

/-! ## What a run asks -/

/-- Answers as `answer` does and notes what is asked. -/
def noting (answer : Decider) (text : Text) : StateM (List Text) (Except Predicate.Error Bool) := do
  modify (· ++ [text])
  return answer text

/-- The questions of a run, in order. -/
def questions (answer : Decider) (n : Nesting) : List Directive → List Text
  | [] => []
  | d :: more =>
    (n.question? d).toList ++
      match n.after answer d with
      | .error _ => []
      | .ok next => next.questions answer more

theorem afterM_noting (log : List Text) :
    (n.afterM (noting answer) d).run log = (n.after answer d, log ++ (n.question? d).toList) := by
  rw [afterM_eq]
  cases hq : n.question? d with
  | none =>
    have hc : n.after (fun _ => .ok false) d = n.after answer d :=
      after_congr fun text h => by rw [hq] at h; cases h
    rw [← hc, Option.toList_none, List.append_nil]
    rfl
  | some text =>
    have hc : n.after (fun _ => answer text) d = n.after answer d :=
      after_congr fun other h => by rw [Option.some.inj (hq.symm.trans h)]
    rw [← hc]
    rfl

/-- **A run asks the questions of its directives, each once and in order**, and noting them does not
change the state. -/
theorem afterAllM_noting (ds : List Directive) (log : List Text) :
    (n.afterAllM (noting answer) ds).run log =
      (n.afterAll answer ds, log ++ n.questions answer ds) := by
  induction ds generalizing n log with
  | nil =>
    rw [questions, List.append_nil]
    rfl
  | cons d ds ih =>
    rw [afterAllM, StateT.run_bind, afterM_noting, afterAll_cons, questions]
    cases n.after answer d with
    | error e =>
      rw [List.append_nil]
      rfl
    | ok next =>
      rw [← List.append_assoc]
      exact ih _

end ConditionalText.Nesting
