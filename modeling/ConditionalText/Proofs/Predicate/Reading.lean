import ConditionalText.Predicate.Reading

/-!
# The steps of reading

What one step of the reading machine comes to, by the text it stands at. `Advance` lists the steps
that go on, so that an invariant of reading is a case analysis with five cases. Blanks are skipped
before every step, so a run does not depend on those its text starts with (`run_append_of_blanks`).
-/

namespace ConditionalText.Predicate

open ConditionalText.Text

/-! ## One step -/

theorem step_operand_not (outer : List Level) (level : Level) (t : Text) :
    step (.operand outer level) ('!' :: t) =
      .next (.operand outer { level with nots := level.nots + 1 }) t :=
  rfl

theorem step_operand_open (outer : List Level) (level : Level) (t : Text) :
    step (.operand outer level) ('(' :: t) = .next (.operand (level :: outer) .start) t :=
  rfl

theorem step_operand {outer : List Level} {level : Level} {t : Text} (hnot : t.head? ≠ some '!')
    (hopen : t.head? ≠ some '(') :
    step (.operand outer level) t =
      match readAtom? t with
      | some (e, rest) => .next (.operator outer (level.supply e)) rest
      | none => .fail (if level.isStart then .expression else .operand) :=
  step.eq_3 t outer level (fun _ h => hnot (congrArg List.head? h))
    (fun _ h => hopen (congrArg List.head? h))

theorem step_operator_of_some {outer : List Level} {chain : Chain} {t rest : Text} {op : Operator}
    (h : readOperator? t = some (op, rest)) :
    step (.operator outer chain) t = .next (.operand outer ⟨some (chain, op), 0⟩) rest := by
  simp only [step, h]

theorem step_operator_end {chain : Chain} {t : Text} (h : readOperator? t = none) (ht : t ≠ []) :
    step (.operator [] chain) t = .fail .operatorOrEnd := by
  obtain ⟨c, t, rfl⟩ := List.exists_cons_of_ne_nil ht
  simp only [step, h]

theorem step_operator_close (level : Level) (outer : List Level) (chain : Chain) (t : Text) :
    step (.operator (level :: outer) chain) (')' :: t) =
      .next (.operator outer (level.supply chain.assemble)) t :=
  rfl

theorem step_operator_cons {level : Level} {outer : List Level} {chain : Chain} {t : Text}
    (h : readOperator? t = none) (hclose : t.head? ≠ some ')') :
    step (.operator (level :: outer) chain) t = .fail .operator := by
  simp only [step, h]
  split
  · next hmatch => cases hmatch
  · next hmatch => cases hmatch
  · exact absurd rfl hclose
  · rfl

/-- The steps that go on. -/
inductive Advance : State → Text → State → Text → Prop
  | negation (outer : List Level) (level : Level) (rest : Text) :
      Advance (.operand outer level) ('!' :: rest)
        (.operand outer { level with nots := level.nots + 1 }) rest
  | opening (outer : List Level) (level : Level) (rest : Text) :
      Advance (.operand outer level) ('(' :: rest) (.operand (level :: outer) .start) rest
  | atom (outer : List Level) (level : Level) {t rest : Text} {e : Expr}
      (read : readAtom? t = some (e, rest)) :
      Advance (.operand outer level) t (.operator outer (level.supply e)) rest
  | operator (outer : List Level) (chain : Chain) {t rest : Text} {op : Operator}
      (read : readOperator? t = some (op, rest)) :
      Advance (.operator outer chain) t (.operand outer ⟨some (chain, op), 0⟩) rest
  | closing (level : Level) (outer : List Level) (chain : Chain) (rest : Text) :
      Advance (.operator (level :: outer) chain) (')' :: rest)
        (.operator outer (level.supply chain.assemble)) rest

theorem advance_of_step {s s' : State} {t rest : Text} (h : step s t = .next s' rest) :
    Advance s t s' rest := by
  cases s with
  | operand outer level =>
    by_cases hnot : t.head? = some '!'
    · obtain ⟨u, rfl⟩ := List.head?_eq_some_iff.mp hnot
      cases h
      exact .negation outer level _
    by_cases hopen : t.head? = some '('
    · obtain ⟨u, rfl⟩ := List.head?_eq_some_iff.mp hopen
      cases h
      exact .opening outer level _
    rw [step_operand hnot hopen] at h
    cases hread : readAtom? t with
    | none =>
      rw [hread] at h
      cases h
    | some found =>
      rw [hread] at h
      cases h
      exact .atom outer level hread
  | operator outer chain =>
    cases hread : readOperator? t with
    | some found =>
      rw [step_operator_of_some hread] at h
      cases h
      exact .operator outer chain hread
    | none =>
      cases outer with
      | nil =>
        by_cases ht : t = []
        · subst ht
          cases h
        · rw [step_operator_end hread ht] at h
          cases h
      | cons level outer =>
        by_cases hclose : t.head? = some ')'
        · obtain ⟨u, rfl⟩ := List.head?_eq_some_iff.mp hclose
          cases h
          exact .closing level outer chain _
        · rw [step_operator_cons hread hclose] at h
          cases h

/-- Reading is done at the end of the text, outside all parentheses. -/
theorem eq_operator_of_step_eq_done {s : State} {t : Text} {e : Expr} (h : step s t = .done e) :
    ∃ chain, s = .operator [] chain ∧ t = [] ∧ e = chain.assemble := by
  cases s with
  | operand outer level =>
    simp only [step] at h
    split at h
    · cases h
    · cases h
    · split at h
      · cases h
      · cases h
  | operator outer chain =>
    simp only [step] at h
    split at h
    · cases h
    · split at h
      · cases h
        exact ⟨chain, rfl, rfl, rfl⟩
      all_goals cases h

/-- Where an expression or an operand was expected, an operand was due. -/
theorem eq_operand_of_step_eq_fail {s : State} {t : Text} {expected : Expected}
    (h : step s t = .fail expected) (hexpected : expected = .expression ∨ expected = .operand) :
    ∃ outer level, s = .operand outer level := by
  cases s with
  | operand outer level => exact ⟨outer, level, rfl⟩
  | operator outer chain =>
    simp only [step] at h
    split at h
    · cases h
    · split at h
      · cases h
      · cases h
        simp at hexpected
      · cases h
      · cases h
        simp at hexpected

/-- Where an operator was expected, an operand had been read. -/
theorem eq_operator_of_step_eq_fail {s : State} {t : Text} {expected : Expected}
    (h : step s t = .fail expected)
    (hexpected : expected = .operatorOrEnd ∨ expected = .operator) :
    ∃ outer chain, s = .operator outer chain := by
  cases s with
  | operator outer chain => exact ⟨outer, chain, rfl⟩
  | operand outer level =>
    simp only [step] at h
    split at h
    · cases h
    · cases h
    · split at h
      · cases h
      · obtain rfl := Step.fail.inj h
        split at hexpected
        · simp at hexpected
        · simp at hexpected

/-! ## A run -/

theorem run_of_step {s s' : State} {t rest : Text} (hblank : skipSpaces t = t)
    (h : step s t = .next s' rest) : run s t = run s' rest := by
  rw [run_eq, hblank, h]

/-- A run skips the blanks that its text starts with. -/
theorem run_append_of_blanks (s : State) {blanks : Text} (h : ∀ c ∈ blanks, isSpaceOrTab c = true)
    (t : Text) : run s (blanks ++ t) = run s t := by
  have hskip : skipSpaces (blanks ++ t) = skipSpaces t := List.dropWhile_append_of_pos h
  rw [run_eq, run_eq s t, hskip]

theorem parse_eq_ok_iff {t : Text} {e : Expr} :
    parse t = .ok e ↔ run (.operand [] .start) t = .ok e := by
  unfold parse
  cases run (.operand [] .start) t with
  | ok e' =>
    constructor
    · intro h
      cases h
      rfl
    · intro h
      cases h
      rfl
  | error f =>
    constructor
    · intro h
      cases h
    · intro h
      cases h

theorem exists_run_of_parse_eq_error {t : Text} {e : SyntaxError} (h : parse t = .error e) :
    ∃ f, run (.operand [] .start) t = .error f ∧ e = f.locate t := by
  unfold parse at h
  cases hrun : run (.operand [] .start) t with
  | ok result =>
    rw [hrun] at h
    cases h
  | error f =>
    rw [hrun] at h
    exact ⟨f, rfl, (Except.error.inj h).symm⟩

end ConditionalText.Predicate
