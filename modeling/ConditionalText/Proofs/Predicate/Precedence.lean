import ConditionalText.Predicate.Reading

/-!
# How a chain is put together

A chain is put together level by level, the tightest operators first (`stage`). An operator that
binds looser than a level keeps the operands on its two sides apart at that level; an operator of the
level itself takes the operand to its right once everything to its left has been joined.

* `stage_append`: below its own level an operator separates.
* `stage_binary`: **at its own level it joins what is left of it with what is right of it.**
* `stage_mono`: a single operand stays what it is.
* `rest_stage_four`: once all levels are joined, one operand is left.
-/

namespace ConditionalText.Predicate

namespace Operator

/-- The place of a level in the order in which levels are joined, the tightest first. -/
def Binding.looseness : Binding → Nat
  | .relation => 1
  | .equality => 2
  | .conjunction => 3
  | .disjunction => 4

/-- The level that is joined after a number of others. -/
def Binding.atPlace : Nat → Binding
  | 0 => .relation
  | 1 => .equality
  | 2 => .conjunction
  | _ => .disjunction

/-- How loosely an operator binds. -/
def looseness (op : Operator) : Nat :=
  op.binding.looseness

theorem Binding.looseness_atPlace {n : Nat} (h : n < 4) : (atPlace n).looseness = n + 1 := by
  match n with
  | 0 | 1 | 2 | 3 => rfl

theorem exists_looseness_eq (op : Operator) :
    ∃ n, n < 4 ∧ op.looseness = n + 1 ∧ op.binding = Binding.atPlace n := by
  unfold looseness
  cases op.binding with
  | relation => exact ⟨0, by decide, rfl, rfl⟩
  | equality => exact ⟨1, by decide, rfl, rfl⟩
  | conjunction => exact ⟨2, by decide, rfl, rfl⟩
  | disjunction => exact ⟨3, by decide, rfl, rfl⟩

end Operator

namespace Chain

variable {level : Operator.Binding} {op : Operator}

/-- Two chains with an operator between them. -/
def append (a : Chain) (op : Operator) (b : Chain) : Chain :=
  ⟨a.first, a.rest ++ (op, b.first) :: b.rest⟩

/-- The chain once all levels up to the given looseness have been joined. -/
def stage : Nat → Chain → Chain
  | 0, c => c
  | n + 1, c => (stage n c).join (Operator.Binding.atPlace n)

theorem assemble_eq (c : Chain) : c.assemble = (stage 4 c).first := rfl

/-! ## One level -/

theorem joinFrom_append_of_ne (hop : op.binding ≠ level) (e f : Expr)
    (rest more : List (Operator × Expr)) :
    joinFrom level e (rest ++ (op, f) :: more) =
      (joinFrom level e rest).append op (joinFrom level f more) := by
  induction rest generalizing e with
  | nil => exact if_neg hop
  | cons next rest ih =>
    obtain ⟨op', operand⟩ := next
    rw [List.cons_append, joinFrom, joinFrom]
    split
    · exact ih _
    · rw [ih]
      rfl

/-- An operator of another level separates. -/
theorem join_append_of_ne (hop : op.binding ≠ level) (a b : Chain) :
    (a.append op b).join level = (a.join level).append op (b.join level) :=
  joinFrom_append_of_ne hop a.first b.first a.rest b.rest

theorem joinFrom_concat {left : Expr} (hop : op.binding = level) (right e : Expr)
    (rest : List (Operator × Expr)) (h : joinFrom level e rest = ⟨left, []⟩) :
    joinFrom level e (rest ++ [(op, right)]) = ⟨.binary op left right, []⟩ := by
  induction rest generalizing e with
  | nil =>
    obtain rfl : e = left := congrArg Chain.first h
    rw [List.nil_append, joinFrom, if_pos hop]
    rfl
  | cons next rest ih =>
    obtain ⟨op', operand⟩ := next
    rw [joinFrom] at h
    rw [List.cons_append, joinFrom]
    split at h
    · next hop' =>
      rw [if_pos hop']
      exact ih _ h
    · cases h

/-- An operator of the level takes the operand on its right. -/
theorem join_append_single {left right : Expr} {a : Chain} (hop : op.binding = level)
    (h : a.join level = ⟨left, []⟩) :
    (a.append op ⟨right, []⟩).join level = ⟨.binary op left right, []⟩ :=
  joinFrom_concat hop right a.first a.rest h

/-! ## All levels -/

/-- A single operand stays what it is. -/
theorem stage_mono {m n : Nat} {c : Chain} {e : Expr} (h : stage m c = ⟨e, []⟩) (hle : m ≤ n) :
    stage n c = ⟨e, []⟩ := by
  induction hle with
  | refl => exact h
  | step _ ih =>
    rw [stage, ih]
    rfl

/-- Below its own level an operator separates. -/
theorem stage_append {n : Nat} (hop : n < op.looseness) (a b : Chain) :
    stage n (a.append op b) = (stage n a).append op (stage n b) := by
  induction n with
  | zero => rfl
  | succ n ih =>
    have hne : op.binding ≠ Operator.Binding.atPlace n := by
      intro h
      obtain ⟨m, hm, hloose, -⟩ := op.exists_looseness_eq
      have hn : op.binding.looseness = n + 1 := by
        rw [h]
        exact Operator.Binding.looseness_atPlace (by omega)
      exact absurd hop (Nat.not_lt.mpr (Nat.le_of_eq hn))
    rw [stage, ih (Nat.lt_of_succ_lt hop), join_append_of_ne hne]
    rfl

/-- **At its own level an operator joins what is left of it with what is right of it.** -/
theorem stage_binary {a b : Chain} {left right : Expr} (hleft : stage op.looseness a = ⟨left, []⟩)
    (hright : stage (op.looseness - 1) b = ⟨right, []⟩) :
    stage op.looseness (a.append op b) = ⟨.binary op left right, []⟩ := by
  obtain ⟨n, -, hn, hbinding⟩ := op.exists_looseness_eq
  rw [hn] at hleft hright ⊢
  rw [Nat.add_sub_cancel] at hright
  rw [stage, stage_append (by rw [hn]; exact Nat.lt_succ_self n), hright]
  exact join_append_single hbinding hleft

/-- Joining a level leaves no operator of it. -/
theorem mem_rest_joinFrom {e : Expr} {rest : List (Operator × Expr)} {p : Operator × Expr}
    (h : p ∈ (joinFrom level e rest).rest) :
    p.1.binding ≠ level ∧ ∃ q ∈ rest, q.1 = p.1 := by
  induction rest generalizing e with
  | nil => cases h
  | cons next rest ih =>
    obtain ⟨op', operand⟩ := next
    rw [joinFrom] at h
    split at h
    · obtain ⟨hne, q, hq, hop⟩ := ih h
      exact ⟨hne, q, List.mem_cons_of_mem _ hq, hop⟩
    · next hother =>
      rcases List.mem_cons.mp h with rfl | h
      · exact ⟨hother, (op', operand), List.mem_cons_self, rfl⟩
      · obtain ⟨hne, q, hq, hop⟩ := ih h
        exact ⟨hne, q, List.mem_cons_of_mem _ hq, hop⟩

theorem lt_looseness_of_mem_stage {n : Nat} {c : Chain} {p : Operator × Expr}
    (h : p ∈ (stage n c).rest) : n < p.1.looseness := by
  induction n generalizing p with
  | zero =>
    obtain ⟨m, -, hloose, -⟩ := p.1.exists_looseness_eq
    omega
  | succ n ih =>
    obtain ⟨hne, q, hq, hop⟩ := mem_rest_joinFrom h
    have hlt := ih hq
    rw [hop] at hlt
    obtain ⟨m, -, hloose, hbinding⟩ := p.1.exists_looseness_eq
    have hm : m ≠ n := by
      rintro rfl
      exact hne hbinding
    omega

/-- **Once all levels are joined, one operand is left.** -/
theorem rest_stage_four (c : Chain) : (stage 4 c).rest = [] := by
  rw [List.eq_nil_iff_forall_not_mem]
  intro p hp
  have hlt := lt_looseness_of_mem_stage hp
  obtain ⟨m, hm, hloose, -⟩ := p.1.exists_looseness_eq
  omega

end Chain

end ConditionalText.Predicate
