import ConditionalText.Predicate.Meaning

/-!
# How the comparisons fit together

Equality and the relations are decided by two different readings of two values, each with a
conversion of strings to numbers of its own. They agree because both come down to one order: where
`order?` has an answer, loose equality is the answer "equal" (`looseEquals_of_order?`), and
exchanging the sides turns an answer round (`order?_swap`).

* `looseEquals_comm`, `Value.strictEquals_comm`: equality does not depend on the side.
* `looseEquals_of_strictEquals`: strict equality is the narrower one.
* `holds_relation_mirror`: a relation says the same from the other side, or has no answer on either.
* `comparisons_coherent`: **the comparisons of two values never contradict each other.**
-/

namespace ConditionalText

/-! ## Numbers -/

theorem Number.equals_comm (a b : Number) : a.equals b = b.equals a := by
  rw [Number.equals, Number.equals, Number.order_swap a b]
  cases a.order b with
  | none => rfl
  | some o => cases o <;> rfl

namespace Predicate

variable {a b : Value}

/-! ## Equality -/

theorem Value.strictEquals_comm (a b : Value) : a.strictEquals b = b.strictEquals a := by
  cases a with
  | boolean x =>
    cases b with
    | boolean y => exact BEq.comm
    | number n => rfl
    | string s => rfl
  | number n =>
    cases b with
    | boolean y => rfl
    | number m => exact n.equals_comm m
    | string s => rfl
  | string s =>
    cases b with
    | boolean y => rfl
    | number n => rfl
    | string t => exact BEq.comm

/-- A string beside a number is read alike on either side. -/
theorem looseEquals_comm (a b : Value) : looseEquals a b = looseEquals b a := by
  cases a with
  | boolean x =>
    cases b with
    | boolean y => exact Value.strictEquals_comm (.boolean x) (.boolean y)
    | number n => rfl
    | string s => rfl
  | number n =>
    cases b with
    | boolean y => rfl
    | number m => exact Value.strictEquals_comm (.number n) (.number m)
    | string s => rfl
  | string s =>
    cases b with
    | boolean y => rfl
    | number n => rfl
    | string t => exact Value.strictEquals_comm (.string s) (.string t)

/-- Strictly equal values are of one kind, where nothing is converted. -/
theorem looseEquals_of_strictEquals (h : a.strictEquals b = true) : looseEquals a b = true := by
  cases a with
  | boolean x => cases b <;> exact h
  | number n =>
    cases b with
    | boolean y => exact h
    | number m => exact h
    | string s => cases h
  | string s =>
    cases b with
    | boolean y => exact h
    | number n => cases h
    | string t => exact h

/-! ## Order -/

/-- The order of two strings, which always have one. -/
def orderStrings (s t : Text) : Ordering :=
  if s < t then .lt else if s = t then .eq else .gt

theorem orderStrings_swap (s t : Text) : orderStrings t s = (orderStrings s t).swap := by
  unfold orderStrings
  rcases Std.lt_trichotomy s t with hlt | rfl | hgt
  · have hne : t ≠ s := fun h => List.lt_irrefl s (h ▸ hlt)
    rw [if_pos hlt, if_neg (List.lt_asymm hlt), if_neg hne]
    rfl
  · rw [if_neg (List.lt_irrefl s), if_pos rfl]
    rfl
  · have hne : s ≠ t := fun h => List.lt_irrefl t (h ▸ hgt)
    rw [if_pos hgt, if_neg (List.lt_asymm hgt), if_neg hne]
    rfl

theorem orderStrings_eq_iff (s t : Text) : orderStrings s t = .eq ↔ s = t := by
  unfold orderStrings
  constructor
  · intro h
    split at h
    · cases h
    split at h
    · assumption
    · cases h
  · rintro rfl
    rw [if_neg (List.lt_irrefl s), if_pos rfl]

/-- **Exchanging the sides turns the order round**, and neither gives an order nor takes it away. -/
theorem order?_swap (a b : Value) : order? b a = (order? a b).map (Option.map Ordering.swap) := by
  cases a with
  | boolean x => cases b <;> rfl
  | number n =>
    cases b with
    | boolean y => rfl
    | number m => exact congrArg some (n.order_swap m)
    | string s =>
      simp only [order?, Option.map_map]
      exact congrArg (Option.map · (numeric? s)) (funext fun m => n.order_swap m)
  | string s =>
    cases b with
    | boolean y => rfl
    | number n =>
      simp only [order?, Option.map_map]
      exact congrArg (Option.map · (numeric? s)) (funext fun m => m.order_swap n)
    | string t => exact congrArg (some ∘ some) (orderStrings_swap s t)

/-- **Where two values have an order, they are equal if it says so.** -/
theorem looseEquals_of_order? {o : Option Ordering} (h : order? a b = some o) :
    looseEquals a b = (o == some .eq) := by
  cases a with
  | boolean x => cases b <;> cases h
  | number n =>
    cases b with
    | boolean y => cases h
    | number m =>
      cases h
      rfl
    | string s =>
      obtain ⟨m, hm, rfl⟩ := Option.map_eq_some_iff.mp h
      simp only [looseEquals, hm, Option.any_some]
      exact m.equals_comm n
  | string s =>
    cases b with
    | boolean y => cases h
    | number n =>
      obtain ⟨m, hm, rfl⟩ := Option.map_eq_some_iff.mp h
      simp only [looseEquals, hm, Option.any_some]
      rfl
    | string t =>
      obtain rfl : some (orderStrings s t) = o := Option.some.inj h
      rw [Bool.eq_iff_iff, beq_iff_eq, Option.some_inj, orderStrings_eq_iff]
      exact beq_iff_eq

/-! ## Relations -/

/-- The relation that says the same with its sides exchanged. -/
def Relation.mirror : Relation → Relation
  | .less => .greater
  | .lessEqual => .greaterEqual
  | .greater => .less
  | .greaterEqual => .lessEqual

theorem Relation.holds_mirror (r : Relation) (o : Ordering) :
    r.mirror.holds o.swap = r.holds o := by
  cases r <;> cases o <;> rfl

theorem holds_relation_of_some {o : Option Ordering} (h : order? a b = some o) (r : Relation) :
    (Comparison.relation r).holds a b = .ok (o.any r.holds) := by
  simp only [Comparison.holds, h]

theorem holds_relation_of_none (h : order? a b = none) (r : Relation) :
    (Comparison.relation r).holds a b = .error (.typeMismatch r a.kind b.kind) := by
  simp only [Comparison.holds, h]

/-- A relation has an answer exactly where there is an order, whichever relation it is. -/
theorem exists_order?_of_holds {r : Relation} {answer : Bool}
    (h : (Comparison.relation r).holds a b = .ok answer) : ∃ o, order? a b = some o := by
  cases ho : order? a b with
  | some o => exact ⟨o, rfl⟩
  | none =>
    rw [holds_relation_of_none ho] at h
    cases h

/-- **A relation says the same from the other side**, or has no answer on either. -/
theorem holds_relation_mirror (a b : Value) (r : Relation) :
    (∃ answer, (Comparison.relation r).holds a b = .ok answer ∧
      (Comparison.relation r.mirror).holds b a = .ok answer) ∨
    ((Comparison.relation r).holds a b = .error (.typeMismatch r a.kind b.kind) ∧
      (Comparison.relation r.mirror).holds b a =
        .error (.typeMismatch r.mirror b.kind a.kind)) := by
  have hswap := order?_swap a b
  cases ho : order? a b with
  | none =>
    rw [ho] at hswap
    exact .inr ⟨holds_relation_of_none ho r, holds_relation_of_none hswap r.mirror⟩
  | some o =>
    rw [ho] at hswap
    refine .inl ⟨o.any r.holds, holds_relation_of_some ho r, ?_⟩
    rw [holds_relation_of_some hswap]
    cases o with
    | none => rfl
    | some o => exact congrArg Except.ok (r.holds_mirror o)

/-! ## All comparisons -/

/-- **The comparisons of two values never contradict each other.** -/
theorem comparisons_coherent (a b : Value) :
    (∀ r : Relation,
      (∃ answer, (Comparison.relation r).holds a b = .ok answer ∧
        (Comparison.relation r.mirror).holds b a = .ok answer) ∨
      ((Comparison.relation r).holds a b = .error (.typeMismatch r a.kind b.kind) ∧
        (Comparison.relation r.mirror).holds b a =
          .error (.typeMismatch r.mirror b.kind a.kind))) ∧
    (∃ answer, Comparison.equal.holds a b = .ok answer ∧
      Comparison.equal.holds b a = .ok answer ∧
      Comparison.notEqual.holds a b = .ok (!answer)) ∧
    (∃ answer, Comparison.strictEqual.holds a b = .ok answer ∧
      Comparison.strictEqual.holds b a = .ok answer ∧
      Comparison.strictNotEqual.holds a b = .ok (!answer)) ∧
    (Comparison.strictEqual.holds a b = .ok true → Comparison.equal.holds a b = .ok true) ∧
    ((∃ r answer, (Comparison.relation r).holds a b = .ok answer) →
      ((Comparison.relation .lessEqual).holds a b = .ok true ∧
          (Comparison.relation .greaterEqual).holds a b = .ok true ↔
        Comparison.equal.holds a b = .ok true) ∧
      ¬((Comparison.relation .less).holds a b = .ok true ∧
        Comparison.equal.holds a b = .ok true) ∧
      ¬((Comparison.relation .less).holds a b = .ok true ∧
        (Comparison.relation .greater).holds a b = .ok true) ∧
      ¬(Comparison.equal.holds a b = .ok true ∧
        (Comparison.relation .greater).holds a b = .ok true)) := by
  refine ⟨holds_relation_mirror a b, ⟨looseEquals a b, rfl, ?_, rfl⟩,
    ⟨a.strictEquals b, rfl, ?_, rfl⟩, fun h => ?_, ?_⟩
  · exact congrArg Except.ok (looseEquals_comm b a)
  · exact congrArg Except.ok (Value.strictEquals_comm b a)
  · exact congrArg Except.ok (looseEquals_of_strictEquals (Except.ok.inj h))
  · rintro ⟨r, answer, hanswer⟩
    obtain ⟨o, ho⟩ := exists_order?_of_holds hanswer
    have hequal : Comparison.equal.holds a b = .ok (o == some .eq) :=
      congrArg Except.ok (looseEquals_of_order? ho)
    simp only [hequal, holds_relation_of_some ho, Except.ok.injEq]
    -- one line of the table for every order there can be
    cases o with
    | none => decide
    | some o => cases o <;> decide

/-- A string that reads as a number, blanks and an exponent in it, lies neither below nor above that
number, and so is equal to it. -/
theorem comparisons_coherent_converted :
    (Comparison.relation .lessEqual).holds (.string " 1e1\t".toList)
        (.number (.ofDecimal false 10 0)) = .ok true ∧
      (Comparison.relation .greaterEqual).holds (.string " 1e1\t".toList)
        (.number (.ofDecimal false 10 0)) = .ok true ∧
      Comparison.equal.holds (.string " 1e1\t".toList) (.number (.ofDecimal false 10 0)) =
        .ok true := by
  have ho : order? (.string " 1e1\t".toList) (.number (.ofDecimal false 10 0)) =
      some (some .eq) := by
    decide +kernel
  have hle := holds_relation_of_some ho .lessEqual
  have hge := holds_relation_of_some ho .greaterEqual
  obtain ⟨-, -, -, -, hordered⟩ :=
    comparisons_coherent (.string " 1e1\t".toList) (.number (.ofDecimal false 10 0))
  exact ⟨hle, hge, (hordered ⟨.lessEqual, true, hle⟩).1.mp ⟨hle, hge⟩⟩

end Predicate

end ConditionalText
