import ConditionalText.Cuts
import ConditionalText.Proofs.Text.Bytes

/-!
# What cutting leaves of a text

`Leaves offset spans t rest` says that a text `t`, which starts at a byte offset of some larger
text, falls apart at the spans and that `rest` is `t` without them. It is built from left to right
as preprocessing goes, by text that is kept (`Leaves.keep`) and by text that is cut
(`Leaves.cut`), and then read from the spans alone:

* `Leaves.extractAll_keptFrom`: the spans between the cuts give exactly `rest`.
* `Leaves.total_add`: what is cut and what is left have the length of the text.
* `Ordered.offsets_keptFrom`: the offsets that are kept are those that no cut covers; all it takes
  is that the cuts are in order.
* `Leaves.map_bytes_offsets`: read in order, they hold the bytes of `rest`.
-/

namespace ConditionalText

open ConditionalText.Text

namespace Cuts

/-- Cutting spans out of a text that starts at a byte offset leaves a text. -/
inductive Leaves : Nat → List Span → Text → Text → Prop
  | nil (offset : Nat) (t : Text) : Leaves offset [] t t
  | cons {offset : Nat} {s : Span} {spans : List Span} {t rest : Text} (a b : Text)
      (start_eq : s.start = offset + byteLength a) (stop_eq : s.stop = s.start + byteLength b)
      (nonempty : b ≠ []) (more : Leaves s.stop spans t rest) :
      Leaves offset (s :: spans) (a ++ (b ++ t)) (a ++ rest)

variable {offset : Nat} {spans : List Span} {t rest : Text}

/-! ## From left to right -/

/-- Text that is kept. -/
theorem Leaves.keep (h : Leaves offset spans t rest) (u : Text) :
    Leaves offset spans (t ++ u) (rest ++ u) := by
  induction h with
  | nil offset t => exact .nil offset (t ++ u)
  | cons a b hstart hstop hb _ ih =>
    simp only [List.append_assoc]
    exact .cons a b hstart hstop hb ih

/-- The end of a text with a cut in it, seen from the cut. -/
theorem add_byteLength_of_cut {s : Span} {a b : Text} (hstart : s.start = offset + byteLength a)
    (hstop : s.stop = s.start + byteLength b) (t : Text) :
    offset + byteLength (a ++ (b ++ t)) = s.stop + byteLength t := by
  rw [byteLength_append, byteLength_append]
  omega

theorem byteLength_of_cut {s : Span} {before a b : Text} (hbefore : byteLength before = offset)
    (hstart : s.start = offset + byteLength a) (hstop : s.stop = s.start + byteLength b) :
    byteLength (before ++ a ++ b) = s.stop := by
  rw [byteLength_append, byteLength_append]
  omega

/-- Text that is cut. If it follows a cut directly, the two become one. -/
theorem Leaves.addSpan (h : Leaves offset spans t rest) {u : Text} (hu : u ≠ []) :
    Leaves offset
      (Cuts.addSpan ⟨offset + byteLength t, offset + byteLength t + byteLength u⟩ spans)
      (t ++ u) rest := by
  induction h with
  | nil offset t =>
    have h : Leaves offset [⟨offset + byteLength t, offset + byteLength t + byteLength u⟩]
        (t ++ (u ++ [])) (t ++ []) := .cons t u rfl rfl hu (.nil _ [])
    simpa only [List.append_nil, Cuts.addSpan] using h
  | @cons offset s spans t rest a b hstart hstop hb more ih =>
    have happend : a ++ (b ++ t) ++ u = a ++ (b ++ (t ++ u)) := by simp only [List.append_assoc]
    rw [add_byteLength_of_cut hstart hstop, happend]
    cases spans with
    | cons r spans => exact .cons a b hstart hstop hb ih
    | nil =>
      by_cases ht : t = []
      · subst ht
        cases more
        have h : Leaves offset [⟨s.start, s.stop + 0 + byteLength u⟩] (a ++ (b ++ u ++ []))
            (a ++ []) := by
          refine .cons a (b ++ u) hstart ?_ (by simp [hu]) (.nil _ [])
          rw [byteLength_append, hstop, Nat.add_zero, Nat.add_assoc]
        simpa [Cuts.addSpan] using h
      · have hapart : s.stop ≠ s.stop + byteLength t := by
          have := byteLength_pos ht
          omega
        rw [Cuts.addSpan, if_neg hapart]
        exact .cons a b hstart hstop hb ih

/-- Text that is cut, or no text at all. -/
theorem Leaves.cut {c : Cuts} (h : Leaves 0 c.spans t rest) (u : Text) :
    Leaves 0 (c.cut ⟨byteLength t, byteLength t + byteLength u⟩).spans (t ++ u) rest := by
  unfold Cuts.cut
  by_cases hu : u = []
  · subst hu
    rw [if_pos (Span.isEmpty_iff.mpr (Nat.le_refl _)), List.append_nil]
    exact h
  · have hpos := byteLength_pos hu
    rw [if_neg fun h => by have := Span.isEmpty_iff.mp h; simp only at this; omega]
    simpa only [Nat.zero_add] using h.addSpan hu

theorem stop_of_mem_addSpan {s r : Span} (h : r ∈ Cuts.addSpan s spans) :
    r.stop = s.stop ∨ ∃ q ∈ spans, r.stop = q.stop := by
  fun_induction Cuts.addSpan s spans with
  | case1 => exact .inl (List.mem_singleton.mp h ▸ rfl)
  | case2 last htouch => exact .inl (List.mem_singleton.mp h ▸ rfl)
  | case3 last hapart =>
    rcases List.mem_cons.mp h with rfl | h
    · exact .inr ⟨r, List.mem_cons_self, rfl⟩
    · exact .inl (List.mem_singleton.mp h ▸ rfl)
  | case4 first more hmore ih =>
    rcases List.mem_cons.mp h with rfl | h
    · exact .inr ⟨r, List.mem_cons_self, rfl⟩
    · exact (ih h).imp_right fun ⟨q, hq, hstop⟩ => ⟨q, List.mem_cons_of_mem _ hq, hstop⟩

/-- Cutting a span adds no end but its own. -/
theorem stop_of_mem_cut {c : Cuts} {s r : Span} (h : r ∈ (c.cut s).spans) :
    r.stop = s.stop ∨ ∃ q ∈ c.spans, r.stop = q.stop := by
  unfold Cuts.cut at h
  split at h
  · exact .inr ⟨r, h, rfl⟩
  · exact stop_of_mem_addSpan h

/-! ## What is left -/

/-- A span of its own stands before every cut and at the end, if empty ones do not count. -/
theorem flatMap_keptFrom_nil {α : Type} {f : Span → List α}
    (hf : ∀ s : Span, s.isEmpty = true → f s = []) (offset length : Nat) :
    (keptFrom offset length []).flatMap f = f ⟨offset, length⟩ := by
  rw [keptFrom]
  split
  · simp
  · next h => rw [hf _ (Span.isEmpty_iff.mpr (Nat.not_lt.mp h))]; rfl

theorem flatMap_keptFrom_cons {α : Type} {f : Span → List α}
    (hf : ∀ s : Span, s.isEmpty = true → f s = []) (offset length : Nat) (s : Span)
    (spans : List Span) :
    (keptFrom offset length (s :: spans)).flatMap f =
      f ⟨offset, s.start⟩ ++ (keptFrom s.stop length spans).flatMap f := by
  rw [keptFrom]
  split
  · simp
  · next h => rw [hf _ (Span.isEmpty_iff.mpr (Nat.not_lt.mp h))]; rfl

/-- The spans between the cuts give what is left. -/
theorem Leaves.extractAll_keptFrom (h : Leaves offset spans t rest) {before : Text}
    (hbefore : byteLength before = offset) :
    Span.extractAll (keptFrom offset (offset + byteLength t) spans) (before ++ t) = rest := by
  unfold Span.extractAll
  induction h generalizing before with
  | nil offset t =>
    rw [flatMap_keptFrom_nil (Span.extract_of_isEmpty _), Span.extract, ← hbefore]
    simpa only [List.append_nil] using slice_append before t []
  | @cons offset s spans t rest a b hstart hstop hb more ih =>
    have happend : before ++ (a ++ (b ++ t)) = before ++ a ++ b ++ t := by
      simp only [List.append_assoc]
    have hfirst : Span.extract ⟨offset, s.start⟩ (before ++ (a ++ (b ++ t))) = a := by
      rw [Span.extract, hstart, ← hbefore]
      exact slice_append before a (b ++ t)
    rw [flatMap_keptFrom_cons (Span.extract_of_isEmpty _), hfirst,
      add_byteLength_of_cut hstart hstop, happend, ih (byteLength_of_cut hbefore hstart hstop)]

theorem Leaves.remainder_eq {c : Cuts} (h : Leaves 0 c.spans t rest) : c.remainder t = rest := by
  have hrest : Span.extractAll (keptFrom 0 (0 + byteLength t) c.spans) ([] ++ t) = rest :=
    h.extractAll_keptFrom rfl
  rwa [Nat.zero_add, List.nil_append] at hrest

/-- What is cut and what is left have the length of the text. -/
theorem Leaves.total_add (h : Leaves offset spans t rest) :
    Span.total spans + byteLength rest = byteLength t := by
  induction h with
  | nil => exact Nat.zero_add _
  | @cons offset s spans t rest a b hstart hstop hb more ih =>
    simp only [Span.total, Span.length, byteLength_append] at ih ⊢
    omega

/-- If nothing is cut, everything is left. -/
theorem Leaves.eq_of_total_eq_zero (h : Leaves offset spans t rest) (hzero : Span.total spans = 0) :
    rest = t := by
  cases h with
  | nil => rfl
  | @cons offset s spans t rest a b hstart hstop hb more =>
    have hpos := byteLength_pos hb
    simp only [Span.total, Span.length] at hzero
    omega

/-! ## Which offsets are left -/

/-- Whether an offset lies in one of the spans. -/
def covers (spans : List Span) (j : Nat) : Bool :=
  spans.any fun s => s.contains j

theorem covers_cons (s : Span) (spans : List Span) (j : Nat) :
    covers (s :: spans) j = (s.contains j || covers spans j) :=
  List.any_cons

theorem covers_cons_inside {s : Span} {j : Nat} (h : s.start ≤ j ∧ j < s.stop)
    (spans : List Span) : covers (s :: spans) j = true := by
  rw [covers_cons, Span.contains_iff.mpr h, Bool.true_or]

theorem covers_cons_outside {s : Span} {j : Nat} (h : j < s.start ∨ s.stop ≤ j)
    (spans : List Span) : covers (s :: spans) j = covers spans j := by
  rw [covers_cons, Span.contains_eq_false_iff.mpr h, Bool.false_or]

/-- Spans one behind the other from one offset up to another, none of them empty. -/
inductive Ordered : Nat → Nat → List Span → Prop
  | nil {lo hi : Nat} (le : lo ≤ hi) : Ordered lo hi []
  | cons {lo hi : Nat} {s : Span} {spans : List Span} (behind : lo ≤ s.start)
      (nonempty : s.start < s.stop) (more : Ordered s.stop hi spans) : Ordered lo hi (s :: spans)

/-- Cuts of a text are in order. -/
theorem Leaves.ordered (h : Leaves offset spans t rest) :
    Ordered offset (offset + byteLength t) spans := by
  induction h with
  | nil => exact .nil (Nat.le_add_right _ _)
  | cons a b hstart hstop hb _ ih =>
    have hpos := byteLength_pos hb
    rw [add_byteLength_of_cut hstart hstop]
    exact .cons (by omega) (by omega) ih

namespace Ordered

variable {lo hi : Nat}

theorem le (h : Ordered lo hi spans) : lo ≤ hi := by
  induction h with
  | nil hle => exact hle
  | cons hbehind hnonempty _ ih => omega

theorem start_lt_stop (h : Ordered lo hi spans) : ∀ s ∈ spans, s.start < s.stop := by
  induction h with
  | nil => simp
  | cons _ hnonempty _ ih =>
    intro r hr
    rcases List.mem_cons.mp hr with rfl | hr
    · exact hnonempty
    · exact ih r hr

theorem le_of_covers (h : Ordered lo hi spans) {j : Nat} (hj : covers spans j = true) :
    lo ≤ j := by
  induction h with
  | nil => cases hj
  | cons hbehind hnonempty _ ih =>
    rw [covers_cons, Bool.or_eq_true, Span.contains_iff] at hj
    rcases hj with ⟨hj, -⟩ | hj
    · omega
    · have := ih hj
      omega

/-- Before the first span nothing is covered. -/
theorem covers_of_lt (h : Ordered lo hi spans) {j : Nat} (hj : j < lo) : covers spans j = false :=
  Bool.eq_false_iff.mpr fun hcovers => Nat.not_le.mpr hj (h.le_of_covers hcovers)

/-- The offsets that are kept are those that no cut covers. -/
theorem offsets_keptFrom (h : Ordered lo hi spans) :
    (keptFrom lo hi spans).flatMap Span.offsets =
      (List.range' lo (hi - lo)).filter fun j => !covers spans j := by
  induction h with
  | @nil lo hi hle =>
    rw [flatMap_keptFrom_nil Span.offsets_of_isEmpty, Span.offsets, Span.length,
      List.filter_eq_self.mpr]
    intro j _
    rfl
  | @cons lo hi s spans hbehind hnonempty more ih =>
    have hbefore : (List.range' lo (s.start - lo)).filter (fun j => !covers (s :: spans) j) =
        List.range' lo (s.start - lo) := by
      refine List.filter_eq_self.mpr fun j hj => ?_
      have hlt := (List.mem_range'_1.mp hj).2
      rw [covers_cons_outside (by omega), more.covers_of_lt (by omega)]
      rfl
    have hinside : (List.range' s.start s.length).filter (fun j => !covers (s :: spans) j) =
        [] := by
      refine List.filter_eq_nil_iff.mpr fun j hj => ?_
      have hle := List.mem_range'_1.mp hj
      rw [Span.length] at hle
      rw [covers_cons_inside (by omega)]
      exact Bool.false_ne_true
    have hbehindSpan : (List.range' s.stop (hi - s.stop)).filter
        (fun j => !covers (s :: spans) j) =
        (List.range' s.stop (hi - s.stop)).filter fun j => !covers spans j := by
      refine List.filter_congr fun j hj => ?_
      have hle := (List.mem_range'_1.mp hj).1
      rw [covers_cons_outside (by omega)]
    have hstop : s.stop = s.start + s.length := by
      rw [Span.length]
      omega
    have hparts : hi - lo = s.start - lo + (s.length + (hi - s.stop)) := by
      have := more.le
      omega
    rw [flatMap_keptFrom_cons Span.offsets_of_isEmpty, ih, hparts, ← List.range'_append_1,
      ← List.range'_append_1, Nat.add_sub_cancel' hbehind, ← hstop, List.filter_append,
      List.filter_append, hbefore, hinside, hbehindSpan]
    rfl

end Ordered

theorem covers_addSpan {s : Span} (hs : s.start ≤ s.stop) (hspans : ∀ r ∈ spans, r.start ≤ r.stop)
    (j : Nat) : covers (Cuts.addSpan s spans) j = (covers spans j || s.contains j) := by
  fun_induction Cuts.addSpan s spans with
  | case1 => simp only [covers, List.any_cons, List.any_nil, Bool.or_false, Bool.false_or]
  | case2 last htouch =>
    have hlast := hspans last List.mem_cons_self
    rw [covers_cons, covers_cons, Bool.eq_iff_iff]
    simp only [covers, List.any_nil, Bool.or_false, Bool.or_eq_true, Span.contains_iff]
    omega
  | case3 last hapart =>
    simp only [covers, List.any_cons, List.any_nil, Bool.or_false]
  | case4 first more hmore ih =>
    rw [covers_cons, covers_cons, ih fun r hr => hspans r (List.mem_cons_of_mem _ hr),
      Bool.or_assoc]

theorem covers_append (spans others : List Span) (j : Nat) :
    covers (spans ++ others) j = (covers spans j || covers others j) :=
  List.any_append

/-- Cutting a span covers its offsets. -/
theorem Leaves.covers_cut {c : Cuts} (h : Leaves 0 c.spans t rest) (s : Span) (j : Nat) :
    covers (c.cut s).spans j = (covers c.spans j || s.contains j) := by
  unfold Cuts.cut
  by_cases hempty : s.stop ≤ s.start
  · have hnone : s.contains j = false := Span.contains_eq_false_iff.mpr (by omega)
    rw [if_pos (Span.isEmpty_iff.mpr hempty), hnone, Bool.or_false]
  · rw [if_neg (mt Span.isEmpty_iff.mp hempty)]
    exact covers_addSpan (by omega) (fun r hr => Nat.le_of_lt (h.ordered.start_lt_stop r hr)) j

theorem Leaves.offsets_keptFrom (h : Leaves offset spans t rest) :
    (keptFrom offset (offset + byteLength t) spans).flatMap Span.offsets =
      (List.range' offset (byteLength t)).filter fun j => !covers spans j := by
  rw [h.ordered.offsets_keptFrom, Nat.add_sub_cancel_left]

/-- Read in order, the kept offsets hold the bytes of what is left. -/
theorem Leaves.map_bytes_offsets (h : Leaves offset spans t rest) {before : Text}
    (hbefore : byteLength before = offset) :
    ((keptFrom offset (offset + byteLength t) spans).flatMap Span.offsets).map
      (fun j => (Text.bytes (before ++ t))[j]?) = (Text.bytes rest).map some := by
  induction h generalizing before with
  | nil offset t =>
    rw [flatMap_keptFrom_nil Span.offsets_of_isEmpty, Span.offsets, Span.length,
      Nat.add_sub_cancel_left, ← hbefore]
    simpa only [List.append_nil] using map_getElem?_bytes before t []
  | @cons offset s spans t rest a b hstart hstop hb more ih =>
    have happend : before ++ (a ++ (b ++ t)) = before ++ a ++ b ++ t := by
      simp only [List.append_assoc]
    have hfirst : (Span.offsets ⟨offset, s.start⟩).map
        (fun j => (Text.bytes (before ++ (a ++ (b ++ t))))[j]?) = (Text.bytes a).map some := by
      rw [Span.offsets, Span.length, hstart, Nat.add_sub_cancel_left, ← hbefore]
      exact map_getElem?_bytes before a (b ++ t)
    rw [flatMap_keptFrom_cons Span.offsets_of_isEmpty, add_byteLength_of_cut hstart hstop,
      List.map_append, hfirst, happend, ih (byteLength_of_cut hbefore hstart hstop), bytes_append,
      List.map_append]

end Cuts

end ConditionalText
