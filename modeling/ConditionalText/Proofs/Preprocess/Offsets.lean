import ConditionalText.Proofs.OffsetMap
import ConditionalText.Proofs.Preprocess.Output

/-!
# Where the output of preprocessing comes from

The offset map of an output is the map of the spans between the cuts. What these spans hold is
known from the cuts, so the map can be read without its anchors: an output offset leads to the
offset at its place among those that are kept (`keptOffsets`).

* `Settled.sourceOffset?_eq`: the map as a list, for every offset of the output.
* `offsets_faithful`: **the map leads every byte of the output to the same byte of the source,
  in order, and misses exactly the removed gaps**; the end of the output leads to the end of the
  source.
-/

namespace ConditionalText

open ConditionalText.Text

/-! ## The offsets that are kept -/

/-- The offsets of a text of some length outside the removed spans, in order. -/
def keptOffsets (length : Nat) (removed : List Span) : List Nat :=
  (List.range' 0 length).filter fun j => !Cuts.covers removed j

theorem mem_keptOffsets {length j : Nat} {removed : List Span} :
    j ∈ keptOffsets length removed ↔
      j < length ∧ ∀ s ∈ removed, ¬(s.start ≤ j ∧ j < s.stop) := by
  simp only [keptOffsets, List.mem_filter, List.mem_range'_1, Nat.zero_le, Nat.zero_add, true_and,
    Bool.not_eq_true', Cuts.covers, List.any_eq_false, Span.contains_iff]

theorem keptOffsets_lt_of_lt {length o o' j j' : Nat} {removed : List Span} (hlt : o < o')
    (hj : (keptOffsets length removed)[o]? = some j)
    (hj' : (keptOffsets length removed)[o']? = some j') : j < j' := by
  have hsorted : (keptOffsets length removed).Pairwise (· < ·) :=
    List.Pairwise.filter _ List.pairwise_lt_range'
  obtain ⟨ho, rfl⟩ := List.getElem?_eq_some_iff.mp hj
  obtain ⟨ho', rfl⟩ := List.getElem?_eq_some_iff.mp hj'
  exact List.pairwise_iff_getElem.mp hsorted o o' ho ho' hlt

/-- If the last cut ends before the text, the end of the text is kept. -/
theorem Cuts.lastStop?_keptFrom {offset length : Nat} {spans : List Span}
    (hoffset : offset < length) (hspans : ∀ s ∈ spans, s.stop < length) :
    OffsetMap.lastStop? (Cuts.keptFrom offset length spans) = some length := by
  have hnonempty {s : Span} (h : s.start < s.stop) : ¬s.isEmpty = true :=
    mt Span.isEmpty_iff.mp (Nat.not_le.mpr h)
  induction spans generalizing offset with
  | nil =>
    rw [Cuts.keptFrom, if_pos hoffset,
      OffsetMap.lastStop?_cons_of_not_isEmpty (hnonempty hoffset)]
    rfl
  | cons s spans ih =>
    have hmore := ih (hspans s List.mem_cons_self) fun r hr => hspans r (List.mem_cons_of_mem _ hr)
    rw [Cuts.keptFrom]
    split
    · next h => rw [OffsetMap.lastStop?_cons_of_not_isEmpty (hnonempty h), hmore, Option.some_or]
    · exact hmore

namespace Progress.Settled

variable {c : Cuts} {source rest : Text} {removed : List Span}

theorem offsets_kept (h : Settled c source rest removed) :
    (c.kept (byteLength source)).flatMap Span.offsets =
      keptOffsets (byteLength source) removed := by
  have hoffsets := h.leaves.offsets_keptFrom
  rw [Nat.zero_add] at hoffsets
  rw [Cuts.kept, hoffsets]
  exact List.filter_congr fun j _ => by rw [h.covered]

/-- The kept offsets hold the bytes of the output. -/
theorem map_bytes_keptOffsets (h : Settled c source rest removed) :
    (keptOffsets (byteLength source) removed).map (fun j => (bytes source)[j]?) =
      (bytes rest).map some := by
  have hbytes : (((Cuts.keptFrom 0 (0 + byteLength source) c.spans).flatMap Span.offsets).map
      fun j => (bytes ([] ++ source))[j]?) = (bytes rest).map some := h.leaves.map_bytes_offsets rfl
  rw [Nat.zero_add, List.nil_append] at hbytes
  rwa [← h.offsets_kept]

theorem length_keptOffsets (h : Settled c source rest removed) :
    (keptOffsets (byteLength source) removed).length = byteLength rest := by
  have hlength := congrArg List.length h.map_bytes_keptOffsets
  rwa [List.length_map, List.length_map, length_bytes] at hlength

theorem total_kept (h : Settled c source rest removed) :
    Span.total (c.kept (byteLength source)) = byteLength rest := by
  rw [← Span.length_flatMap_offsets, h.offsets_kept, h.length_keptOffsets]

/-! ## The map -/

/-- Inside the output, the map is the list of the kept offsets. -/
theorem sourceOffset?_eq (h : Settled c source rest removed) {o : Nat} (ho : o < byteLength rest) :
    (OffsetMap.ofSpans (c.kept (byteLength source))).sourceOffset? o =
      (keptOffsets (byteLength source) removed)[o]? := by
  rw [OffsetMap.sourceOffset?_of_lt (by rwa [h.total_kept]), h.offsets_kept]

/-- The byte that an offset leads to. -/
theorem exists_keptOffset (h : Settled c source rest removed) {o : Nat} (ho : o < byteLength rest) :
    ∃ j, (keptOffsets (byteLength source) removed)[o]? = some j ∧
      (bytes source)[j]? = (bytes rest)[o]? := by
  have hbytes := congrArg (fun l => l[o]?) h.map_bytes_keptOffsets
  simp only [List.getElem?_map] at hbytes
  rw [← length_bytes] at ho
  rw [List.getElem?_eq_getElem ho] at hbytes ⊢
  exact Option.map_eq_some_iff.mp hbytes

theorem sourceOffset?_end (h : Settled c source rest removed) (hsource : source ≠ []) :
    (OffsetMap.ofSpans (c.kept (byteLength source))).sourceOffset? (byteLength rest) =
      some (byteLength source) := by
  rw [← h.total_kept, OffsetMap.sourceOffset?_total]
  exact Cuts.lastStop?_keptFrom (byteLength_pos hsource) h.behind

theorem sourceOffset?_of_nil (h : Settled c [] rest removed) :
    (OffsetMap.ofSpans (c.kept (byteLength []))).sourceOffset? 0 = none := by
  have hspans : c.spans = [] :=
    List.eq_nil_iff_forall_not_mem.mpr fun s hs => Nat.not_lt_zero _ (h.behind s hs)
  rw [Cuts.kept, hspans]
  rfl

end Progress.Settled

/-- **The map leads every byte of the output to the same byte of the source, in order, and misses
exactly the removed gaps.** The end of the output leads to the end of the source, if there is
anything in it, and nothing lies behind. -/
theorem offsets_faithful {env : Environment} {source : Text} {out : Output}
    (h : preprocess env source = .ok out) :
    ∃ head ss, Layout source head ss ∧
      out.offsets.outputLength = byteLength out.text ∧
      (∀ o < byteLength out.text, ∃ j, out.offsets.sourceOffset? o = some j ∧
        j < byteLength source ∧ (bytes source)[j]? = (bytes out.text)[o]?) ∧
      (∀ o o' j j', o < o' → o' < byteLength out.text → out.offsets.sourceOffset? o = some j →
        out.offsets.sourceOffset? o' = some j' → j < j') ∧
      (∀ j, (∃ o < byteLength out.text, out.offsets.sourceOffset? o = some j) ↔
        j < byteLength source ∧
          ∀ gap ∈ removedGaps (Predicate.holdsIn env) [] ss, ¬(gap.start ≤ j ∧ j < gap.stop)) ∧
      (source ≠ [] → out.offsets.sourceOffset? (byteLength out.text) = some (byteLength source)) ∧
      (∀ o, byteLength out.text < o → out.offsets.sourceOffset? o = none) ∧
      (source = [] → out.offsets.sourceOffset? 0 = none) := by
  obtain ⟨head, ss, cuts, n, hlayout, -, -, hsettled, hout⟩ := preprocess_eq_ok h
  have htext : out.text = head ++ keptAfter (Predicate.holdsIn env) [] ss := by
    rw [hout]
    exact hsettled.remainder_eq
  have hoffsets : out.offsets = .ofSpans (cuts.kept (byteLength source)) := by rw [hout]
  rw [← htext] at hsettled
  rw [hoffsets]
  refine ⟨head, ss, hlayout, hsettled.total_kept, fun o ho => ?_,
    fun o o' j j' hlt ho' hj hj' => ?_, fun j => ⟨?_, fun hj => ?_⟩, hsettled.sourceOffset?_end,
    fun o ho => ?_, fun hsource => ?_⟩
  · obtain ⟨j, hj, hbyte⟩ := hsettled.exists_keptOffset ho
    have hmem := mem_keptOffsets.mp (List.mem_of_getElem? hj)
    exact ⟨j, (hsettled.sourceOffset?_eq ho).trans hj, hmem.1, hbyte⟩
  · rw [hsettled.sourceOffset?_eq (Nat.lt_trans hlt ho')] at hj
    rw [hsettled.sourceOffset?_eq ho'] at hj'
    exact keptOffsets_lt_of_lt hlt hj hj'
  · rintro ⟨o, ho, hj⟩
    rw [hsettled.sourceOffset?_eq ho] at hj
    exact mem_keptOffsets.mp (List.mem_of_getElem? hj)
  · obtain ⟨o, ho⟩ := List.mem_iff_getElem?.mp (mem_keptOffsets.mpr hj)
    have hlt : o < byteLength out.text :=
      hsettled.length_keptOffsets ▸ (List.getElem?_eq_some_iff.mp ho).1
    exact ⟨o, hlt, (hsettled.sourceOffset?_eq hlt).trans ho⟩
  · exact OffsetMap.sourceOffset?_of_gt (by rwa [hsettled.total_kept])
  · subst hsource
    exact hsettled.sourceOffset?_of_nil

/-- Behind a removed line the map goes on with the directive that follows it. -/
theorem offsets_faithful_disabled :
    ∃ out, preprocess (Table.ofList []) "//#if false\nb\n//#endif\n".toList = .ok out ∧
      out.offsets.sourceOffset? 11 = some 14 ∧
      out.offsets.sourceOffset? (byteLength out.text) = some 23 ∧
      out.offsets.sourceOffset? 21 = none := by
  have h : preprocess (Table.ofList []) "//#if false\nb\n//#endif\n".toList =
      .ok ⟨"//#if false//#endif\n".toList, ⟨[⟨0, 0⟩, ⟨11, 14⟩], 20⟩, 3⟩ := by decide +kernel
  obtain ⟨head, ss, -, -, -, -, -, hend, hbehind, -⟩ := offsets_faithful h
  exact ⟨_, h, by decide +kernel, hend (by decide +kernel), hbehind 21 (by decide +kernel)⟩

end ConditionalText
