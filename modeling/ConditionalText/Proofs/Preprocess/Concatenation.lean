import ConditionalText.Proofs.Preprocess.Faults
import ConditionalText.Proofs.Preprocess.Offsets
import ConditionalText.Proofs.Preprocess.Relocation

/-!
# Preprocessing one text after another

A text that ends with a line and is preprocessed without an error leaves nothing behind: all blocks
are closed, nothing has matched and the text is enabled. So a text that follows it is preprocessed
as if it stood alone, with every offset moved by the length of the first.

* `items_append`: the items of the second text are moved.
* `Settled.append`: what is settled for each text is settled for both, the cuts one after another.
* `keptOffsets_append`: the kept offsets are those of the first text and then those of the second.
* `preprocess_append`: **preprocessing two texts one after another is preprocessing each**, with
  errors at their place in the whole.
-/

namespace ConditionalText

open ConditionalText.Text

/-! ## Items -/

/-- A text that ends where a line ends. -/
def Text.EndsLine (t : Text) : Prop :=
  t = [] ∨ t.getLast? = some '\n'

/-- Behind a text that ends where a line ends, lines start anew. -/
theorem Text.EndsLine.exists_lines {a : Text} (h : a.EndsLine) (b : Text) :
    ∃ earlier, lines a = earlier ++ [[]] ∧ lines (a ++ b) = earlier ++ lines b ∧
      endedLength earlier = byteLength a := by
  rcases h with rfl | h
  · exact ⟨[], rfl, rfl, rfl⟩
  · obtain ⟨body, rfl⟩ := List.getLast?_eq_some_iff.mp h
    refine ⟨lines body, pieces_append '\n' body [], ?_, ?_⟩
    · rw [List.append_assoc]
      exact pieces_append '\n' body b
    · rw [endedLength_lines, byteLength_append]
      rfl

namespace Directive

theorem itemsFrom_append (offset : Nat) (ls ms : List Text) :
    itemsFrom offset (ls ++ ms) =
      itemsFrom offset ls ++ itemsFrom (offset + endedLength ls) ms := by
  induction ls generalizing offset with
  | nil => rfl
  | cons line ls ih =>
    have hoffset : offset + byteLength line + 1 + endedLength ls =
        offset + endedLength (line :: ls) := by
      simp only [endedLength]
      omega
    rw [List.cons_append, itemsFrom, itemsFrom, ih, hoffset, List.append_assoc]

theorem itemsFrom_add (k offset : Nat) (ls : List Text) :
    itemsFrom (offset + k) ls = (itemsFrom offset ls).map (Item.relocate (· + k)) := by
  induction ls generalizing offset with
  | nil => rfl
  | cons line ls ih =>
    have hoffset : offset + k + byteLength line + 1 = offset + byteLength line + 1 + k := by omega
    have hline : ofLine? (offset + k) line = (ofLine? offset line).map (Item.relocate (· + k)) :=
      ofLine?_relocate rfl rfl (by omega)
    rw [itemsFrom, map_itemsFrom_cons, hline, hoffset, ih]

/-- **The items of a text behind another one are moved by its length.** -/
theorem items_append {a : Text} (h : a.EndsLine) (b : Text) :
    items (a ++ b) = items a ++ (items b).map (Item.relocate (· + byteLength a)) := by
  obtain ⟨earlier, ha, hab, hlength⟩ := h.exists_lines b
  have hlast (offset : Nat) : itemsFrom offset [[]] = [] := rfl
  have hb : itemsFrom (0 + byteLength a) (lines b) = _ := itemsFrom_add (byteLength a) 0 (lines b)
  rw [items, hab, itemsFrom_append, hlength, hb, items, ha, itemsFrom_append, hlast,
    List.append_nil]
  rfl

end Directive

/-! ## Cuts -/

namespace Cuts

variable {offset : Nat} {spans : List Span} {t rest : Text}

/-- Text that is kept before everything else. -/
theorem Leaves.keep_before (u : Text) (h : Leaves (offset + byteLength u) spans t rest) :
    Leaves offset spans (u ++ t) (u ++ rest) := by
  cases h with
  | nil => exact .nil offset (u ++ t)
  | cons a b hstart hstop hb more =>
    rw [← List.append_assoc, ← List.append_assoc u]
    refine .cons (u ++ a) b ?_ hstop hb more
    rw [hstart, byteLength_append, Nat.add_assoc]

/-- The cuts of two texts that follow each other. -/
theorem Leaves.append {others : List Span} {t' rest' : Text} (h : Leaves offset spans t rest)
    (h' : Leaves (offset + byteLength t) others t' rest') :
    Leaves offset (spans ++ others) (t ++ t') (rest ++ rest') := by
  induction h with
  | nil offset t => exact h'.keep_before t
  | @cons offset s spans t rest a b hstart hstop hb more ih =>
    rw [add_byteLength_of_cut hstart hstop] at h'
    simp only [List.append_assoc]
    exact .cons a b hstart hstop hb (ih h')

theorem Leaves.relocate (k : Nat) (h : Leaves offset spans t rest) :
    Leaves (offset + k) (spans.map (Span.relocate (· + k))) t rest := by
  induction h with
  | nil offset t => exact .nil (offset + k) t
  | @cons offset s spans t rest a b hstart hstop hb more ih =>
    refine .cons a b ?_ ?_ hb ih
    · simp only [Span.relocate, hstart]
      omega
    · simp only [Span.relocate, hstop]
      omega

theorem covers_relocate (k : Nat) (spans : List Span) (j : Nat) :
    covers (spans.map (Span.relocate (· + k))) (j + k) = covers spans j := by
  rw [covers, List.any_map, covers]
  congr 1
  funext s
  rw [Bool.eq_iff_iff, Function.comp, Span.contains_iff, Span.contains_iff]
  simp only [Span.relocate]
  omega

theorem covers_relocate_of_lt {k j : Nat} (h : j < k) (spans : List Span) :
    covers (spans.map (Span.relocate (· + k))) j = false := by
  rw [covers, List.any_map, List.any_eq_false]
  intro s _
  rw [Function.comp, Span.contains_iff]
  simp only [Span.relocate]
  omega

theorem covers_of_le {spans : List Span} {j : Nat} (h : ∀ s ∈ spans, s.stop ≤ j) :
    covers spans j = false := by
  rw [covers, List.any_eq_false]
  intro s hs
  have := h s hs
  rw [Span.contains_iff]
  omega

theorem total_append (spans others : List Span) :
    Span.total (spans ++ others) = Span.total spans + Span.total others := by
  induction spans with
  | nil => exact (Nat.zero_add _).symm
  | cons s spans ih => rw [List.cons_append, Span.total, Span.total, ih, Nat.add_assoc]

theorem total_relocate (k : Nat) (spans : List Span) :
    Span.total (spans.map (Span.relocate (· + k))) = Span.total spans := by
  induction spans with
  | nil => rfl
  | cons s spans ih =>
    rw [List.map_cons, Span.total, Span.total, ih]
    simp only [Span.length, Span.relocate]
    omega

end Cuts

/-- The kept offsets of two texts are those of the first and then those of the second. -/
theorem keptOffsets_append {m : Nat} {spans : List Span} (h : ∀ s ∈ spans, s.stop ≤ m) (n : Nat)
    (others : List Span) :
    keptOffsets (m + n) (spans ++ others.map (Span.relocate (· + m))) =
      keptOffsets m spans ++ (keptOffsets n others).map (· + m) := by
  have hsecond : List.range' m n = (List.range' 0 n).map (· + m) := by
    have hmap : (List.range' 0 n).map (m + ·) = List.range' (m + 0) n := List.map_add_range' 0 n 1
    simpa only [Nat.add_comm m, Nat.zero_add] using hmap.symm
  unfold keptOffsets
  rw [← List.range'_append_1, Nat.zero_add, List.filter_append, hsecond, List.filter_map]
  refine congrArg₂ (· ++ ·) (List.filter_congr fun j hj => ?_)
    (congrArg _ (List.filter_congr fun j _ => ?_))
  · have hlt := (List.mem_range'_1.mp hj).2
    rw [Cuts.covers_append, Cuts.covers_relocate_of_lt (by omega), Bool.or_false]
  · have hbehind : ∀ s ∈ spans, s.stop ≤ j + m := fun s hs =>
      Nat.le_trans (h s hs) (Nat.le_add_left m j)
    rw [Function.comp, Cuts.covers_append, Cuts.covers_of_le hbehind, Cuts.covers_relocate,
      Bool.false_or]

namespace Progress.Settled

variable {c d both : Cuts} {a b restA restB : Text}

/-- **What is settled for two texts is settled for both together.** -/
theorem append (ha : Settled c a restA c.spans) (hb : Settled d b restB d.spans)
    (hboth : both.spans = c.spans ++ d.spans.map (Span.relocate (· + byteLength a))) :
    Settled both (a ++ b) (restA ++ restB) both.spans := by
  refine ⟨?_, fun _ => rfl, fun s hs => ?_⟩
  · rw [hboth]
    exact ha.leaves.append (hb.leaves.relocate (byteLength a))
  · rw [hboth, List.mem_append] at hs
    rw [byteLength_append]
    rcases hs with hs | hs
    · have := ha.behind s hs
      omega
    · obtain ⟨r, hr, rfl⟩ := List.mem_map.mp hs
      have := hb.behind r hr
      simp only [Span.relocate]
      omega

theorem keptOffsets_both (ha : Settled c a restA c.spans)
    (hboth : both.spans = c.spans ++ d.spans.map (Span.relocate (· + byteLength a))) :
    keptOffsets (byteLength (a ++ b)) both.spans =
      keptOffsets (byteLength a) c.spans ++
        (keptOffsets (byteLength b) d.spans).map (· + byteLength a) := by
  rw [byteLength_append, hboth]
  exact keptOffsets_append (fun s hs => Nat.le_of_lt (ha.behind s hs)) _ _

/-- In the output of the first text the map is that of the first text. -/
theorem sourceOffset?_append_left (ha : Settled c a restA c.spans) (hb : Settled d b restB d.spans)
    (hboth : both.spans = c.spans ++ d.spans.map (Span.relocate (· + byteLength a))) {o : Nat}
    (ho : o < byteLength restA) :
    ∃ j, (OffsetMap.ofSpans (c.kept (byteLength a))).sourceOffset? o = some j ∧
      (OffsetMap.ofSpans (both.kept (byteLength (a ++ b)))).sourceOffset? o = some j := by
  obtain ⟨j, hj, -⟩ := ha.exists_keptOffset ho
  have ho' : o < byteLength (restA ++ restB) := by
    rw [byteLength_append]
    exact Nat.lt_add_right _ ho
  refine ⟨j, (ha.sourceOffset?_eq ho).trans hj, ?_⟩
  rw [(ha.append hb hboth).sourceOffset?_eq ho', ha.keptOffsets_both hboth,
    List.getElem?_append_left (by rwa [ha.length_keptOffsets]), hj]

/-- Behind it the map is that of the second text, moved; so it is at the end. -/
theorem sourceOffset?_append_right (ha : Settled c a restA c.spans)
    (hb : Settled d b restB d.spans)
    (hboth : both.spans = c.spans ++ d.spans.map (Span.relocate (· + byteLength a))) (hne : b ≠ [])
    {o : Nat} (hle : byteLength restA ≤ o) (ho : o ≤ byteLength (restA ++ restB)) :
    ∃ j, (OffsetMap.ofSpans (d.kept (byteLength b))).sourceOffset? (o - byteLength restA) = some j ∧
      (OffsetMap.ofSpans (both.kept (byteLength (a ++ b)))).sourceOffset? o =
        some (j + byteLength a) := by
  have hsettled := ha.append hb hboth
  have hlength := byteLength_append restA restB
  by_cases hend : o = byteLength (restA ++ restB)
  · have hlast : o - byteLength restA = byteLength restB := by omega
    refine ⟨byteLength b, by rw [hlast]; exact hb.sourceOffset?_end hne, ?_⟩
    rw [hend, hsettled.sourceOffset?_end (by simp [hne]), byteLength_append, Nat.add_comm]
  · have hlt : o - byteLength restA < byteLength restB := by omega
    obtain ⟨j, hj, -⟩ := hb.exists_keptOffset hlt
    refine ⟨j, (hb.sourceOffset?_eq hlt).trans hj, ?_⟩
    rw [hsettled.sourceOffset?_eq (by omega), ha.keptOffsets_both hboth,
      List.getElem?_append_right (by rwa [ha.length_keptOffsets]), ha.length_keptOffsets,
      List.getElem?_map, hj]
    rfl

end Progress.Settled

/-! ## Preprocessing -/

section Preprocess

variable {env : Environment} {a b : Text}

theorem movable_of_settled {c : Cuts} {rest : Text} {removed : List Span}
    (h : Progress.Settled c a rest removed) :
    Progress.Movable (· + byteLength a) c.spans where
  strictMono _ _ hlt := Nat.add_lt_add_right hlt _
  apart s hs offset := by
    have := h.behind s hs
    omega

theorem preprocess_append_eq (ha : a.EndsLine) :
    preprocess env (a ++ b) =
      (Progress.start.run (Predicate.holdsIn env) (Directive.items a)).bind fun p =>
        (p.run (Predicate.holdsIn env)
          ((Directive.items b).map (Directive.Item.relocate (· + byteLength a)))).bind fun last =>
            last.finish (a ++ b) := by
  rw [preprocess, Directive.items_append ha, run_append]
  cases Progress.start.run (Predicate.holdsIn env) (Directive.items a) <;> rfl

/-- The cuts of both texts are the cuts of the whole. -/
theorem exists_settled_append {outA outB : Output} (ha : a.EndsLine)
    (hA : preprocess env a = .ok outA) (hB : preprocess env b = .ok outB) :
    ∃ p q whole : Progress, outA = p.output a ∧ outB = q.output b ∧
      preprocess env (a ++ b) = .ok (whole.output (a ++ b)) ∧
      Progress.Settled p.cuts a outA.text p.cuts.spans ∧
      Progress.Settled q.cuts b outB.text q.cuts.spans ∧
      whole.cuts.spans = p.cuts.spans ++ q.cuts.spans.map (Span.relocate (· + byteLength a)) := by
  obtain ⟨p, hrunA, hstartA, hp, hsettledA⟩ := exists_settled_of_preprocess hA
  obtain ⟨q, hrunB, hstartB, hq, hsettledB⟩ := exists_settled_of_preprocess hB
  obtain ⟨whole, hwhole, hend⟩ :=
    (Progress.relocated_of_start hstartA).exists_run (movable_of_settled hsettledA) hrunB
  refine ⟨p, q, whole, hp, hq, ?_, hsettledA, hsettledB, hend.spans⟩
  rw [preprocess_append_eq ha, hrunA]
  change Except.bind (p.run _ _) _ = _
  rw [hwhole]
  exact Progress.finish_of_start (hend.eq_start hstartB)

theorem preprocess_append_of_error {outA : Output} {e : SourceError} (ha : a.EndsLine)
    (hA : preprocess env a = .ok outA) (hB : preprocess env b = .error e) :
    preprocess env (a ++ b) = .error (e.relocate (· + byteLength a)) := by
  obtain ⟨p, hrunA, hstartA, -, hsettledA⟩ := exists_settled_of_preprocess hA
  rw [preprocess_append_eq ha, hrunA]
  exact (Progress.relocated_of_start hstartA).error (movable_of_settled hsettledA) hB (a ++ b)

/-- What goes wrong before the end of the first text goes wrong whatever follows. -/
theorem preprocess_append_of_error_left {e : SourceError} (ha : a.EndsLine)
    (hA : preprocess env a = .error e)
    (he : ∀ openBlocks offset, e ≠ .unterminatedBlock openBlocks offset) :
    preprocess env (a ++ b) = .error e := by
  rw [preprocess_append_eq ha]
  unfold preprocess at hA
  cases hrun : Progress.start.run (Predicate.holdsIn env) (Directive.items a) with
  | error e' =>
    rw [hrun] at hA
    exact hA
  | ok p =>
    -- the run itself goes well, so the error is that of the end
    rw [hrun] at hA
    replace hA : p.finish a = .error e := hA
    unfold Progress.finish Nesting.checkClosed at hA
    cases hblocks : p.nesting.blocks with
    | nil =>
      rw [hblocks] at hA
      cases hA
    | cons block outer =>
      rw [hblocks] at hA
      exact absurd (Except.error.inj hA).symm (he _ _)

end Preprocess

/-- **Preprocessing two texts one after another is preprocessing each**, if the first one ends where
a line ends. The outputs follow each other, and so do the offsets they lead to. An error of the
second text stands behind the first one; an error of the first text stays, unless it is a block left
open, which the second text may close. -/
theorem preprocess_append (env : Environment) {a : Text} (b : Text) (ha : a.EndsLine) :
    (∀ outA, preprocess env a = .ok outA →
      (∀ outB, preprocess env b = .ok outB →
        ∃ out, preprocess env (a ++ b) = .ok out ∧
          out.text = outA.text ++ outB.text ∧
          out.removedBytes = outA.removedBytes + outB.removedBytes ∧
          (∀ o < byteLength outA.text, ∃ j, outA.offsets.sourceOffset? o = some j ∧
            out.offsets.sourceOffset? o = some j) ∧
          (b ≠ [] → ∀ o, byteLength outA.text ≤ o → o ≤ byteLength out.text →
            ∃ j, outB.offsets.sourceOffset? (o - byteLength outA.text) = some j ∧
              out.offsets.sourceOffset? o = some (j + byteLength a))) ∧
      ∀ e, preprocess env b = .error e →
        preprocess env (a ++ b) = .error (e.relocate (· + byteLength a))) ∧
    ∀ e, preprocess env a = .error e →
      (∀ openBlocks offset, e ≠ .unterminatedBlock openBlocks offset) →
        preprocess env (a ++ b) = .error e := by
  refine ⟨fun outA hA => ⟨fun outB hB => ?_, fun e hB => preprocess_append_of_error ha hA hB⟩,
    fun e hA he => preprocess_append_of_error_left ha hA he⟩
  obtain ⟨p, q, whole, hp, hq, hwhole, hsettledA, hsettledB, hspans⟩ :=
    exists_settled_append ha hA hB
  have htext : (whole.output (a ++ b)).text = outA.text ++ outB.text :=
    (hsettledA.append hsettledB hspans).remainder_eq
  refine ⟨whole.output (a ++ b), hwhole, htext, ?_, fun o ho => ?_, fun hne o hle ho => ?_⟩
  · rw [hp, hq]
    change Span.total whole.cuts.spans = Span.total p.cuts.spans + Span.total q.cuts.spans
    rw [hspans, Cuts.total_append, Cuts.total_relocate]
  · rw [hp]
    exact hsettledA.sourceOffset?_append_left hsettledB hspans ho
  · rw [hq]
    rw [htext] at ho
    exact hsettledA.sourceOffset?_append_right hsettledB hspans hne hle ho

/-- A disabled block in the first text moves what the second text leads to, and an error of the
second text; a stray directive in the first text stays one. -/
theorem preprocess_append_disabled :
    ∃ out, preprocess .empty ("//#if false\nb\n//#endif\n".toList ++ "c".toList) = .ok out ∧
      out.text = "//#if false//#endif\nc".toList ∧ out.removedBytes = 3 ∧
      out.offsets.sourceOffset? 20 = some 23 ∧ out.offsets.sourceOffset? 21 = some 24 ∧
      preprocess .empty ("//#if false\nb\n//#endif\n".toList ++ "//#else".toList) =
        .error (.unexpectedDirective .elseTag 23) ∧
      preprocess .empty ("//#endif\n".toList ++ "//#else".toList) =
        .error (.unexpectedDirective .endifTag 0) := by
  have ha : Text.EndsLine "//#if false\nb\n//#endif\n".toList := .inr (by decide)
  have hA : preprocess .empty "//#if false\nb\n//#endif\n".toList =
      .ok ⟨"//#if false//#endif\n".toList, ⟨[⟨0, 0⟩, ⟨11, 14⟩], 20⟩, 3⟩ := by decide +kernel
  have hB : preprocess .empty "c".toList = .ok ⟨"c".toList, ⟨[⟨0, 0⟩], 1⟩, 0⟩ := by decide +kernel
  have hE : preprocess .empty "//#else".toList = .error (.unexpectedDirective .elseTag 0) := by
    decide +kernel
  have hF : preprocess .empty "//#endif\n".toList =
      .error (.unexpectedDirective .endifTag 0) := by
    decide +kernel
  obtain ⟨out, hout, htext, hremoved, -, hright⟩ :=
    ((preprocess_append .empty "c".toList ha).1 _ hA).1 _ hB
  have hlength : byteLength out.text = 21 := by rw [htext]; decide
  obtain ⟨j, hj, hfirst⟩ := hright (by decide) 20 (by decide) (by omega)
  obtain ⟨k, hk, hlast⟩ := hright (by decide) 21 (by decide) (by omega)
  cases hj
  cases hk
  exact ⟨out, hout, htext, hremoved, hfirst, hlast,
    ((preprocess_append .empty "//#else".toList ha).1 _ hA).2 _ hE,
    (preprocess_append .empty "//#else".toList (.inr (by decide))).2 _ hF nofun⟩

end ConditionalText
