import ConditionalText.OffsetMap
import ConditionalText.Proofs.Text.Bytes

/-!
# Looking up offsets

The map of spans put one after another, read back: an output offset leads to the offset that stands
at its place when the offsets of the spans are written in one list. The last anchor before an offset
is the one of the span it lies in, because the anchor of the next span lies behind it.

* `sourceOffset?_of_lt`: inside the output, for spans of any kind and order.
* `sourceOffset?_total`: at its end, the end of the last span that is not empty.
* `sourceOffset?_of_gt`: behind it, nothing.
* `pieces_ofSpans`: the pieces of the output are the spans again, each where it has been put.
* `consecutive_placedFrom`: they fill the output from end to end.
* `ofSpans_faithful`: **the map of any spans**, its anchors, pieces and look-ups together.
-/

namespace ConditionalText.OffsetMap

open ConditionalText.Text

/-- The end of the last span that is not empty. -/
def lastStop? (spans : List Span) : Option Nat :=
  (spans.filter fun s => !s.isEmpty).getLast?.map Span.stop

/-- The source offset that anchors give: in step from the last anchor before it. -/
def locate? (anchors : List Anchor) (o : Nat) : Option Nat :=
  (anchors.takeWhile fun b => b.output ≤ o).getLast?.map fun b => b.source + (o - b.output)

theorem locate?_cons_of_le {b : Anchor} {o : Nat} (h : b.output ≤ o) (anchors : List Anchor) :
    locate? (b :: anchors) o = (locate? anchors o).or (some (b.source + (o - b.output))) := by
  unfold locate?
  rw [List.takeWhile_cons_of_pos (by simpa using h), List.getLast?_cons]
  cases (anchors.takeWhile fun b => b.output ≤ o).getLast? <;> rfl

/-- Before its first anchor an output has no offsets. -/
theorem locate?_anchorsFrom_of_lt {output o : Nat} (h : o < output) (spans : List Span) :
    locate? (anchorsFrom output spans) o = none := by
  induction spans with
  | nil => rfl
  | cons s spans ih =>
    rw [anchorsFrom]
    split
    · exact ih
    · unfold locate?
      rw [List.takeWhile_cons_of_neg (by simpa using h)]
      rfl

/-- Inside the output, an offset stands at its place in the list of all offsets. -/
theorem locate?_anchorsFrom {output o : Nat} {spans : List Span} (hle : output ≤ o)
    (hlt : o < output + Span.total spans) :
    locate? (anchorsFrom output spans) o = (spans.flatMap Span.offsets)[o - output]? := by
  induction spans generalizing output with
  | nil =>
    exact absurd hlt (Nat.not_lt.mpr hle)
  | cons s spans ih =>
    rw [Span.total] at hlt
    rw [anchorsFrom, List.flatMap_cons]
    by_cases hempty : s.isEmpty = true
    · have hzero := (Span.length_eq_zero_iff s).mpr hempty
      rw [if_pos hempty, Span.offsets_of_isEmpty s hempty, List.nil_append]
      exact ih hle (by omega)
    · rw [if_neg hempty, locate?_cons_of_le hle]
      by_cases hin : o < output + s.length
      · rw [locate?_anchorsFrom_of_lt hin, Option.none_or, Span.offsets,
          List.getElem?_append_left (by rw [List.length_range']; omega),
          List.getElem?_range' (by omega), Nat.one_mul]
      · have hplace : locate? (anchorsFrom (output + s.length) spans) o =
            (spans.flatMap Span.offsets)[o - (output + s.length)]? := ih (by omega) (by omega)
        obtain ⟨j, hj⟩ : ∃ j, (spans.flatMap Span.offsets)[o - (output + s.length)]? = some j :=
          ⟨_, List.getElem?_eq_getElem (by rw [Span.length_flatMap_offsets]; omega)⟩
        rw [hplace, hj, Option.some_or, List.getElem?_append_right, Span.offsets,
          List.length_range', Nat.sub_sub, hj]
        rw [Span.offsets, List.length_range']
        omega

theorem lastStop?_cons_of_isEmpty {s : Span} (h : s.isEmpty = true) (spans : List Span) :
    lastStop? (s :: spans) = lastStop? spans := by
  rw [lastStop?, List.filter_cons_of_neg (by simpa using h)]
  rfl

theorem lastStop?_cons_of_not_isEmpty {s : Span} (h : ¬s.isEmpty = true) (spans : List Span) :
    lastStop? (s :: spans) = (lastStop? spans).or (some s.stop) := by
  unfold lastStop?
  rw [List.filter_cons_of_pos (by simpa using h), List.getLast?_cons]
  cases (spans.filter fun s => !s.isEmpty).getLast? <;> rfl

/-- Spans without a last one have no offsets. -/
theorem total_eq_zero_of_lastStop? {spans : List Span} (h : lastStop? spans = none) :
    Span.total spans = 0 := by
  induction spans with
  | nil => rfl
  | cons s spans ih =>
    by_cases hempty : s.isEmpty = true
    · rw [lastStop?_cons_of_isEmpty hempty] at h
      rw [Span.total, ih h, (Span.length_eq_zero_iff s).mpr hempty]
    · rw [lastStop?_cons_of_not_isEmpty hempty, Option.or_eq_none_iff] at h
      cases h.2

/-- At the end of the output an offset stands at the end of the last span. -/
theorem locate?_anchorsFrom_total (output : Nat) (spans : List Span) :
    locate? (anchorsFrom output spans) (output + Span.total spans) = lastStop? spans := by
  induction spans generalizing output with
  | nil => rfl
  | cons s spans ih =>
    rw [anchorsFrom, Span.total, ← Nat.add_assoc]
    by_cases hempty : s.isEmpty = true
    · rw [if_pos hempty, (Span.length_eq_zero_iff s).mpr hempty, Nat.add_zero, ih,
        lastStop?_cons_of_isEmpty hempty]
    · rw [if_neg hempty, locate?_cons_of_le (by simp only; omega), ih,
        lastStop?_cons_of_not_isEmpty hempty]
      cases hlast : lastStop? spans with
      | some stop => rfl
      | none =>
        have hzero := total_eq_zero_of_lastStop? hlast
        have hlt : ¬s.stop ≤ s.start := mt Span.isEmpty_iff.mpr hempty
        simp only [Option.none_or, Option.some.injEq, Span.length]
        omega

/-! ## The map of spans -/

variable {spans : List Span} {o : Nat}

theorem sourceOffset?_ofSpans (h : o ≤ Span.total spans) :
    (ofSpans spans).sourceOffset? o = locate? (anchorsFrom 0 spans) o :=
  if_neg (Nat.not_lt.mpr h)

/-- **Inside the output** an offset stands at its place in the list of all offsets. -/
theorem sourceOffset?_of_lt (h : o < Span.total spans) :
    (ofSpans spans).sourceOffset? o = (spans.flatMap Span.offsets)[o]? := by
  rw [sourceOffset?_ofSpans (Nat.le_of_lt h),
    locate?_anchorsFrom (Nat.zero_le o) (by rwa [Nat.zero_add]), Nat.sub_zero]

/-- **At the end of the output** it stands at the end of the last span. -/
theorem sourceOffset?_total :
    (ofSpans spans).sourceOffset? (Span.total spans) = lastStop? spans := by
  rw [sourceOffset?_ofSpans (Nat.le_refl _), ← locate?_anchorsFrom_total 0, Nat.zero_add]

/-- **Behind the output** there is nothing. -/
theorem sourceOffset?_of_gt (h : Span.total spans < o) : (ofSpans spans).sourceOffset? o = none :=
  if_pos h

/-! ## Pieces -/

/-- The spans that are not empty as pieces of an output, one after another from an output offset
on. -/
def placedFrom (output : Nat) : List Span → List Piece
  | [] => []
  | s :: more =>
    if s.isEmpty then placedFrom output more
    else ⟨⟨output, output + s.length⟩, s⟩ :: placedFrom (output + s.length) more

/-- The next anchor stands where the output has been reached, and so does the end if there is
none. -/
theorem head?_anchorsFrom (output : Nat) (spans : List Span) :
    ((anchorsFrom output spans).head?.map Anchor.output).getD (output + Span.total spans) =
      output := by
  induction spans with
  | nil => rfl
  | cons s spans ih =>
    rw [anchorsFrom, Span.total]
    by_cases hempty : s.isEmpty = true
    · rw [if_pos hempty, (Span.length_eq_zero_iff s).mpr hempty, Nat.zero_add]
      exact ih
    · rw [if_neg hempty]
      rfl

theorem piecesTo_anchorsFrom (output : Nat) (spans : List Span) :
    piecesTo (output + Span.total spans) (anchorsFrom output spans) = placedFrom output spans := by
  induction spans generalizing output with
  | nil => rfl
  | cons s spans ih =>
    rw [anchorsFrom, Span.total, placedFrom]
    by_cases hempty : s.isEmpty = true
    · rw [if_pos hempty, if_pos hempty, (Span.length_eq_zero_iff s).mpr hempty, Nat.zero_add]
      exact ih output
    · have hlt : ¬s.stop ≤ s.start := mt Span.isEmpty_iff.mpr hempty
      have hstop : s.start + (output + s.length - output) = s.stop := by
        rw [Span.length]
        omega
      rw [if_neg hempty, if_neg hempty, ← Nat.add_assoc, piecesTo, head?_anchorsFrom, ih, hstop]

/-- **The pieces of an output are the spans that are not empty, one after another.** -/
theorem pieces_ofSpans (spans : List Span) : (ofSpans spans).pieces = placedFrom 0 spans := by
  have h := piecesTo_anchorsFrom 0 spans
  rwa [Nat.zero_add] at h

theorem map_source_placedFrom (output : Nat) (spans : List Span) :
    (placedFrom output spans).map Piece.source = spans.filter fun s => !s.isEmpty := by
  induction spans generalizing output with
  | nil => rfl
  | cons s spans ih =>
    rw [placedFrom]
    by_cases hempty : s.isEmpty = true
    · rw [if_pos hempty, List.filter_cons_of_neg (by simpa using hempty), ih]
    · rw [if_neg hempty, List.filter_cons_of_pos (by simpa using hempty), List.map_cons, ih]

/-- A piece is as long as what it comes from. -/
theorem length_of_mem_placedFrom {output : Nat} {spans : List Span} {p : Piece}
    (h : p ∈ placedFrom output spans) : p.output.length = p.source.length := by
  induction spans generalizing output with
  | nil => cases h
  | cons s spans ih =>
    rw [placedFrom] at h
    split at h
    · exact ih h
    · rcases List.mem_cons.mp h with rfl | h
      · exact Nat.add_sub_cancel_left output s.length
      · exact ih h

theorem length_pos_of_not_isEmpty {s : Span} (h : ¬s.isEmpty = true) : 0 < s.length :=
  Nat.pos_of_ne_zero (mt (Span.length_eq_zero_iff s).mp h)

/-- Spans that are not empty and follow each other without a gap, from one offset to another. -/
inductive Consecutive : Nat → List Span → Nat → Prop
  | nil (offset : Nat) : Consecutive offset [] offset
  | cons {s : Span} {spans : List Span} {stop : Nat} (nonempty : s.start < s.stop)
      (more : Consecutive s.stop spans stop) : Consecutive s.start (s :: spans) stop

/-- **The pieces fill the output from end to end.** -/
theorem consecutive_placedFrom (output : Nat) (spans : List Span) :
    Consecutive output ((placedFrom output spans).map Piece.output)
      (output + Span.total spans) := by
  induction spans generalizing output with
  | nil => exact .nil output
  | cons s spans ih =>
    rw [placedFrom, Span.total]
    by_cases hempty : s.isEmpty = true
    · rw [if_pos hempty, (Span.length_eq_zero_iff s).mpr hempty, Nat.zero_add]
      exact ih output
    · have hpos := length_pos_of_not_isEmpty hempty
      rw [if_neg hempty, List.map_cons, ← Nat.add_assoc]
      exact .cons (s := ⟨output, output + s.length⟩) (Nat.lt_add_of_pos_right hpos) (ih _)

/-! ## Anchors -/

theorem le_of_mem_anchorsFrom {output : Nat} {spans : List Span} {b : Anchor}
    (h : b ∈ anchorsFrom output spans) : output ≤ b.output := by
  induction spans generalizing output with
  | nil => cases h
  | cons s spans ih =>
    rw [anchorsFrom] at h
    split at h
    · exact ih h
    · rcases List.mem_cons.mp h with rfl | h
      · exact Nat.le_refl _
      · exact Nat.le_trans (Nat.le_add_right _ _) (ih h)

/-- Only an empty span would put two anchors at one place, and empty spans have none. -/
theorem pairwise_anchorsFrom (output : Nat) (spans : List Span) :
    (anchorsFrom output spans).Pairwise fun b c => b.output < c.output := by
  induction spans generalizing output with
  | nil => exact .nil
  | cons s spans ih =>
    rw [anchorsFrom]
    by_cases hempty : s.isEmpty = true
    · rw [if_pos hempty]
      exact ih output
    · have hpos := length_pos_of_not_isEmpty hempty
      rw [if_neg hempty]
      refine .cons (fun c hc => ?_) (ih _)
      exact Nat.lt_of_lt_of_le (Nat.lt_add_of_pos_right hpos) (le_of_mem_anchorsFrom hc)

/-! ## The map as a whole -/

theorem total_filter (spans : List Span) :
    Span.total (spans.filter fun s => !s.isEmpty) = Span.total spans := by
  induction spans with
  | nil => rfl
  | cons s spans ih =>
    by_cases hempty : s.isEmpty = true
    · rw [List.filter_cons_of_neg (by simpa using hempty), ih, Span.total,
        (Span.length_eq_zero_iff s).mpr hempty, Nat.zero_add]
    · rw [List.filter_cons_of_pos (by simpa using hempty), Span.total, ih, Span.total]

/-- **The map of any spans**, in whatever order they stand and however they overlap: the anchors lie
one behind the other; the pieces are the spans that are not empty and fill the output; and an offset
leads to the one at its place among all offsets of the spans, at the end to the end of the last
span, and behind it to none. -/
theorem ofSpans_faithful (spans : List Span) :
    (ofSpans spans).anchors.Pairwise (fun b c => b.output < c.output) ∧
    (ofSpans spans).outputLength = Span.total (spans.filter fun s => !s.isEmpty) ∧
    (ofSpans spans).pieces.map Piece.source = spans.filter (fun s => !s.isEmpty) ∧
    Consecutive 0 ((ofSpans spans).pieces.map Piece.output) (ofSpans spans).outputLength ∧
    (∀ p ∈ (ofSpans spans).pieces, p.output.length = p.source.length) ∧
    (∀ o < (ofSpans spans).outputLength, ∃ j,
      (ofSpans spans).sourceOffset? o = some j ∧ (spans.flatMap Span.offsets)[o]? = some j) ∧
    (ofSpans spans).sourceOffset? (ofSpans spans).outputLength =
      (spans.filter fun s => !s.isEmpty).getLast?.map Span.stop ∧
    ∀ o, (ofSpans spans).outputLength < o → (ofSpans spans).sourceOffset? o = none := by
  have hconsecutive := consecutive_placedFrom 0 spans
  rw [Nat.zero_add] at hconsecutive
  rw [pieces_ofSpans]
  refine ⟨pairwise_anchorsFrom 0 spans, (total_filter spans).symm, map_source_placedFrom 0 spans,
    hconsecutive, fun p hp => length_of_mem_placedFrom hp, fun o ho => ?_, sourceOffset?_total,
    fun o ho => sourceOffset?_of_gt ho⟩
  have hlength : o < (spans.flatMap Span.offsets).length := by
    rw [Span.length_flatMap_offsets]
    exact ho
  exact ⟨_, (sourceOffset?_of_lt ho).trans (List.getElem?_eq_getElem hlength),
    List.getElem?_eq_getElem hlength⟩

/-- Spans out of order, one of them reversed and one inside another. -/
def scatteredSpans : List Span :=
  [⟨4, 7⟩, ⟨9, 2⟩, ⟨5, 6⟩]

theorem ofSpans_faithful_scattered :
    3 < (ofSpans scatteredSpans).outputLength ∧
      (ofSpans scatteredSpans).sourceOffset? 3 = some 5 ∧
      (ofSpans scatteredSpans).outputLength < 5 ∧
      (ofSpans scatteredSpans).sourceOffset? 5 = none := by
  have hinside : 3 < (ofSpans scatteredSpans).outputLength := by decide
  have hbehind : (ofSpans scatteredSpans).outputLength < 5 := by decide
  have hplace : (scatteredSpans.flatMap Span.offsets)[3]? = some 5 := by decide
  obtain ⟨-, -, -, -, -, hlookup, -, hnone⟩ := ofSpans_faithful scatteredSpans
  obtain ⟨j, hj, hfound⟩ := hlookup 3 hinside
  exact ⟨hinside, hj.trans (hfound.symm.trans hplace), hbehind, hnone 5 hbehind⟩

end ConditionalText.OffsetMap
