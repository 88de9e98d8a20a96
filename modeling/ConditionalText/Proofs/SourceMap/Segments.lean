import ConditionalText.Proofs.OffsetMap
import ConditionalText.Proofs.Text.Location
import ConditionalText.SourceMap.Mappings
import Mathlib.Data.List.Induction

/-!
# What the segments of an output say

The segments of an output are found by two places that move in step, one in the output and one in the
source; the second jumps wherever a new span begins. Here a segment is told by the texts before it
instead: `Position.after before` is the place behind a text, by its line feeds and by what follows
the last of them.

* `Position.advanceBy_start`: moving over a text from the start leads behind it.
* `segments_ofSpans`: the segments are those of the spans, copied one after another.
* `length_copiedFrom`, `getElem?_copiedFrom`: **every character other than a line feed has one
  segment, in order, with its place in the output and the place it was copied from.**
* `exists_of_mem_copiedFrom`: no segment stands anywhere else.
* `ascending_copiedFrom`: no segment stands on an earlier line of the output than one before it.
-/

namespace ConditionalText

open ConditionalText.Text

/-- Both ends of a span are boundaries of a text. -/
def Text.Span.FitsIn (s : Span) (t : Text) : Prop :=
  IsBoundary t s.start ∧ IsBoundary t s.stop

instance (s : Span) (t : Text) : Decidable (s.FitsIn t) :=
  inferInstanceAs (Decidable (_ ∧ _))

namespace Text.Span.FitsIn

variable {s : Span} {t : Text}

theorem exists_parts (h : s.FitsIn t) (hempty : ¬s.isEmpty = true) :
    ∃ a c, t = a ++ (s.extract t ++ c) ∧ s.start = byteLength a := by
  have hle : s.start ≤ s.stop := Nat.le_of_not_le (mt isEmpty_iff.mpr hempty)
  obtain ⟨a, b, c, rfl, hstart, hstop⟩ := exists_parts_of_isBoundary h.1 h.2 hle
  refine ⟨a, c, ?_, hstart⟩
  rw [extract, hstart, hstop, slice_append]

theorem byteLength_extract (h : s.FitsIn t) : byteLength (s.extract t) = s.length := by
  by_cases hempty : s.isEmpty = true
  · rw [extract_of_isEmpty t s hempty, (length_eq_zero_iff s).mpr hempty, byteLength_nil]
  · have hle : s.start ≤ s.stop := Nat.le_of_not_le (mt isEmpty_iff.mpr hempty)
    obtain ⟨a, b, c, rfl, hstart, hstop⟩ := exists_parts_of_isBoundary h.1 h.2 hle
    rw [extract, length, hstart, hstop, slice_append, Nat.add_sub_cancel_left]

end Text.Span.FitsIn

namespace SourceMap

/-! ## Places behind a text -/

/-- The number of UTF-16 units of a text. -/
def utf16Length : Text → Nat
  | [] => 0
  | c :: rest => units16 c + utf16Length rest

theorem utf16Length_snoc (t : Text) (c : Char) :
    utf16Length (t ++ [c]) = utf16Length t + units16 c := by
  induction t with
  | nil => simp [utf16Length]
  | cons d t ih => rw [List.cons_append, utf16Length, ih, utf16Length, Nat.add_assoc]

namespace Position

/-- The place behind a text: the line is the number of its line feeds, the column the number of
UTF-16 units after the last of them. -/
def after (before : Text) : Position :=
  ⟨before.count '\n', utf16Length (lastLine before)⟩

theorem advanceBy_append (p : Position) (a b : Text) :
    p.advanceBy (a ++ b) = (p.advanceBy a).advanceBy b :=
  List.foldl_append

theorem advanceBy_snoc (p : Position) (t : Text) (c : Char) :
    p.advanceBy (t ++ [c]) = (p.advanceBy t).advance c :=
  advanceBy_append p t [c]

/-- Moving over a text from the start leads behind it. -/
theorem advanceBy_start (t : Text) : start.advanceBy t = after t := by
  induction t using List.reverseRecOn with
  | nil => rfl
  | append_singleton t c ih =>
    rw [advanceBy_snoc, ih, advance, after, after, lastLine_snoc, List.count_append]
    by_cases hc : c = '\n'
    · simp [hc, utf16Length]
    · simp [hc, utf16Length_snoc]

theorem advanceBy_after (a b : Text) : (after a).advanceBy b = after (a ++ b) := by
  rw [← advanceBy_start, ← advanceBy_start, advanceBy_append]

theorem ofOffset_byteLength (a b : Text) : ofOffset (a ++ b) (byteLength a) = after a := by
  rw [ofOffset, takeBytes_append, advanceBy_start]

/-- Moving on never leads to an earlier line. -/
theorem line_le_advanceBy (p : Position) (t : Text) : p.line ≤ (p.advanceBy t).line := by
  induction t generalizing p with
  | nil => exact Nat.le_refl _
  | cons c t ih =>
    have hadvance : p.line ≤ (p.advance c).line := by
      unfold advance
      split
      · exact Nat.le_succ _
      · exact Nat.le_refl _
    exact Nat.le_trans hadvance (ih (p.advance c))

end Position

/-! ## One copied text -/

/-- The number of characters that have a segment: all but the line feeds. -/
def segmentCount (t : Text) : Nat :=
  t.countP (· ≠ '\n')

theorem segmentCount_append (a b : Text) :
    segmentCount (a ++ b) = segmentCount a + segmentCount b :=
  List.countP_append

variable {generated origin : Position}

theorem copySegments_append (a b : Text) :
    copySegments generated origin (a ++ b) =
      copySegments generated origin a ++
        copySegments (generated.advanceBy a) (origin.advanceBy a) b := by
  induction a generalizing generated origin with
  | nil => rfl
  | cons c a ih =>
    rw [List.cons_append, copySegments, copySegments, ih]
    split
    · rfl
    · rfl

theorem length_copySegments (t : Text) :
    (copySegments generated origin t).length = segmentCount t := by
  induction t generalizing generated origin with
  | nil => rfl
  | cons c t ih =>
    rw [copySegments, segmentCount, List.countP_cons]
    by_cases hc : c = '\n'
    · simp [hc, ih, segmentCount]
    · simp [hc, ih, segmentCount]

/-- A character of a copied text has the segment behind those of the characters before it. -/
theorem getElem?_copySegments (generated origin : Position) (before rest : Text) {c : Char}
    (hc : c ≠ '\n') :
    (copySegments generated origin (before ++ c :: rest))[segmentCount before]? =
      some ⟨generated.advanceBy before, origin.advanceBy before⟩ := by
  rw [copySegments_append, List.getElem?_append_right (Nat.le_of_eq (length_copySegments before)),
    length_copySegments, Nat.sub_self, copySegments, if_neg hc]
  rfl

/-! ## All spans -/

/-- The segments of spans copied one after another to a place. -/
def copiedFrom (source : Text) (generated : Position) : List Span → List Segment
  | [] => []
  | s :: more =>
    copySegments generated (.ofOffset source s.start) (s.extract source) ++
      copiedFrom source (generated.advanceBy (s.extract source)) more

variable {source : Text} {spans : List Span}

theorem extractAll_cons (s : Span) (spans : List Span) (t : Text) :
    Span.extractAll (s :: spans) t = s.extract t ++ Span.extractAll spans t :=
  List.flatMap_cons

/-- Leaving out empty spans does not change what the spans hold. -/
theorem extractAll_filter (spans : List Span) (t : Text) :
    Span.extractAll (spans.filter fun s => !s.isEmpty) t = Span.extractAll spans t := by
  induction spans with
  | nil => rfl
  | cons s spans ih =>
    rw [extractAll_cons, List.filter_cons]
    by_cases hempty : s.isEmpty = true
    · simp [hempty, Span.extract_of_isEmpty t s hempty, ih]
    · simp [hempty, extractAll_cons, ih]

/-- Behind a text of some length, the pieces of an output are the spans it is put together from. -/
theorem segmentsFrom_placedFrom (generated : Position) (hfits : ∀ s ∈ spans, s.FitsIn source)
    (before : Text) :
    segmentsFrom source (before ++ Span.extractAll spans source) generated
        (OffsetMap.placedFrom (byteLength before) spans) =
      copiedFrom source generated spans := by
  induction spans generalizing before generated with
  | nil => rfl
  | cons s spans ih =>
    have hs : s.FitsIn source := hfits s List.mem_cons_self
    have hmore : ∀ r ∈ spans, r.FitsIn source := fun r hr => hfits r (List.mem_cons_of_mem _ hr)
    rw [OffsetMap.placedFrom, extractAll_cons, copiedFrom]
    by_cases hempty : s.isEmpty = true
    · rw [if_pos hempty, Span.extract_of_isEmpty source s hempty]
      exact ih generated hmore before
    · have hlength := hs.byteLength_extract
      have hpiece : Span.extract ⟨byteLength before, byteLength before + s.length⟩
          (before ++ (s.extract source ++ Span.extractAll spans source)) = s.extract source := by
        rw [← hlength]
        exact slice_append before _ _
      have hrest := ih (generated.advanceBy (s.extract source)) hmore
        (before ++ s.extract source)
      rw [byteLength_append, hlength, List.append_assoc] at hrest
      rw [if_neg hempty, segmentsFrom]
      simp only [hpiece, hrest]

/-- **The segments of an output are those of its spans, copied one after another.** -/
theorem segments_ofSpans (hfits : ∀ s ∈ spans, s.FitsIn source) :
    segments (.ofSpans spans) source (Span.extractAll spans source) =
      copiedFrom source .start spans := by
  rw [segments, OffsetMap.pieces_ofSpans]
  exact segmentsFrom_placedFrom .start hfits []

theorem length_copiedFrom (spans : List Span) :
    (copiedFrom source generated spans).length =
      segmentCount (Span.extractAll spans source) := by
  induction spans generalizing generated with
  | nil => rfl
  | cons s spans ih =>
    rw [copiedFrom, List.length_append, ih, length_copySegments, extractAll_cons,
      segmentCount_append]

/-- A character inside the text of a span comes from as far behind the start of the span. -/
theorem exists_origin_of_extract {s : Span} (hs : s.FitsIn source) {before rest : Text} {c : Char}
    (hextract : s.extract source = before ++ c :: rest) :
    ∃ sourceBefore sourceAfter, source = sourceBefore ++ c :: sourceAfter ∧
      s.offsets[byteLength before]? = some (byteLength sourceBefore) ∧
      (Position.ofOffset source s.start).advanceBy before = .after sourceBefore := by
  have hempty : ¬s.isEmpty = true := by
    intro hempty
    rw [Span.extract_of_isEmpty source s hempty] at hextract
    exact List.append_ne_nil_of_right_ne_nil before (List.cons_ne_nil c rest) hextract.symm
  obtain ⟨a, d, hsource, hstart⟩ := hs.exists_parts hempty
  have hlength := hs.byteLength_extract
  rw [hextract, byteLength_append, byteLength_cons] at hlength
  have hlt : byteLength before < s.length := by
    have := c.utf8Size_pos
    omega
  refine ⟨a ++ before, rest ++ d, ?_, ?_, ?_⟩
  · rw [hextract] at hsource
    simpa using hsource
  · rw [Span.offsets, List.getElem?_range' hlt, Nat.one_mul, hstart, byteLength_append]
  · rw [hstart, hsource, Position.ofOffset_byteLength, Position.advanceBy_after]

/-- **A character of the output has the segment behind those of the characters before it**, and that
leads to the character it was copied from. -/
theorem getElem?_copiedFrom (generated : Position) (hfits : ∀ s ∈ spans, s.FitsIn source)
    {before rest : Text} {c : Char} (houtput : Span.extractAll spans source = before ++ c :: rest)
    (hc : c ≠ '\n') :
    ∃ sourceBefore sourceAfter, source = sourceBefore ++ c :: sourceAfter ∧
      (spans.flatMap Span.offsets)[byteLength before]? = some (byteLength sourceBefore) ∧
      (copiedFrom source generated spans)[segmentCount before]? =
        some ⟨generated.advanceBy before, .after sourceBefore⟩ := by
  induction spans generalizing before generated with
  | nil => exact absurd houtput.symm (List.append_ne_nil_of_right_ne_nil before (by simp))
  | cons s spans ih =>
    have hs : s.FitsIn source := hfits s List.mem_cons_self
    have hmore : ∀ r ∈ spans, r.FitsIn source := fun r hr => hfits r (List.mem_cons_of_mem _ hr)
    have hoffsets : s.offsets.length = byteLength (s.extract source) := by
      rw [Span.offsets, List.length_range', hs.byteLength_extract]
    -- the character stands behind the text of the first span
    have hbehind : ∀ m, before = s.extract source ++ m →
        Span.extractAll spans source = m ++ c :: rest →
        ∃ sourceBefore sourceAfter, source = sourceBefore ++ c :: sourceAfter ∧
          ((s :: spans).flatMap Span.offsets)[byteLength before]? =
            some (byteLength sourceBefore) ∧
          (copiedFrom source generated (s :: spans))[segmentCount before]? =
            some ⟨generated.advanceBy before, .after sourceBefore⟩ := by
      rintro m rfl hm
      obtain ⟨sourceBefore, sourceAfter, hsource, hoffset, hsegment⟩ :=
        ih (generated.advanceBy (s.extract source)) hmore hm
      refine ⟨sourceBefore, sourceAfter, hsource, ?_, ?_⟩
      · rw [List.flatMap_cons, byteLength_append, ← hoffsets,
          List.getElem?_append_right (Nat.le_add_right _ _), Nat.add_sub_cancel_left, hoffset]
      · rw [copiedFrom, segmentCount_append,
          List.getElem?_append_right (by rw [length_copySegments]; exact Nat.le_add_right _ _),
          length_copySegments, Nat.add_sub_cancel_left, hsegment, Position.advanceBy_append]
    rw [extractAll_cons] at houtput
    rcases List.append_eq_append_iff.mp houtput with ⟨m, hbefore, hrest⟩ | ⟨m, hextract, hrest⟩
    · exact hbehind m hbefore hrest
    cases m with
    | nil => exact hbehind [] (by simpa using hextract.symm) hrest.symm
    | cons d m =>
      -- it stands inside that text
      obtain ⟨rfl, -⟩ := List.cons.inj hrest
      obtain ⟨sourceBefore, sourceAfter, hsource, hoffset, horigin⟩ :=
        exists_origin_of_extract hs hextract
      have hsegment := getElem?_copySegments generated (.ofOffset source s.start) before m hc
      refine ⟨sourceBefore, sourceAfter, hsource, ?_, ?_⟩
      · rw [List.flatMap_cons, List.getElem?_append_left]
        · exact hoffset
        · exact (List.getElem?_eq_some_iff.mp hoffset).1
      · rw [copiedFrom, hextract, List.getElem?_append_left]
        · rw [hsegment, horigin]
        · exact (List.getElem?_eq_some_iff.mp hsegment).1

/-- A segment of a copied text stands at a character of it. -/
theorem exists_of_mem_copySegments {t : Text} {s : Segment}
    (h : s ∈ copySegments generated origin t) :
    ∃ before c rest, t = before ++ c :: rest ∧ c ≠ '\n' ∧
      s.generated = generated.advanceBy before := by
  induction t generalizing generated origin with
  | nil => cases h
  | cons c t ih =>
    -- it stands behind the first character
    have hbehind : s ∈ copySegments (generated.advance c) (origin.advance c) t →
        ∃ before d rest, c :: t = before ++ d :: rest ∧ d ≠ '\n' ∧
          s.generated = generated.advanceBy before := by
      intro hmem
      obtain ⟨before, d, rest, rfl, hd, hgenerated⟩ := ih hmem
      exact ⟨c :: before, d, rest, rfl, hd, hgenerated⟩
    rw [copySegments] at h
    split at h
    · exact hbehind h
    · next hc =>
      rcases List.mem_cons.mp h with rfl | hmem
      · exact ⟨[], c, t, rfl, hc, rfl⟩
      · exact hbehind hmem

/-- **A segment of an output stands at a character of it.** -/
theorem exists_of_mem_copiedFrom {s : Segment} (h : s ∈ copiedFrom source generated spans) :
    ∃ before c rest, Span.extractAll spans source = before ++ c :: rest ∧ c ≠ '\n' ∧
      s.generated = generated.advanceBy before := by
  induction spans generalizing generated with
  | nil => cases h
  | cons span spans ih =>
    rw [extractAll_cons]
    rcases List.mem_append.mp h with hmem | hmem
    · obtain ⟨before, c, rest, htext, hc, hgenerated⟩ := exists_of_mem_copySegments hmem
      refine ⟨before, c, rest ++ Span.extractAll spans source, ?_, hc, hgenerated⟩
      rw [htext, List.append_assoc, List.cons_append]
    · obtain ⟨before, c, rest, htext, hc, hgenerated⟩ := ih hmem
      refine ⟨span.extract source ++ before, c, rest, ?_, hc, ?_⟩
      · rw [htext, List.append_assoc]
      · rw [hgenerated, Position.advanceBy_append]

/-! ## The order of segments -/

/-- No segment stands on an earlier line of the output than the given one or one before it. -/
def Ascending : Nat → List Segment → Prop
  | _, [] => True
  | line, s :: more => line ≤ s.generated.line ∧ Ascending s.generated.line more

theorem Ascending.mono {line line' : Nat} {ss : List Segment} (h : Ascending line ss)
    (hle : line' ≤ line) : Ascending line' ss := by
  cases ss with
  | nil => trivial
  | cons s ss => exact ⟨Nat.le_trans hle h.1, h.2⟩

theorem ascending_copySegments_append (generated origin : Position) {ss : List Segment} (t : Text)
    (h : Ascending (generated.advanceBy t).line ss) :
    Ascending generated.line (copySegments generated origin t ++ ss) := by
  induction t generalizing generated origin with
  | nil => exact h
  | cons c t ih =>
    have hafter := ih (generated.advance c) (origin.advance c) h
    have hadvance : generated.line ≤ (generated.advance c).line :=
      generated.line_le_advanceBy [c]
    rw [copySegments]
    split
    · exact hafter.mono hadvance
    · exact ⟨Nat.le_refl _, hafter.mono hadvance⟩

theorem ascending_copiedFrom (generated : Position) (spans : List Span) :
    Ascending generated.line (copiedFrom source generated spans) := by
  induction spans generalizing generated with
  | nil => trivial
  | cons s spans ih => exact ascending_copySegments_append generated _ (s.extract source) (ih _)

end SourceMap

end ConditionalText
