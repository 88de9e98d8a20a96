import ConditionalText.Proofs.SourceMap.Segments
import ConditionalText.Proofs.SourceMap.Vlq
import ConditionalText.SourceMap.Basic

/-!
# Reading mappings

How the mappings of a source map are read, by the rules of the format alone: a semicolon starts a new
line of the output and sets its column to zero, a comma stands between segments, and a segment is
four numbers, each of them added to its last value.

* `decodeFrom_encodeFrom`: reading follows writing from segment to segment. What a writer remembers
  (`Reference`) is what a reader has reached (`Reference.mapping`).
* `standsIn_of_decode`: every mapping of an output stands at a character of it.
* `decode_mappings_ofSpans`: **the mappings of an output read back as one segment for every
  character other than a line feed, with its place in the output and the place it was copied from.**
-/

namespace ConditionalText.SourceMap

open ConditionalText.Text

/-! ## The reader -/

/-- A place in an output and where it comes from, as the numbers of a source map say it. -/
structure Mapping where
  line : Nat
  column : Int
  sourceIndex : Int
  sourceLine : Int
  sourceColumn : Int
  deriving DecidableEq, Repr

namespace Mapping

/-- What the numbers of the first segment are added to. -/
def start : Mapping := ⟨0, 0, 0, 0, 0⟩

/-- The start of the next line of the output. -/
def nextLine (m : Mapping) : Mapping :=
  { m with line := m.line + 1, column := 0 }

/-- The mapping that a segment leads to: four numbers and nothing else. -/
def readSegment? (m : Mapping) (t : Text) : Option Mapping := do
  let (column, t) ← readVlq? t
  let (sourceIndex, t) ← readVlq? t
  let (sourceLine, t) ← readVlq? t
  let (sourceColumn, t) ← readVlq? t
  if t.isEmpty then
    some ⟨m.line, m.column + column, m.sourceIndex + sourceIndex, m.sourceLine + sourceLine,
      m.sourceColumn + sourceColumn⟩
  else none

end Mapping

/-- The marks between segments: one ends a line, one a segment. -/
def isSeparator (c : Char) : Bool :=
  c = ';' || c = ','

/-- The mappings of a text that goes on after a given one. -/
def decodeFrom (m : Mapping) : Text → Option (List Mapping)
  | [] => some []
  | c :: rest =>
    if c = ';' then decodeFrom m.nextLine rest
    else if c = ',' then decodeFrom m rest
    else
      (m.readSegment? (c :: rest.takeWhile fun d => !isSeparator d)).bind fun next =>
        (decodeFrom next (rest.dropWhile fun d => !isSeparator d)).map fun more => next :: more
termination_by t => t.length
decreasing_by
  · exact Nat.lt_succ_self _
  · exact Nat.lt_succ_self _
  · exact Nat.lt_succ_of_le (List.dropWhile_sublist _).length_le

/-- The mappings of a text. -/
def decode (t : Text) : Option (List Mapping) :=
  decodeFrom .start t

/-! ## One segment -/

/-- The mapping of a segment. -/
def Segment.mapping (s : Segment) : Mapping :=
  ⟨s.generated.line, s.generated.column, 0, s.source.line, s.source.column⟩

/-- What a reader has reached where a writer refers to this. -/
def Reference.mapping (r : Reference) : Mapping :=
  ⟨r.line, r.column.getD 0, 0, r.source.line, r.source.column⟩

theorem add_difference (current previous : Nat) :
    (previous : Int) + difference current previous = current := by
  rw [difference]
  omega

/-- The four numbers of a segment lead to it from what they refer to. -/
theorem readSegment?_encodeFields (column : Nat) (origin : Position) (s : Segment) :
    Mapping.readSegment? ⟨s.generated.line, column, 0, origin.line, origin.column⟩
      (encodeFields column origin s) = some s.mapping := by
  have hlast := readVlq?_encodeVlq (difference s.source.column origin.column) []
  rw [List.append_nil] at hlast
  simp only [encodeFields, List.append_assoc, Mapping.readSegment?, readVlq?_encodeVlq, hlast,
    Option.bind_eq_bind, Option.bind_some, List.isEmpty_nil, if_true, add_difference]
  rfl

theorem isSeparator_of_mem_encodeFields {column : Nat} {origin : Position} {s : Segment} {c : Char}
    (h : c ∈ encodeFields column origin s) : isSeparator c = false := by
  have hall : alphabet.all (fun d => !isSeparator d) = true := by decide +kernel
  have hmem : c ∈ alphabet := by
    simp only [encodeFields, List.mem_append] at h
    rcases h with ((h | h) | h) | h
    all_goals exact mem_alphabet_of_mem_encodeVlq h
  simpa using List.all_eq_true.mp hall c hmem

/-! ## The text of segments -/

variable {m : Mapping}

theorem decodeFrom_semicolon (t : Text) : decodeFrom m (';' :: t) = decodeFrom m.nextLine t := by
  rw [decodeFrom, if_pos rfl]

theorem decodeFrom_comma (t : Text) : decodeFrom m (',' :: t) = decodeFrom m t := by
  rw [decodeFrom, if_neg (by decide), if_pos rfl]

/-- A segment is read up to the next separator or the end. -/
theorem decodeFrom_segment {segment rest : Text} (hnonempty : segment ≠ [])
    (hsegment : ∀ c ∈ segment, isSeparator c = false)
    (hrest : ∀ c, rest.head? = some c → isSeparator c = true) :
    decodeFrom m (segment ++ rest) =
      (m.readSegment? segment).bind fun next =>
        (decodeFrom next rest).map fun more => next :: more := by
  obtain ⟨c, segment, rfl⟩ := List.exists_cons_of_ne_nil hnonempty
  have hc : isSeparator c = false := hsegment c List.mem_cons_self
  have hsemicolon : c ≠ ';' := by
    rintro rfl
    exact absurd hc (by decide)
  have hcomma : c ≠ ',' := by
    rintro rfl
    exact absurd hc (by decide)
  have hmore : ∀ d ∈ segment, (!isSeparator d) = true := fun d hd => by
    rw [hsegment d (List.mem_cons_of_mem c hd)]
    rfl
  have hstop : rest.takeWhile (fun d => !isSeparator d) = [] ∧
      rest.dropWhile (fun d => !isSeparator d) = rest := by
    cases rest with
    | nil => exact ⟨rfl, rfl⟩
    | cons d rest =>
      have hd : ¬(!isSeparator d) = true := by simp [hrest d rfl]
      exact ⟨List.takeWhile_cons_of_neg hd, List.dropWhile_cons_of_neg hd⟩
  rw [List.cons_append, decodeFrom, if_neg hsemicolon, if_neg hcomma,
    List.takeWhile_append_of_pos hmore, List.dropWhile_append_of_pos hmore, hstop.1, hstop.2,
    List.append_nil]

/-- A line is passed at every semicolon, and the column is zero from the first of them on. -/
theorem decodeFrom_semicolons (k : Nat) (t : Text) :
    decodeFrom m (List.replicate k ';' ++ t) =
      decodeFrom { m with line := m.line + k, column := if 0 < k then 0 else m.column } t := by
  induction k generalizing m with
  | zero => rfl
  | succ k ih =>
    rw [List.replicate_succ, List.cons_append, decodeFrom_semicolon, ih]
    have hline : m.line + 1 + k = m.line + (k + 1) := by omega
    cases k with
    | zero => rfl
    | succ k => simp [Mapping.nextLine, hline]

/-- Behind a segment the text of further ones starts with a separator. -/
theorem isSeparator_head?_encodeFrom {r : Reference} (hcolumn : r.column.isSome = true)
    (ss : List Segment) : ∀ c, (encodeFrom r ss).head? = some c → isSeparator c = true := by
  intro c hhead
  cases ss with
  | nil => cases hhead
  | cons s ss =>
    rw [encodeFrom] at hhead
    cases hk : s.generated.line - r.line with
    | zero =>
      have hsame : ¬r.line < s.generated.line := by omega
      simp only [hk, List.replicate_zero, List.nil_append, if_neg hsame, hcolumn, if_true,
        List.cons_append, List.head?_cons, Option.some.injEq] at hhead
      rw [← hhead]
      rfl
    | succ k =>
      simp only [hk, List.replicate_succ, List.cons_append, List.head?_cons,
        Option.some.injEq] at hhead
      rw [← hhead]
      rfl

/-- What stands between two segments leads to the line of the second, with the column that its first
number refers to. -/
theorem decodeFrom_between {r : Reference} {s : Segment} (hle : r.line ≤ s.generated.line)
    {column : Option Nat} (hcolumn : column = if r.line < s.generated.line then none else r.column)
    (t : Text) :
    decodeFrom r.mapping (List.replicate (s.generated.line - r.line) ';' ++
        ((if column.isSome then [','] else []) ++ t)) =
      decodeFrom ⟨s.generated.line, (column.getD 0 : Nat), 0, r.source.line, r.source.column⟩ t := by
  have hline : r.line + (s.generated.line - r.line) = s.generated.line := by omega
  have hreached : { r.mapping with
      line := r.mapping.line + (s.generated.line - r.line)
      column := if 0 < s.generated.line - r.line then 0 else r.mapping.column } =
      (⟨s.generated.line, (column.getD 0 : Nat), 0, r.source.line, r.source.column⟩ : Mapping) := by
    by_cases hlt : r.line < s.generated.line
    · have hpos : 0 < s.generated.line - r.line := by omega
      simp only [Reference.mapping, hline, hcolumn, if_pos hlt, if_pos hpos, Option.getD_none]
      rfl
    · have hzero : ¬0 < s.generated.line - r.line := by omega
      simp only [Reference.mapping, hline, hcolumn, if_neg hlt, if_neg hzero]
  rw [decodeFrom_semicolons, hreached]
  split
  · exact decodeFrom_comma t
  · rfl

/-- **Reading follows writing from segment to segment.** -/
theorem decodeFrom_encodeFrom {r : Reference} {ss : List Segment} (h : Ascending r.line ss) :
    decodeFrom r.mapping (encodeFrom r ss) = some (ss.map Segment.mapping) := by
  induction ss generalizing r with
  | nil => rw [encodeFrom, decodeFrom, List.map_nil]
  | cons s ss ih =>
    obtain ⟨hle, hmore⟩ := h
    have hfields : encodeFields ((if r.line < s.generated.line then none else r.column).getD 0)
        r.source s ≠ [] := by
      intro hnil
      simp only [encodeFields, List.append_eq_nil_iff] at hnil
      exact encodeVlq_ne_nil _ hnil.2
    have hrest := ih (r := ⟨s.generated.line, some s.generated.column, s.source⟩) hmore
    have hnext : s.mapping =
        Reference.mapping ⟨s.generated.line, some s.generated.column, s.source⟩ := rfl
    rw [encodeFrom]
    simp only [List.append_assoc]
    rw [decodeFrom_between hle rfl,
      decodeFrom_segment hfields (fun c hc => isSeparator_of_mem_encodeFields hc)
        (isSeparator_head?_encodeFrom rfl ss),
      readSegment?_encodeFields, Option.bind_some, hnext, hrest]
    rfl

/-! ## The mappings of an output -/

/-- A mapping stands at a character of a text, which is no line feed. -/
def Mapping.StandsIn (m : Mapping) (t : Text) : Prop :=
  ∃ before c rest, t = before ++ c :: rest ∧ c ≠ '\n' ∧
    m.line = (Position.after before).line ∧ m.column = (Position.after before).column

theorem Mapping.StandsIn.mono {t u : Text} (h : m.StandsIn t) (htu : t <+: u) : m.StandsIn u := by
  obtain ⟨before, c, rest, rfl, hplace⟩ := h
  obtain ⟨more, rfl⟩ := htu
  exact ⟨before, c, rest ++ more, by simp, hplace⟩

/-- **The mappings of an output can be read, and each of them stands at a character of it.** -/
theorem standsIn_of_decode {source : Text} {spans : List Span}
    (hfits : ∀ s ∈ spans, s.FitsIn source) :
    ∃ ms, decode (encodeMappings (.ofSpans spans) source (Span.extractAll spans source)) = some ms ∧
      ∀ m ∈ ms, m.StandsIn (Span.extractAll spans source) := by
  refine ⟨(copiedFrom source .start spans).map Segment.mapping, ?_, fun m hm => ?_⟩
  · rw [encodeMappings, segments_ofSpans hfits]
    exact decodeFrom_encodeFrom (r := .start) (ascending_copiedFrom .start spans)
  · obtain ⟨s, hs, rfl⟩ := List.mem_map.mp hm
    obtain ⟨before, c, rest, htext, hc, hgenerated⟩ := exists_of_mem_copiedFrom hs
    rw [Position.advanceBy_start] at hgenerated
    refine ⟨before, c, rest, htext, hc, ?_, ?_⟩
    · rw [Segment.mapping, hgenerated]
    · rw [Segment.mapping, hgenerated]

/-- **The mappings of an output read back as one segment for every character other than a line
feed, in order.** Each has the line and UTF-16 column of its character in the output, source 0, and
the line and UTF-16 column in the source of the character it was copied from. -/
theorem decode_mappings_ofSpans {source : Text} {spans : List Span}
    (hfits : ∀ s ∈ spans, s.FitsIn source) (labels : Labels) {output : Text}
    (houtput : output = Span.extractAll (spans.filter fun s => !s.isEmpty) source) :
    ∃ ms, decode (ofOffsetMap (.ofSpans spans) source output labels).mappings = some ms ∧
      ms.length = output.countP (· ≠ '\n') ∧
      ∀ before c rest, output = before ++ c :: rest → c ≠ '\n' →
        ∃ sourceBefore sourceAfter, source = sourceBefore ++ c :: sourceAfter ∧
          (spans.flatMap Span.offsets)[byteLength before]? = some (byteLength sourceBefore) ∧
          ms[before.countP (· ≠ '\n')]? =
            some ⟨(Position.after before).line, (Position.after before).column, 0,
              (Position.after sourceBefore).line, (Position.after sourceBefore).column⟩ := by
  rw [extractAll_filter] at houtput
  have hsegments : segments (.ofSpans spans) source output = copiedFrom source .start spans := by
    rw [houtput]
    exact segments_ofSpans hfits
  have hdecode : decode (ofOffsetMap (.ofSpans spans) source output labels).mappings =
      some ((copiedFrom source .start spans).map Segment.mapping) := by
    rw [← hsegments]
    refine decodeFrom_encodeFrom (r := .start) ?_
    rw [hsegments]
    exact ascending_copiedFrom .start spans
  refine ⟨_, hdecode, ?_, ?_⟩
  · rw [List.length_map, length_copiedFrom, ← houtput]
    rfl
  · intro before c rest hbefore hc
    obtain ⟨sourceBefore, sourceAfter, hsource, hoffset, hsegment⟩ :=
      getElem?_copiedFrom .start hfits (houtput.symm.trans hbefore) hc
    refine ⟨sourceBefore, sourceAfter, hsource, hoffset, ?_⟩
    have hcount : before.countP (· ≠ '\n') = segmentCount before := rfl
    rw [hcount, List.getElem?_map, hsegment, Option.map_some, Position.advanceBy_start]
    rfl

/-- Spans out of order that overlap: the last character of the output opens its second line, and
comes from the start of the second line of the source. -/
theorem decode_mappings_ofSpans_overlapping :
    (∀ s ∈ [(⟨2, 7⟩ : Span), ⟨0, 6⟩, ⟨6, 2⟩], s.FitsIn "a\n😀b".toList) ∧
      Span.extractAll [⟨2, 7⟩, ⟨0, 6⟩] "a\n😀b".toList = "😀ba\n😀".toList ∧
      ∃ ms, decode (ofOffsetMap (.ofSpans [⟨2, 7⟩, ⟨0, 6⟩, ⟨6, 2⟩]) "a\n😀b".toList
          "😀ba\n😀".toList ⟨none, [], false⟩).mappings = some ms ∧
        ms.length = 4 ∧ ms[3]? = some ⟨1, 0, 0, 1, 0⟩ := by
  have hfits : ∀ s ∈ [(⟨2, 7⟩ : Span), ⟨0, 6⟩, ⟨6, 2⟩], s.FitsIn "a\n😀b".toList := by
    decide +kernel
  have houtput : "😀ba\n😀".toList =
      Span.extractAll ([(⟨2, 7⟩ : Span), ⟨0, 6⟩, ⟨6, 2⟩].filter fun s => !s.isEmpty)
        "a\n😀b".toList := by
    decide +kernel
  obtain ⟨ms, hdecode, hlength, hsegments⟩ :=
    decode_mappings_ofSpans hfits ⟨none, [], false⟩ houtput
  obtain ⟨sourceBefore, sourceAfter, hsource, hoffset, hsegment⟩ :=
    hsegments "😀ba\n".toList '😀' [] (by decide +kernel) (by decide)
  have htwo : byteLength sourceBefore = 2 :=
    Option.some.inj (hoffset.symm.trans (by decide +kernel))
  have hbefore : takeBytes 2 "a\n😀b".toList = sourceBefore := by
    rw [hsource, ← htwo, takeBytes_append]
  refine ⟨hfits, by decide +kernel, ms, hdecode, hlength.trans (by decide +kernel), ?_⟩
  rw [← hbefore] at hsegment
  exact hsegment.trans (by decide +kernel)

end ConditionalText.SourceMap
