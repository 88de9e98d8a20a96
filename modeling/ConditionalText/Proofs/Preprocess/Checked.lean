import ConditionalText.Proofs.Directive.Lines
import ConditionalText.Proofs.Preprocess.Output
import ConditionalText.Proofs.SourceMap.Segments

/-!
# Preprocessing with its bounds checked

Offsets are numbers, and nothing in their type says that they lie in a text, between two of its
characters, or behind what has been cut. Here every step that needs this checks it: cutting a span
(`Cuts.cut?`), reading a span of a text (`Span.extract?`), taking the removed bytes from the length
of the source, and finding the line of an offset among the offsets at which lines start
(`Position.ofOffset?`). A check that fails ends the work with `none`.

* `Progress.run?_eq`: directives are read in order, so that no cut starts before the end of another
  one or ends behind the text, on sources that fail later too.
* `Cuts.Leaves.fitsIn_kept`: what is left of a source ends between characters.
* `Position.ofOffset?_eq`: the line of a boundary is found, and its column by the text before it.
* `preprocess?_eq`: **no check ever fails**, neither in preprocessing nor in the source map of an
  output.
-/

namespace ConditionalText

open ConditionalText.Text

/-! ## Spans of a text -/

namespace Text.Span

/-- The text of a span, whose ends must be in order and boundaries of the text. -/
def extract? (s : Span) (t : Text) : Option Text :=
  if s.start ≤ s.stop ∧ s.FitsIn t then some (s.extract t) else none

/-- The texts of some spans, one after another. -/
def extractAll? : List Span → Text → Option Text
  | [], _ => some []
  | s :: more, t => do
    let first ← s.extract? t
    let rest ← extractAll? more t
    return first ++ rest

theorem extract?_eq {s : Span} {t : Text} (hle : s.start ≤ s.stop) (hfits : s.FitsIn t) :
    s.extract? t = some (s.extract t) :=
  if_pos ⟨hle, hfits⟩

theorem extractAll?_eq {spans : List Span} {t : Text}
    (h : ∀ s ∈ spans, s.start ≤ s.stop ∧ s.FitsIn t) :
    extractAll? spans t = some (extractAll spans t) := by
  induction spans with
  | nil => rfl
  | cons s spans ih =>
    obtain ⟨hle, hfits⟩ := h s List.mem_cons_self
    rw [extractAll?, extract?_eq hle hfits, ih fun r hr => h r (List.mem_cons_of_mem _ hr),
      SourceMap.extractAll_cons]
    rfl

/-- A part that can be read holds the bytes at its offsets. -/
theorem map_bytes_of_extract? {s : Span} {t u : Text} (h : s.extract? t = some u) :
    u = s.extract t ∧ s.offsets.map (fun j => (bytes t)[j]?) = (bytes u).map some := by
  obtain ⟨⟨hle, hstart, hstop⟩, hu⟩ := Option.ite_none_right_eq_some.mp h
  obtain rfl := Option.some.inj hu
  refine ⟨rfl, ?_⟩
  obtain ⟨a, b, rest, rfl, ha, hb⟩ := exists_parts_of_isBoundary hstart hstop hle
  rw [extract, offsets, length, ha, hb, slice_append, Nat.add_sub_cancel_left]
  exact map_getElem?_bytes a b rest

theorem map_bytes_of_extractAll? {spans : List Span} {t u : Text}
    (h : extractAll? spans t = some u) :
    u = extractAll spans t ∧
      (spans.flatMap offsets).map (fun j => (bytes t)[j]?) = (bytes u).map some := by
  induction spans generalizing u with
  | nil =>
    obtain rfl := Option.some.inj h
    exact ⟨rfl, rfl⟩
  | cons s spans ih =>
    obtain ⟨first, hfirst, h⟩ := Option.bind_eq_some_iff.mp h
    obtain ⟨rest, hrest, h⟩ := Option.bind_eq_some_iff.mp h
    obtain rfl := Option.some.inj h
    obtain ⟨rfl, hbytes⟩ := map_bytes_of_extract? hfirst
    obtain ⟨rfl, hmore⟩ := ih hrest
    rw [List.flatMap_cons, List.map_append, hbytes, hmore, bytes_append, List.map_append]
    exact ⟨rfl, rfl⟩

end Text.Span

/-! ## Cuts -/

namespace Cuts

/-- Cuts a span out of a text of some length: if it is not empty, it must start at or behind the end
of the last cut and end in the text. -/
def cut? (length : Nat) (c : Cuts) (s : Span) : Option Cuts :=
  if s.isEmpty ∨ ((∀ last ∈ c.spans.getLast?, last.stop ≤ s.start) ∧ s.stop ≤ length) then
    some (c.cut s)
  else none

/-- What is left of a text, of which no more can be cut than there is. -/
def remainder? (c : Cuts) (source : Text) : Option Text :=
  if c.bytes ≤ byteLength source then Span.extractAll? (c.kept (byteLength source)) source
  else none

/-- What lies between spans whose ends are boundaries ends at boundaries itself. -/
theorem fitsIn_keptFrom {lo hi : Nat} {spans : List Span} {t : Text} (hlo : IsBoundary t lo)
    (hhi : IsBoundary t hi) (hspans : ∀ s ∈ spans, s.FitsIn t) :
    ∀ s ∈ keptFrom lo hi spans, s.start ≤ s.stop ∧ s.FitsIn t := by
  induction spans generalizing lo with
  | nil =>
    intro s hs
    rw [keptFrom] at hs
    split at hs
    · next hlt =>
      obtain rfl := List.mem_singleton.mp hs
      exact ⟨Nat.le_of_lt hlt, hlo, hhi⟩
    · cases hs
  | cons r spans ih =>
    have hr := hspans r List.mem_cons_self
    have hmore := ih hr.2 fun s hs => hspans s (List.mem_cons_of_mem _ hs)
    intro s hs
    rw [keptFrom] at hs
    split at hs
    · next hlt =>
      rcases List.mem_cons.mp hs with rfl | hs
      · exact ⟨Nat.le_of_lt hlt, hlo, hr.1⟩
      · exact hmore s hs
    · exact hmore s hs

/-- What is cut out of a text lies between its characters. -/
theorem Leaves.fitsIn {offset : Nat} {spans : List Span} {t rest : Text}
    (h : Leaves offset spans t rest) {before : Text} (hbefore : byteLength before = offset) :
    ∀ s ∈ spans, s.FitsIn (before ++ t) := by
  induction h generalizing before with
  | nil => simp
  | @cons offset s spans t rest a b hstart hstop hb more ih =>
    have happend : before ++ (a ++ (b ++ t)) = before ++ a ++ b ++ t := by
      simp only [List.append_assoc]
    have hstopLength := byteLength_of_cut hbefore hstart hstop
    rw [happend]
    intro r hr
    rcases List.mem_cons.mp hr with rfl | hr
    · refine ⟨⟨before ++ a, b ++ t, by simp only [List.append_assoc], ?_⟩, ⟨_, t, rfl, hstopLength⟩⟩
      rw [byteLength_append, hbefore, hstart]
    · exact ih hstopLength r hr

theorem Leaves.fitsIn_kept {c : Cuts} {t rest : Text} (h : Leaves 0 c.spans t rest) :
    ∀ s ∈ c.kept (byteLength t), s.start ≤ s.stop ∧ s.FitsIn t :=
  fitsIn_keptFrom ⟨[], t, rfl, rfl⟩ ⟨t, [], (List.append_nil t).symm, rfl⟩
    (h.fitsIn (show byteLength [] = 0 from rfl))

theorem Leaves.remainder?_eq {c : Cuts} {t rest : Text} (h : Leaves 0 c.spans t rest) :
    c.remainder? t = some (c.remainder t) := by
  have hbytes : c.bytes ≤ byteLength t := by
    have := h.total_add
    rw [bytes]
    omega
  rw [remainder?, if_pos hbytes, Span.extractAll?_eq h.fitsIn_kept]
  rfl

end Cuts

/-! ## A run -/

namespace Progress

/-- Cuts the text up to an offset if it is disabled. -/
def cutTo? (length : Nat) (p : Progress) (offset : Nat) : Option Cuts :=
  if p.nesting.enabled then some p.cuts else p.cuts.cut? length ⟨p.position, offset⟩

/-- All directives of a text of some length, up to the first thing wrong. The text before a
directive is cut before the directive itself is looked at. -/
def run? (answer : Decider) (length : Nat) (p : Progress) :
    List Directive.Item → Option (Except SourceError Progress)
  | [] => some (.ok p)
  | .error e :: _ => some (.error (.malformed e))
  | .ok d :: more => do
    let cuts ← p.cutTo? length d.span.start
    match p.nesting.after answer d with
    | .error e => return .error e
    | .ok nesting => run? answer length { nesting, cuts, position := d.span.stop } more

/-- The end of the text: no block may be open. -/
def finish? (p : Progress) (source : Text) : Option (Except SourceError Output) :=
  match p.nesting.checkClosed with
  | .error e => some (.error e)
  | .ok _ => do
    let cuts ← p.cutTo? (byteLength source) (byteLength source)
    let text ← cuts.remainder? source
    return .ok
      { text, offsets := .ofSpans (cuts.kept (byteLength source)), removedBytes := cuts.bytes }

variable {answer : Decider} {length : Nat} {p : Progress}

/-- Text that starts where a run has come to can be cut, if nothing has been cut behind that. -/
theorem cutTo?_eq (hbehind : ∀ s ∈ p.cuts.spans, s.stop ≤ p.position) {offset : Nat}
    (hoffset : offset ≤ length) : p.cutTo? length offset = some (p.cutTo offset) := by
  unfold cutTo? cutTo
  split
  · rfl
  · exact if_pos (.inr ⟨fun last hlast => hbehind last (List.mem_of_getLast? hlast), hoffset⟩)

/-- **Directives are read in order**: the cuts before them are in order and end in the text, whatever
is wrong with a later line. -/
theorem run?_eq (ls : List Text) {offset : Nat} (hposition : p.position ≤ offset)
    (hbehind : ∀ s ∈ p.cuts.spans, s.stop ≤ p.position)
    (hlength : offset + endedLength ls ≤ length + 1) :
    p.run? answer length (Directive.itemsFrom offset ls) =
      some (p.run answer (Directive.itemsFrom offset ls)) := by
  induction ls generalizing offset p with
  | nil => rfl
  | cons line ls ih =>
    rw [endedLength] at hlength
    rw [Directive.itemsFrom]
    cases hline : Directive.ofLine? offset line with
    | none => exact ih (by omega) hbehind (by omega)
    | some item =>
      cases item with
      | error e => rfl
      | ok d =>
        obtain ⟨hspan, -⟩ := Directive.span_of_ofLine?_eq_ok hline
        have hbare : byteLength (Directive.bare line) ≤ byteLength line := by
          have := congrArg byteLength (Directive.bare_append_ending line)
          rw [byteLength_append] at this
          omega
        have hstart : d.span.start = offset := by rw [hspan]
        have hstop : d.span.stop = offset + byteLength (Directive.bare line) := by rw [hspan]
        change p.run? answer length (.ok d :: _) = some (p.run answer (.ok d :: _))
        rw [run?, run, step, hstart, cutTo?_eq hbehind (by omega)]
        cases hafter : p.nesting.after answer d with
        | error e => rfl
        | ok nesting =>
          refine ih (p := ⟨nesting, p.cutTo offset, d.span.stop⟩) ?_ (fun s hs => ?_) (by omega)
          · simp only
            omega
          · have := stop_le_of_mem_cutTo (fun r hr => Nat.le_trans (hbehind r hr) hposition) s hs
            simp only
            omega

end Progress

/-- The text that an environment makes of a source, if no check fails. -/
def preprocess? (env : Environment) (source : Text) : Option (Except SourceError Output) := do
  match ← Progress.start.run? (Predicate.holdsIn env) (byteLength source)
      (Directive.items source) with
  | .error e => return .error e
  | .ok p => p.finish? source

theorem run?_items (answer : Decider) (source : Text) :
    Progress.start.run? answer (byteLength source) (Directive.items source) =
      some (Progress.start.run answer (Directive.items source)) :=
  Progress.run?_eq (lines source) (Nat.le_refl 0) (fun s hs => by cases hs)
    (Nat.le_of_eq (by rw [endedLength_lines, Nat.zero_add]))

/-- A run that ends outside all blocks has nothing left to cut, and what it leaves can be read. -/
theorem Progress.finish?_eq {answer : Decider} {source : Text} {p : Progress}
    (hrun : Progress.start.run answer (Directive.items source) = .ok p) :
    p.finish? source = some (p.finish source) := by
  unfold finish? finish
  cases hclosed : p.nesting.checkClosed with
  | error e => rfl
  | ok u =>
    obtain ⟨ds, hitems, hds⟩ := exists_directives_of_run hrun
    obtain ⟨out, hfinish⟩ : ∃ out, p.finish source = .ok out := by
      unfold finish
      rw [hclosed]
      exact ⟨_, rfl⟩
    have hstart : p.nesting = .start := eq_start_of_blocks_nil hds (blocks_nil_of_finish hfinish)
    obtain ⟨head, ss, hlayout, -⟩ := exists_layout hitems
    have hsettled := hlayout.settled hrun hstart
    have henabled : p.nesting.enabled = true := by rw [hstart]; rfl
    simp only [cutTo?, cutTo, henabled, if_true]
    change (p.cuts.remainder? source).bind _ = _
    rw [hsettled.leaves.remainder?_eq]
    rfl

/-! ## Lines of a text -/

/-- The offsets behind the line feeds of a text that starts at a given offset. -/
def Text.lineStartsFrom (offset : Nat) : Text → List Nat
  | [] => []
  | c :: rest =>
    let after := lineStartsFrom (offset + c.utf8Size) rest
    if c = '\n' then (offset + c.utf8Size) :: after else after

/-- The offsets at which the lines of a text start. -/
def Text.lineStarts (t : Text) : List Nat :=
  0 :: lineStartsFrom 0 t

namespace Text

theorem lineStartsFrom_append (offset : Nat) (a b : Text) :
    lineStartsFrom offset (a ++ b) =
      lineStartsFrom offset a ++ lineStartsFrom (offset + byteLength a) b := by
  induction a generalizing offset with
  | nil => rfl
  | cons c a ih =>
    rw [List.cons_append, lineStartsFrom, lineStartsFrom, ih, byteLength_cons, ← Nat.add_assoc]
    split
    · rfl
    · rfl

theorem bounds_of_mem_lineStartsFrom {offset n : Nat} {t : Text} (h : n ∈ lineStartsFrom offset t) :
    offset < n ∧ n ≤ offset + byteLength t := by
  induction t generalizing offset with
  | nil => cases h
  | cons c t ih =>
    have hc := c.utf8Size_pos
    rw [byteLength_cons]
    rw [lineStartsFrom] at h
    have hrest : n ∈ lineStartsFrom (offset + c.utf8Size) t → offset < n ∧
        n ≤ offset + (c.utf8Size + byteLength t) := by
      intro h
      have := ih h
      omega
    split at h
    · rcases List.mem_cons.mp h with rfl | h
      · omega
      · exact hrest h
    · exact hrest h

theorem length_lineStarts (t : Text) : (lineStarts t).length = t.count '\n' + 1 := by
  have hfrom (offset : Nat) : (lineStartsFrom offset t).length = t.count '\n' := by
    induction t generalizing offset with
    | nil => rfl
    | cons c t ih =>
      rw [lineStartsFrom]
      by_cases hc : c = '\n'
      · simp [hc, ih]
      · simp [hc, ih]
  rw [lineStarts, List.length_cons, hfrom]

/-- The lines that start at or before the end of `a` are those of `a`. -/
theorem takeWhile_lineStarts (a b : Text) :
    (lineStarts (a ++ b)).takeWhile (· ≤ byteLength a) = lineStarts a := by
  have hbefore : ∀ n ∈ lineStarts a, decide (n ≤ byteLength a) = true := by
    intro n hn
    rcases List.mem_cons.mp hn with rfl | hn
    · simp
    · simpa using (bounds_of_mem_lineStartsFrom hn).2
  rw [lineStarts, lineStartsFrom_append, Nat.zero_add, ← List.cons_append,
    ← lineStarts, List.takeWhile_append_of_pos hbefore]
  cases hrest : lineStartsFrom (byteLength a) b with
  | nil => simp
  | cons n more =>
    have hlt := (bounds_of_mem_lineStartsFrom (n := n) (hrest ▸ List.mem_cons_self)).1
    rw [List.takeWhile_cons_of_neg (by simpa using hlt), List.append_nil]

/-- The last line of a text starts as many bytes before its end as it has. -/
theorem getLast?_lineStarts (t : Text) :
    ∃ before, t = before ++ lastLine t ∧ (lineStarts t).getLast? = some (byteLength before) := by
  induction t using List.reverseRecOn with
  | nil => exact ⟨[], rfl, rfl⟩
  | append_singleton t c ih =>
    obtain ⟨before, htext, hlast⟩ := ih
    rw [lastLine_snoc]
    by_cases hc : c = '\n'
    · refine ⟨t ++ [c], by simp [hc], ?_⟩
      rw [lineStarts, lineStartsFrom_append, ← List.cons_append, lineStartsFrom, lineStartsFrom,
        if_pos hc, List.getLast?_concat, Nat.zero_add, byteLength_append]
      rfl
    · refine ⟨before, ?_, ?_⟩
      · rw [if_neg hc, ← List.append_assoc, ← htext]
      · rw [lineStarts, lineStartsFrom_append, ← List.cons_append, lineStartsFrom, lineStartsFrom,
          if_neg hc, List.append_nil, ← lineStarts, hlast]

end Text

namespace SourceMap

/-- The place of a byte offset in a text: its line is the last one that starts at or before it, and
the text from there on gives its column. -/
def Position.ofOffset? (t : Text) (offset : Nat) : Option Position := do
  let started := ((lineStarts t).takeWhile (· ≤ offset)).length
  if started = 0 then none
  else
    let start ← (lineStarts t)[started - 1]?
    let before ← Span.extract? ⟨start, offset⟩ t
    return ⟨started - 1, utf16Length before⟩

/-- **The line of a boundary is found**, and so is its column. -/
theorem Position.ofOffset?_eq {t : Text} {offset : Nat} (h : IsBoundary t offset) :
    ofOffset? t offset = some (ofOffset t offset) := by
  obtain ⟨a, b, rfl, rfl⟩ := h
  obtain ⟨before, htext, hlast⟩ := getLast?_lineStarts a
  have hstart : (lineStarts (a ++ b))[a.count '\n']? = some (byteLength before) := by
    rw [lineStarts, lineStartsFrom_append, ← List.cons_append, ← lineStarts,
      List.getElem?_append_left (by rw [length_lineStarts]; exact Nat.lt_succ_self _), ← hlast,
      List.getLast?_eq_getElem?, length_lineStarts, Nat.add_sub_cancel]
  have hlength := congrArg byteLength htext
  rw [byteLength_append] at hlength
  have hslice : Span.extract? ⟨byteLength before, byteLength a⟩ (a ++ b) = some (lastLine a) := by
    have hfits : Span.FitsIn ⟨byteLength before, byteLength a⟩ (a ++ b) :=
      ⟨⟨before, lastLine a ++ b, by rw [← List.append_assoc, ← htext], rfl⟩, ⟨a, b, rfl, rfl⟩⟩
    rw [Span.extract?_eq (by simp only; omega) hfits, Span.extract, hlength]
    have hslice := slice_append before (lastLine a) b
    rw [← List.append_assoc, ← htext] at hslice
    rw [hslice]
  rw [ofOffset_byteLength, ofOffset?, takeWhile_lineStarts, length_lineStarts,
    if_neg (Nat.succ_ne_zero _), Nat.add_sub_cancel, hstart]
  simp only [hslice, Option.bind_eq_bind, Option.bind_some, after]
  rfl

/-! ## Segments -/

/-- The segments of pieces of an output, the first of which starts at a given place. -/
def segmentsFrom? (source output : Text) (generated : Position) :
    List Piece → Option (List Segment)
  | [] => some []
  | s :: more => do
    let origin ← Position.ofOffset? source s.source.start
    let piece ← s.output.extract? output
    let rest ← segmentsFrom? source output (generated.advanceBy piece) more
    return copySegments generated origin piece ++ rest

theorem segmentsFrom?_placedFrom {source : Text} {spans : List Span} (generated : Position)
    (hfits : ∀ s ∈ spans, s.FitsIn source) (before : Text) :
    segmentsFrom? source (before ++ Span.extractAll spans source) generated
        (OffsetMap.placedFrom (byteLength before) spans) =
      some (segmentsFrom source (before ++ Span.extractAll spans source) generated
        (OffsetMap.placedFrom (byteLength before) spans)) := by
  induction spans generalizing before generated with
  | nil => rfl
  | cons s spans ih =>
    have hs : s.FitsIn source := hfits s List.mem_cons_self
    have hmore : ∀ r ∈ spans, r.FitsIn source := fun r hr => hfits r (List.mem_cons_of_mem _ hr)
    rw [OffsetMap.placedFrom, extractAll_cons]
    by_cases hempty : s.isEmpty = true
    · rw [if_pos hempty, Span.extract_of_isEmpty source s hempty]
      exact ih generated hmore before
    · have hlength := hs.byteLength_extract
      have houtput : Span.FitsIn ⟨byteLength before, byteLength before + s.length⟩
          (before ++ (s.extract source ++ Span.extractAll spans source)) := by
        refine ⟨⟨before, _, rfl, rfl⟩,
          ⟨before ++ s.extract source, Span.extractAll spans source, by simp, ?_⟩⟩
        rw [byteLength_append, hlength]
      have hrest := ih
        (generated.advanceBy (Span.extract ⟨byteLength before, byteLength before + s.length⟩
          (before ++ (s.extract source ++ Span.extractAll spans source)))) hmore
        (before ++ s.extract source)
      rw [byteLength_append, hlength, List.append_assoc] at hrest
      rw [if_neg hempty, segmentsFrom?, segmentsFrom, Position.ofOffset?_eq hs.1,
        Span.extract?_eq (Nat.le_add_right _ _) houtput]
      simp only [Option.bind_eq_bind, Option.bind_some, hrest]
      rfl

end SourceMap

/-- The source map of an output, if no check fails. -/
def Output.sourceMap? (o : Output) (source : Text) (labels : SourceMap.Labels) :
    Option SourceMap := do
  let segments ← SourceMap.segmentsFrom? source o.text .start o.offsets.pieces
  return { o.sourceMap source labels with mappings := SourceMap.encodeFrom .start segments }

/-- An output has a source map. -/
theorem sourceMap?_eq {env : Environment} {source : Text} {out : Output}
    (h : preprocess env source = .ok out) (labels : SourceMap.Labels) :
    out.sourceMap? source labels = some (out.sourceMap source labels) := by
  obtain ⟨p, -, -, rfl, hsettled⟩ := exists_settled_of_preprocess h
  have hfits : ∀ s ∈ p.cuts.kept (byteLength source), s.FitsIn source := fun s hs =>
    (hsettled.leaves.fitsIn_kept s hs).2
  have hsegments := SourceMap.segmentsFrom?_placedFrom .start hfits []
  rw [List.nil_append, byteLength_nil, ← OffsetMap.pieces_ofSpans] at hsegments
  rw [Output.sourceMap?]
  change (SourceMap.segmentsFrom? source
    (Span.extractAll (p.cuts.kept (byteLength source)) source) .start
    (OffsetMap.ofSpans (p.cuts.kept (byteLength source))).pieces).bind _ = _
  rw [hsegments]
  rfl

/-- **No check ever fails.** On every source the cuts are made in order and inside of it, and what
is left is read between its characters; the same holds of the source and the output when the source
map of an output is made. -/
theorem preprocess?_eq (env : Environment) (source : Text) :
    preprocess? env source = some (preprocess env source) ∧
      ∀ out, preprocess env source = .ok out → ∀ labels,
        out.sourceMap? source labels = some (out.sourceMap source labels) := by
  refine ⟨?_, fun out h labels => sourceMap?_eq h labels⟩
  rw [preprocess?, run?_items, preprocess]
  cases hrun : Progress.start.run (Predicate.holdsIn env) (Directive.items source) with
  | error e => rfl
  | ok p => exact Progress.finish?_eq hrun

end ConditionalText
