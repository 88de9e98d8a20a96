import Mathlib.Data.List.Basic
import ConditionalText.Proofs.Directive.Lines
import ConditionalText.Proofs.Preprocess.Output

/-!
# The lines of an output

Text is cut from the end of a directive to the start of the next one, so a cut takes the line feed
behind the first of them along and the two come to stand on one line. An ordinary line begins and
ends at a line feed of its own gap, and is kept or cut together with both.

* `sourceLines`: the lines of a source, each with its directive and with whether the text there is
  enabled.
* `kept_cutLines`: the output is what each line leaves of itself.
* `exists_outputLines`: what lines leave of themselves, taken apart at the line feeds. Directives
  whose line feed is cut are pending; where text is enabled none are.
* `lines_text_eq_outputLines`: **no ordinary line is joined with a directive.**
-/

namespace ConditionalText

open ConditionalText.Text
open ConditionalText.Directive (cutLines directives_cutLines gapBefore bare ending)

/-! ## Ended lines -/

namespace Text

/-- Lines, each with a line feed behind it. -/
def ended (ls : List Text) : Text :=
  ls.flatMap (· ++ ['\n'])

theorem ended_cons (line : Text) (ls : List Text) :
    ended (line :: ls) = line ++ '\n' :: ended ls := by
  rw [ended, List.flatMap_cons, List.append_assoc]
  rfl

theorem lines_ended {ls : List Text} (h : ∀ line ∈ ls, '\n' ∉ line) :
    lines (ended ls) = ls ++ [[]] := by
  induction ls with
  | nil => rfl
  | cons line ls ih =>
    rw [lines] at ih ⊢
    rw [ended_cons, pieces_append, pieces_of_not_mem (h line List.mem_cons_self),
      ih fun l hl => h l (List.mem_cons_of_mem line hl)]
    rfl

/-- The lines of a text are known once a line feed is put behind it. -/
theorem lines_eq_of_ended {t : Text} {ls : List Text} (hls : ∀ line ∈ ls, '\n' ∉ line)
    (h : t ++ ['\n'] = ended ls) : lines t = ls := by
  have hlines : lines (t ++ ['\n']) = lines t ++ [[]] := pieces_append '\n' t []
  rw [h, lines_ended hls] at hlines
  exact (List.append_cancel_right hlines).symm

end Text

/-! ## The lines of a source -/

/-- A line of a source. -/
structure SourceLine where
  text : Text
  /-- The directive that the line is; nothing for an ordinary line. -/
  directive? : Option Directive
  /-- Whether the text after the directives up to this line is enabled: of an ordinary line, whether
  it lies in enabled text. -/
  enabled : Bool
  deriving DecidableEq, Repr

namespace SourceLine

/-- Whether a line is an ordinary one in enabled text. -/
def isEnabledText (l : SourceLine) : Bool :=
  l.directive?.isNone && l.enabled

/-- What a line leaves of itself, with its line feed. -/
def kept (l : SourceLine) : Text :=
  match l.directive? with
  | none => if l.enabled then l.text ++ ['\n'] else []
  | some _ => bare l.text ++ if l.enabled then ending l.text ++ ['\n'] else []

/-- What is found again in the output: enabled text and every directive. -/
def origin? (l : SourceLine) : Option (Text ⊕ Directive) :=
  match l.directive? with
  | none => if l.enabled then some (.inl l.text) else none
  | some d => some (.inr d)

/-- The text of what is found again. -/
def originText (source : Text) : Text ⊕ Directive → Text :=
  Sum.elim id fun d => d.span.extract source

theorem filterMap_getLeft?_origin? (ls : List SourceLine) :
    (ls.filterMap origin?).filterMap Sum.getLeft? = (ls.filter isEnabledText).map text := by
  induction ls with
  | nil => rfl
  | cons l ls ih =>
    obtain ⟨text, directive | d, enabled⟩ := l
    · cases enabled with
      | true => exact congrArg (text :: ·) ih
      | false => exact ih
    · exact ih

theorem filterMap_getRight?_origin? (ls : List SourceLine) :
    (ls.filterMap origin?).filterMap Sum.getRight? = ls.filterMap directive? := by
  induction ls with
  | nil => rfl
  | cons l ls ih =>
    obtain ⟨text, directive | d, enabled⟩ := l
    · cases enabled with
      | true => exact ih
      | false => exact ih
    · exact congrArg (d :: ·) ih

end SourceLine

/-- Lines that follow the directives `before`, the first one at the given offset. -/
def sourceLinesFrom (answer : Decider) (before : List Directive) (offset : Nat) :
    List Text → List SourceLine
  | [] => []
  | line :: more =>
    let directive? := (Directive.ofLine? offset line).bind Except.toOption
    let after := before ++ directive?.toList
    ⟨line, directive?, enabledAfter answer after⟩ ::
      sourceLinesFrom answer after (offset + byteLength line + 1) more

/-- The lines of a source. -/
def sourceLines (answer : Decider) (source : Text) : List SourceLine :=
  sourceLinesFrom answer [] 0 (lines source)

section SourceLines

variable {answer : Decider} {before : List Directive} {offset : Nat} {line : Text}

theorem sourceLinesFrom_cons_of_ok {d : Directive}
    (h : Directive.ofLine? offset line = some (.ok d)) (more : List Text) :
    sourceLinesFrom answer before offset (line :: more) =
      ⟨line, some d, enabledAfter answer (before ++ [d])⟩ ::
        sourceLinesFrom answer (before ++ [d]) (offset + byteLength line + 1) more := by
  rw [sourceLinesFrom, h]
  rfl

theorem sourceLinesFrom_cons_of_ne_ok (h : ∀ d, Directive.ofLine? offset line ≠ some (.ok d))
    (more : List Text) :
    sourceLinesFrom answer before offset (line :: more) =
      ⟨line, none, enabledAfter answer before⟩ ::
        sourceLinesFrom answer before (offset + byteLength line + 1) more := by
  have hnone : (Directive.ofLine? offset line).bind Except.toOption = none := by
    cases hline : Directive.ofLine? offset line with
    | none => rfl
    | some item =>
      cases item with
      | error e => rfl
      | ok d => exact absurd hline (h d)
  rw [sourceLinesFrom, hnone, Option.toList_none, List.append_nil]

/-- The directives of the lines are those of the stretches. -/
theorem directives_sourceLinesFrom (before : List Directive) (offset : Nat) (ls : List Text) :
    (sourceLinesFrom answer before offset ls).filterMap SourceLine.directive? =
      (cutLines offset ls).2.map Stretch.directive := by
  induction ls generalizing before offset with
  | nil => rfl
  | cons line more ih =>
    by_cases hline : ∃ d, Directive.ofLine? offset line = some (.ok d)
    · obtain ⟨d, hd⟩ := hline
      rw [sourceLinesFrom_cons_of_ok hd, Directive.cutLines_cons_of_ok hd, List.map_cons,
        ← ih (before ++ [d])]
      rfl
    · have hne := not_exists.mp hline
      rw [sourceLinesFrom_cons_of_ne_ok hne, Directive.cutLines_cons_of_ne_ok hne,
        ← ih before]
      rfl

/-- **The output is what each line leaves of itself**, if the text is enabled at its end. -/
theorem kept_cutLines {ls : List Text} (hls : ls ≠ [])
    (hend : enabledAfter answer (before ++ (cutLines offset ls).2.map Stretch.directive) = true) :
    (if enabledAfter answer before then (cutLines offset ls).1 else []) ++
        (keptAfter answer before (cutLines offset ls).2 ++ ['\n']) =
      (sourceLinesFrom answer before offset ls).flatMap SourceLine.kept := by
  induction ls generalizing before offset with
  | nil => exact absurd rfl hls
  | cons line more ih =>
    -- the line feed of this line belongs to the gap, and so does what follows up to a directive
    have hgap : ∀ after : List Directive,
        enabledAfter answer (after ++
          (cutLines (offset + byteLength line + 1) more).2.map Stretch.directive) = true →
        (if enabledAfter answer after then
            gapBefore more (cutLines (offset + byteLength line + 1) more).1 else []) ++
          (keptAfter answer after (cutLines (offset + byteLength line + 1) more).2 ++ ['\n']) =
        (if enabledAfter answer after then ['\n'] else []) ++
          (sourceLinesFrom answer after (offset + byteLength line + 1) more).flatMap
            SourceLine.kept := by
      intro after hafter
      cases more with
      | nil =>
        have henabled : enabledAfter answer after = true := by simpa [cutLines] using hafter
        rw [if_pos henabled, if_pos henabled]
        rfl
      | cons next more =>
        rw [← ih (List.cons_ne_nil next more) hafter]
        cases enabledAfter answer after <;> rfl
    by_cases hline : ∃ d, Directive.ofLine? offset line = some (.ok d)
    · obtain ⟨d, hd⟩ := hline
      rw [Directive.cutLines_cons_of_ok hd] at hend ⊢
      have hmore := hgap (before ++ [d]) (by simpa using hend)
      rw [sourceLinesFrom_cons_of_ok hd, List.flatMap_cons, ite_self, keptAfter, SourceLine.kept]
      cases he : enabledAfter answer (before ++ [d]) with
      | true => simpa [he] using hmore
      | false => simpa [he] using hmore
    · have hne := not_exists.mp hline
      rw [Directive.cutLines_cons_of_ne_ok hne] at hend ⊢
      have hmore := hgap before hend
      rw [sourceLinesFrom_cons_of_ne_ok hne, List.flatMap_cons, SourceLine.kept]
      cases he : enabledAfter answer before with
      | true => simpa [he] using hmore
      | false => simpa [he] using hmore

/-- A line stands in the source, and so does its directive. -/
theorem exists_lines_eq_of_mem_sourceLinesFrom {ls : List Text} {l : SourceLine}
    (h : l ∈ sourceLinesFrom answer before offset ls) :
    ∃ earlier later, ls = earlier ++ l.text :: later ∧
      l.directive? =
        (Directive.ofLine? (offset + endedLength earlier) l.text).bind Except.toOption := by
  induction ls generalizing before offset with
  | nil => cases h
  | cons line more ih =>
    rw [sourceLinesFrom, List.mem_cons] at h
    rcases h with rfl | h
    · exact ⟨[], more, rfl, rfl⟩
    · obtain ⟨earlier, later, rfl, hdirective⟩ := ih h
      refine ⟨line :: earlier, later, rfl, ?_⟩
      rw [hdirective, endedLength, ← Nat.add_assoc, ← Nat.add_assoc]

end SourceLines

/-- What is known of a line of a source: it has no line feed of its own, and its directive takes all
of it but a carriage return at the end. -/
structure SourceLine.StandsIn (l : SourceLine) (source : Text) : Prop where
  whole : '\n' ∉ l.text
  extract_eq : ∀ d, l.directive? = some d → d.span.extract source = bare l.text

theorem standsIn_of_mem_sourceLines {answer : Decider} {source : Text} {l : SourceLine}
    (h : l ∈ sourceLines answer source) : l.StandsIn source := by
  obtain ⟨earlier, later, hlines, hdirective⟩ := exists_lines_eq_of_mem_sourceLinesFrom h
  obtain ⟨before, behind, hline, -, hoffset⟩ := exists_isLine_of_lines_eq hlines
  refine ⟨hline.whole, fun d hd => ?_⟩
  obtain ⟨item, hitem, hok⟩ := Option.bind_eq_some_iff.mp (hdirective.symm.trans hd)
  cases item with
  | error e => cases hok
  | ok found =>
    cases hok
    obtain ⟨hspan, -⟩ := Directive.span_of_ofLine?_eq_ok hitem
    have hsource : source = before ++ (bare l.text ++ (ending l.text ++ behind)) := by
      rw [← List.append_assoc (bare l.text), Directive.bare_append_ending, ← hline.text_eq]
    rw [hspan, hoffset, Nat.zero_add, hsource]
    exact slice_append _ _ _

/-- An ordinary line is enabled as the text before it is, and the end of the text is enabled. -/
def Continued : Bool → List SourceLine → Prop
  | enabled, [] => enabled = true
  | enabled, l :: more => (l.directive? = none → l.enabled = enabled) ∧ Continued l.enabled more

theorem continued_sourceLinesFrom {answer : Decider} {before : List Directive} {offset : Nat}
    {ls : List Text}
    (hend : enabledAfter answer (before ++ (cutLines offset ls).2.map Stretch.directive) = true) :
    Continued (enabledAfter answer before) (sourceLinesFrom answer before offset ls) := by
  induction ls generalizing before offset with
  | nil =>
    rw [sourceLinesFrom, Continued]
    simpa [cutLines] using hend
  | cons line more ih =>
    by_cases hline : ∃ d, Directive.ofLine? offset line = some (.ok d)
    · obtain ⟨d, hd⟩ := hline
      rw [Directive.cutLines_cons_of_ok hd] at hend
      rw [sourceLinesFrom_cons_of_ok hd]
      refine ⟨fun hnone => ?_, ih (by simpa using hend)⟩
      cases hnone
    · have hne := not_exists.mp hline
      rw [Directive.cutLines_cons_of_ne_ok hne] at hend
      rw [sourceLinesFrom_cons_of_ne_ok hne]
      exact ⟨fun _ => rfl, ih hend⟩

/-! ## The lines of an output -/

/-- A line of an output: an ordinary line of the source, or directives one right behind the other,
with or without a carriage return. -/
inductive OutputLine where
  | ordinary (text : Text)
  | directives (earlier : List Directive) (last : Directive) (returns : Bool)
  deriving DecidableEq, Repr

namespace OutputLine

/-- The text of a line. -/
def text (source : Text) : OutputLine → Text
  | .ordinary text => text
  | .directives earlier last returns =>
    (earlier ++ [last]).flatMap (fun d => d.span.extract source) ++ if returns then ['\r'] else []

/-- What a line is made of, in order. -/
def origins : OutputLine → List (Text ⊕ Directive)
  | .ordinary text => [.inl text]
  | .directives earlier last _ => (earlier ++ [last]).map .inr

def ordinary? : OutputLine → Option Text
  | .ordinary text => some text
  | .directives .. => none

def directiveList : OutputLine → List Directive
  | .ordinary _ => []
  | .directives earlier last _ => earlier ++ [last]

/-- A line has no line feed of its own if nothing it is made of has one. -/
theorem not_mem_text {source : Text} {row : OutputLine}
    (h : ∀ o ∈ row.origins, '\n' ∉ SourceLine.originText source o) : '\n' ∉ row.text source := by
  cases row with
  | ordinary text => exact h (.inl text) List.mem_cons_self
  | directives earlier last returns =>
    rw [text, List.mem_append, not_or]
    constructor
    · intro hmem
      obtain ⟨d, hd, hfeed⟩ := List.mem_flatMap.mp hmem
      exact h (.inr d) (List.mem_map_of_mem hd) hfeed
    · cases returns <;> decide

theorem filterMap_ordinary? (rows : List OutputLine) :
    rows.filterMap ordinary? = (rows.flatMap origins).filterMap Sum.getLeft? := by
  have hrow : ∀ row : OutputLine, row.origins.filterMap Sum.getLeft? = row.ordinary?.toList := by
    rintro (text | ⟨earlier, last, returns⟩)
    · rfl
    · simp [origins, ordinary?, Function.comp_def]
  rw [List.filterMap_flatMap, List.filterMap_eq_flatMap_toList]
  simp only [hrow]

theorem flatMap_directiveList (rows : List OutputLine) :
    rows.flatMap directiveList = (rows.flatMap origins).filterMap Sum.getRight? := by
  have hrow : ∀ row : OutputLine, row.origins.filterMap Sum.getRight? = row.directiveList := by
    rintro (text | ⟨earlier, last, returns⟩)
    · rfl
    · simp [origins, directiveList, Function.comp_def]
  simp only [List.filterMap_flatMap, hrow]

end OutputLine

/-- **What lines leave of themselves, taken apart at the line feeds.** Before the lines stand the
directives `pending`, without a line feed behind them. -/
theorem exists_outputLines {source : Text} {ls : List SourceLine} {enabled : Bool}
    (pending : List Directive) (hls : ∀ l ∈ ls, l.StandsIn source)
    (hcontinued : Continued enabled ls) (hpending : enabled = true → pending = []) :
    ∃ rows : List OutputLine,
      pending.flatMap (fun d => d.span.extract source) ++ ls.flatMap SourceLine.kept =
        ended (rows.map (OutputLine.text source)) ∧
      rows.flatMap OutputLine.origins = pending.map .inr ++ ls.filterMap SourceLine.origin? := by
  induction ls generalizing enabled pending with
  | nil =>
    obtain rfl := hpending hcontinued
    exact ⟨[], rfl, rfl⟩
  | cons l ls ih =>
    obtain ⟨hsame, hmore⟩ := hcontinued
    have hstands := hls l List.mem_cons_self
    have hrest : ∀ l' ∈ ls, l'.StandsIn source := fun l' hl' => hls l' (List.mem_cons_of_mem l hl')
    obtain ⟨text, directive?, flag⟩ := l
    cases directive? with
    | none =>
      obtain rfl : flag = enabled := hsame rfl
      cases flag with
      | false =>
        -- a line in disabled text leaves nothing
        exact ih pending hrest hmore hpending
      | true =>
        obtain rfl := hpending rfl
        obtain ⟨rows, htext, horigins⟩ := ih [] hrest hmore hpending
        refine ⟨.ordinary text :: rows, ?_, ?_⟩
        · rw [List.map_cons, ended_cons, ← htext]
          simp [SourceLine.kept, OutputLine.text]
        · rw [List.flatMap_cons, horigins]
          rfl
    | some d =>
      have hextract := hstands.extract_eq d rfl
      cases flag with
      | false =>
        obtain ⟨rows, htext, horigins⟩ := ih (pending ++ [d]) hrest hmore nofun
        refine ⟨rows, ?_, ?_⟩
        · rw [← htext]
          simp [SourceLine.kept, hextract]
        · rw [horigins]
          simp [SourceLine.origin?]
      | true =>
        obtain ⟨rows, htext, horigins⟩ := ih [] hrest hmore fun _ => rfl
        refine ⟨.directives pending d (text.getLast? = some '\r') :: rows, ?_, ?_⟩
        · rw [List.map_cons, ended_cons, ← htext]
          simp [SourceLine.kept, OutputLine.text, ending, hextract]
        · rw [List.flatMap_cons, horigins]
          simp [SourceLine.origin?, OutputLine.origins]

/-- What is found again of a line has no line feed of its own. -/
theorem SourceLine.StandsIn.not_mem_originText {source : Text} {l : SourceLine}
    (h : l.StandsIn source) {o : Text ⊕ Directive} (ho : l.origin? = some o) :
    '\n' ∉ originText source o := by
  obtain ⟨text, directive | d, enabled⟩ := l
  · cases enabled with
    | true =>
      cases ho
      exact h.whole
    | false => cases ho
  · cases ho
    intro hfeed
    refine h.whole ?_
    rw [← Directive.bare_append_ending text, ← h.extract_eq d rfl]
    exact List.mem_append_left _ hfeed

/-- What a successful run says of the lines of its source. -/
theorem text_append_feed {env : Environment} {source : Text} {out : Output}
    (h : preprocess env source = .ok out) :
    Directive.items source =
        ((sourceLines (Predicate.holdsIn env) source).filterMap SourceLine.directive?).map .ok ∧
      Continued true (sourceLines (Predicate.holdsIn env) source) ∧
      out.text ++ ['\n'] =
        (sourceLines (Predicate.holdsIn env) source).flatMap SourceLine.kept := by
  obtain ⟨p, hrun, hstart, rfl⟩ := exists_run_of_preprocess h
  obtain ⟨ds, hitems, hnesting⟩ := Progress.exists_directives_of_run hrun
  have hdirectives := directives_cutLines hitems
  have hend : enabledAfter (Predicate.holdsIn env)
      ([] ++ (cutLines 0 (lines source)).2.map Stretch.directive) = true := by
    rw [hdirectives, List.nil_append, enabledAfter_eq hnesting, hstart]
    rfl
  have htext : (p.output source).text = _ :=
    ((layout_cutLines hitems).settled hrun hstart).remainder_eq
  refine ⟨?_, continued_sourceLinesFrom hend, ?_⟩
  · rw [sourceLines, directives_sourceLinesFrom, hdirectives, hitems]
  · rw [htext, List.append_assoc]
    exact kept_cutLines (pieces_ne_nil '\n' source) hend

/-- **No ordinary line is joined with a directive.** Every line of an output is an ordinary line of
the source, or directives that follow each other there, with at most one carriage return behind
them. The ordinary lines are those in enabled text, each once and in order, the directives are all
directives of the source, and lines and directives follow each other as in the source. -/
theorem lines_text_eq_outputLines {env : Environment} {source : Text} {out : Output}
    (h : preprocess env source = .ok out) :
    ∃ rows : List OutputLine,
      lines out.text = rows.map (OutputLine.text source) ∧
      rows.filterMap OutputLine.ordinary? =
        ((sourceLines (Predicate.holdsIn env) source).filter SourceLine.isEnabledText).map
          SourceLine.text ∧
      Directive.items source = (rows.flatMap OutputLine.directiveList).map .ok ∧
      rows.flatMap OutputLine.origins =
        (sourceLines (Predicate.holdsIn env) source).filterMap SourceLine.origin? := by
  obtain ⟨hitems, hcontinued, htext⟩ := text_append_feed h
  have hstands : ∀ l ∈ sourceLines (Predicate.holdsIn env) source, l.StandsIn source :=
    fun l hl => standsIn_of_mem_sourceLines hl
  obtain ⟨rows, hrows, horigins⟩ := exists_outputLines [] hstands hcontinued fun _ => rfl
  rw [List.map_nil, List.nil_append] at horigins
  have hfeed : ∀ line ∈ rows.map (OutputLine.text source), '\n' ∉ line := by
    intro line hline
    obtain ⟨row, hrow, rfl⟩ := List.mem_map.mp hline
    refine OutputLine.not_mem_text fun o ho => ?_
    have hmem : o ∈ rows.flatMap OutputLine.origins := List.mem_flatMap.mpr ⟨row, hrow, ho⟩
    rw [horigins] at hmem
    obtain ⟨l, hl, hlo⟩ := List.mem_filterMap.mp hmem
    exact (hstands l hl).not_mem_originText hlo
  refine ⟨rows, lines_eq_of_ended hfeed (htext.trans hrows), ?_, ?_, horigins⟩
  · rw [OutputLine.filterMap_ordinary?, horigins, SourceLine.filterMap_getLeft?_origin?]
  · rw [OutputLine.flatMap_directiveList, horigins, SourceLine.filterMap_getRight?_origin?, hitems]

/-- A cut takes the line end of a directive along, but not that of the line before it. -/
theorem lines_text_eq_outputLines_disabled :
    ∃ rows : List OutputLine,
      ["a".toList, "//#if false//#endif\r".toList, "c".toList] =
        rows.map (OutputLine.text "a\n//#if false\r\nb\n//#endif\r\nc".toList) ∧
      rows.filterMap OutputLine.ordinary? = ["a".toList, "c".toList] ∧
      rows.flatMap OutputLine.origins =
        [.inl "a".toList, .inr ⟨.ifTag, some "false".toList, ⟨2, 13⟩⟩,
          .inr ⟨.endifTag, none, ⟨17, 25⟩⟩, .inl "c".toList] := by
  have h : preprocess .empty "a\n//#if false\r\nb\n//#endif\r\nc".toList =
      .ok ⟨"a\n//#if false//#endif\r\nc".toList, ⟨[⟨0, 0⟩, ⟨13, 17⟩], 24⟩, 4⟩ := by decide +kernel
  obtain ⟨rows, htext, hordinary, -, horigins⟩ := lines_text_eq_outputLines h
  exact ⟨rows, htext, hordinary.trans (by decide +kernel), horigins.trans (by decide +kernel)⟩

end ConditionalText
