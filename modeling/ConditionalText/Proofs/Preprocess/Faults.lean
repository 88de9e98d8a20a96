import ConditionalText.Preprocess
import ConditionalText.Proofs.Directive.Lines
import ConditionalText.Proofs.Nesting.Blocks

/-!
# What can go wrong, and what is reported

A directive line goes wrong in one of three ways: it has no predicate though it needs one or has one
though it takes none, it does not have its place among the blocks that the lines before it leave
open, or its predicate is asked and has no answer. `Fault` says which error each of these is, in this
order if there is more than one. The conditions speak of the lines alone; the state of the nesting
does not appear in them.

* `depth_add_closed`: the number of open blocks is that of the `if`s less that of the `endif`s.
* `exists_step`, `Fault.run_cons`: a faultless line is a step, and a fault is the error of its line.
* `run_of_faultless`, `Fault.run`: the same for all lines, up to the first fault.
* `preprocess_first_fault`: **preprocessing succeeds exactly if no line is at fault and all blocks
  are closed**; else it reports the first fault, or the innermost block left open, always at the
  start of a directive line.
-/

namespace ConditionalText

open ConditionalText.Text
open ConditionalText.Directive (directiveLines)

/-! ## Faults -/

namespace DirectiveLine

/-- The directive that a well-formed line is. -/
def directive (l : DirectiveLine) : Directive :=
  { tag := l.tag, predicate := l.predicate, span := ⟨l.offset, l.stop⟩ }

/-- A line has a predicate exactly if its keyword takes one. -/
def WellFormed (l : DirectiveLine) : Prop :=
  l.predicate.isSome = l.tag.needsPredicate

end DirectiveLine

/-- The number of blocks that lines open. -/
def opened (ls : List DirectiveLine) : Nat :=
  ls.countP (·.tag = .ifTag)

/-- The number of blocks that lines close. -/
def closed (ls : List DirectiveLine) : Nat :=
  ls.countP (·.tag = .endifTag)

namespace DirectiveLine

variable (answer : Decider) (before : List DirectiveLine) (l : DirectiveLine)

/-- A line that follows others has its place: no more blocks are closed than have been opened, and an
`elif` or `else` stands inside a block. -/
def InPlace : Prop :=
  closed (before ++ [l]) ≤ opened (before ++ [l]) ∧
    (l.tag = .elifTag ∨ l.tag = .elseTag → closed before < opened before)

/-- Whether a line that follows others asks its predicate. -/
def asks : Bool :=
  asksAfter answer (before.map directive) l.directive

/-- If the predicate is asked, it has an answer. -/
def Answered : Prop :=
  l.asks answer before = true → ∀ text, l.predicate = some text → ∃ holds, answer text = .ok holds

/-- Nothing is wrong with a line that follows others. -/
structure Faultless : Prop where
  wellFormed : l.WellFormed
  inPlace : l.InPlace before
  answered : l.Answered answer before

/-- What is wrong with a line that follows faultless ones. -/
inductive Fault : SourceError → Prop
  | missing (needed : l.tag.needsPredicate = true) (absent : l.predicate = none) :
      Fault (.malformed (.missingPredicate l.tag l.offset))
  | unexpected {text : Text} (unneeded : l.tag.needsPredicate = false)
      (found : l.predicate = some text) :
      Fault (.malformed (.unexpectedPredicate l.tag l.offset text))
  | outOfPlace (wellFormed : l.WellFormed) (outside : ¬l.InPlace before) :
      Fault (.unexpectedDirective l.tag l.offset)
  | unanswered {text : Text} {cause : Predicate.Error} (wellFormed : l.WellFormed)
      (inPlace : l.InPlace before) (asks : l.asks answer before = true)
      (predicate : l.predicate = some text) (failed : answer text = .error cause) :
      Fault (.predicate text l.offset cause)

end DirectiveLine

/-- No line is at fault. -/
def AllFaultless (answer : Decider) (ls : List DirectiveLine) : Prop :=
  ∀ before l after, ls = before ++ l :: after → l.Faultless answer before

variable {answer : Decider} {ls before : List DirectiveLine} {l : DirectiveLine} {e : SourceError}

namespace DirectiveLine

theorem faultless_or_fault (answer : Decider) (before : List DirectiveLine) (l : DirectiveLine) :
    l.Faultless answer before ∨ ∃ e, l.Fault answer before e := by
  by_cases hform : l.WellFormed
  · by_cases hplace : l.InPlace before
    · by_cases hanswered : l.Answered answer before
      · exact .inl ⟨hform, hplace, hanswered⟩
      · simp only [Answered, not_forall] at hanswered
        obtain ⟨hasks, text, htext, hnone⟩ := hanswered
        cases hanswer : answer text with
        | ok holds => exact absurd ⟨holds, hanswer⟩ hnone
        | error cause => exact .inr ⟨_, .unanswered hform hplace hasks htext hanswer⟩
    · exact .inr ⟨_, .outOfPlace hform hplace⟩
  · unfold WellFormed at hform
    cases hneeds : l.tag.needsPredicate with
    | true =>
      have hnone : l.predicate = none := by simpa [hneeds] using hform
      exact .inr ⟨_, .missing hneeds hnone⟩
    | false =>
      have hsome : l.predicate ≠ none := by simpa [hneeds] using hform
      obtain ⟨text, htext⟩ := Option.ne_none_iff_exists'.mp hsome
      exact .inr ⟨_, .unexpected hneeds htext⟩

/-- Every error of a line stands at its start. -/
theorem Fault.offset_eq (h : l.Fault answer before e) : e.offset = l.offset := by
  cases h <;> rfl

theorem item_of_wellFormed (h : l.WellFormed) : l.item = .ok l.directive := by
  unfold WellFormed at h
  unfold item directive
  cases hneeds : l.tag.needsPredicate with
  | true =>
    rw [hneeds] at h
    obtain ⟨text, htext⟩ := Option.isSome_iff_exists.mp h
    simp [htext]
  | false =>
    rw [hneeds] at h
    have hnone : l.predicate = none := Option.not_isSome_iff_eq_none.mp (by rw [h]; decide)
    simp [hnone]

end DirectiveLine

/-! ## The number of open blocks -/

theorem opened_snoc : opened (before ++ [l]) = opened before + if l.tag = .ifTag then 1 else 0 := by
  simp [opened, List.countP_append, List.countP_cons]

theorem closed_snoc :
    closed (before ++ [l]) = closed before + if l.tag = .endifTag then 1 else 0 := by
  simp [closed, List.countP_append, List.countP_cons]

/-- **The number of open blocks is that of the `if`s less that of the `endif`s.** -/
theorem depth_add_closed {n : Nesting}
    (h : Nesting.start.afterAll answer (ls.map DirectiveLine.directive) = .ok n) :
    n.blocks.length + closed ls = opened ls := by
  induction ls using List.reverseRecOn generalizing n with
  | nil =>
    cases h
    rfl
  | append_singleton before l ih =>
    rw [List.map_append] at h
    obtain ⟨middle, hbefore, hl⟩ := Nesting.afterAll_append_eq_ok_iff.mp h
    obtain ⟨_, hafter, hlast⟩ := Nesting.afterAll_cons_eq_ok_iff.mp hl
    cases hlast
    have hdepth := ih hbefore
    rw [opened_snoc, closed_snoc]
    cases Nesting.after_eq_ok_iff.mp hafter with
    | opened htag hp ha =>
      obtain htag : l.tag = .ifTag := htag
      simp only [htag, if_true, reduceCtorEq, if_false, List.length_cons]
      omega
    | skipped htag hblocks hm =>
      obtain htag : l.tag = .elifTag := htag
      simp only [htag, reduceCtorEq, if_false]
      omega
    | asked htag hblocks hm hp ha =>
      obtain htag : l.tag = .elifTag := htag
      simp only [htag, reduceCtorEq, if_false]
      omega
    | otherwise htag hblocks =>
      obtain htag : l.tag = .elseTag := htag
      simp only [htag, reduceCtorEq, if_false]
      omega
    | closed htag hblocks =>
      obtain htag : l.tag = .endifTag := htag
      rw [hblocks, List.length_cons] at hdepth
      simp only [htag, if_true, reduceCtorEq, if_false]
      omega

/-! ## One line -/

section Line

variable {n : Nesting}

/-- A line has its place exactly if it opens a block or one is open. -/
theorem inPlace_iff
    (hn : Nesting.start.afterAll answer (before.map DirectiveLine.directive) = .ok n) :
    l.InPlace before ↔ l.tag = .ifTag ∨ n.blocks ≠ [] := by
  have hdepth := depth_add_closed hn
  have hblocks : n.blocks ≠ [] ↔ closed before < opened before := by
    rw [← List.length_pos_iff]
    omega
  rw [DirectiveLine.InPlace, opened_snoc, closed_snoc, hblocks]
  cases htag : l.tag <;> simp <;> omega

/-- An asked predicate is the question that the state puts. -/
theorem asks_iff
    (hn : Nesting.start.afterAll answer (before.map DirectiveLine.directive) = .ok n) :
    l.asks answer before = true ↔ l.tag = .ifTag ∨ l.tag = .elifTag ∧ n.matched = false := by
  have hmemory := (describes_openBlocks hn).matched_eq_innermostMemory
  have htag : l.directive.tag = l.tag := rfl
  unfold DirectiveLine.asks asksAfter
  rw [← hmemory, htag]
  cases l.tag <;> simp

/-- **A faultless line is a step.** -/
theorem exists_step
    (hn : Nesting.start.afterAll answer (before.map DirectiveLine.directive) = .ok n)
    (h : l.Faultless answer before) : ∃ next, n.after answer l.directive = .ok next := by
  have hplace := (inPlace_iff hn).mp h.inPlace
  have hblocks : l.tag ≠ .ifTag → ∃ block outer, n.blocks = block :: outer := fun htag =>
    List.exists_cons_of_ne_nil (hplace.resolve_left htag)
  have hform := h.wellFormed
  have hanswered : l.asks answer before = true → l.tag.needsPredicate = true →
      ∃ text holds, l.predicate = some text ∧ answer text = .ok holds := by
    intro hasks hneeds
    rw [DirectiveLine.WellFormed, hneeds] at hform
    obtain ⟨text, htext⟩ := Option.isSome_iff_exists.mp hform
    obtain ⟨holds, hholds⟩ := h.answered hasks text htext
    exact ⟨text, holds, htext, hholds⟩
  cases htag : l.tag with
  | ifTag =>
    obtain ⟨text, holds, htext, hholds⟩ :=
      hanswered ((asks_iff hn).mpr (.inl htag)) (by rw [htag]; rfl)
    exact ⟨_, Nesting.after_eq_ok_iff.mpr (.opened htag htext hholds)⟩
  | elifTag =>
    obtain ⟨block, outer, hcons⟩ := hblocks (by rw [htag]; decide)
    cases hmatched : n.matched with
    | true => exact ⟨_, Nesting.after_eq_ok_iff.mpr (.skipped htag hcons hmatched)⟩
    | false =>
      obtain ⟨text, holds, htext, hholds⟩ :=
        hanswered ((asks_iff hn).mpr (.inr ⟨htag, hmatched⟩)) (by rw [htag]; rfl)
      exact ⟨_, Nesting.after_eq_ok_iff.mpr (.asked htag hcons hmatched htext hholds)⟩
  | elseTag =>
    obtain ⟨block, outer, hcons⟩ := hblocks (by rw [htag]; decide)
    exact ⟨_, Nesting.after_eq_ok_iff.mpr (.otherwise htag hcons)⟩
  | endifTag =>
    obtain ⟨block, outer, hcons⟩ := hblocks (by rw [htag]; decide)
    exact ⟨_, Nesting.after_eq_ok_iff.mpr (.closed htag hcons)⟩

theorem ask_eq_error {d : Directive} {text : Text} {cause : Predicate.Error}
    (hp : d.predicate = some text) (ha : answer text = .error cause) :
    Nesting.ask answer d = .error (.predicate text d.span.start cause) := by
  unfold Nesting.ask Nesting.askM
  rw [hp]
  change (answer text).mapError _ = _
  rw [ha]
  rfl

/-- **A fault is the error of its line**, whatever follows. -/
theorem DirectiveLine.Fault.run_cons {p : Progress}
    (hn : Nesting.start.afterAll answer (before.map DirectiveLine.directive) = .ok p.nesting)
    (h : l.Fault answer before e) (more : List Directive.Item) :
    p.run answer (l.item :: more) = .error e := by
  have hafter : ∀ err, l.WellFormed → p.nesting.after answer l.directive = .error err →
      p.run answer (l.item :: more) = .error err := by
    intro err hform herr
    rw [item_of_wellFormed hform, Progress.run, Progress.step, herr]
    rfl
  cases h with
  | missing hneeds hnone =>
    have hitem : l.item = .error (.missingPredicate l.tag l.offset) := by
      simp [item, hneeds, hnone]
    rw [hitem, Progress.run]
  | @unexpected text hneeds hsome =>
    have hitem : l.item = .error (.unexpectedPredicate l.tag l.offset text) := by
      simp [item, hneeds, hsome]
    rw [hitem, Progress.run]
  | outOfPlace hform hplace =>
    rw [inPlace_iff hn, not_or, not_not] at hplace
    exact hafter _ hform (Nesting.after_of_blocks_nil hplace.1 hplace.2)
  | @unanswered text cause hform hplace hasks htext herror =>
    have hask : Nesting.ask answer l.directive = .error (.predicate text l.offset cause) :=
      ask_eq_error htext herror
    refine hafter _ hform ?_
    rcases (asks_iff hn).mp hasks with htag | ⟨htag, hmatched⟩
    · rw [Nesting.after_ifTag htag, hask]
      rfl
    · have hne : l.tag ≠ .ifTag := by rw [htag]; decide
      obtain ⟨block, outer, hcons⟩ :=
        List.exists_cons_of_ne_nil (((inPlace_iff hn).mp hplace).resolve_left hne)
      rw [Nesting.after_elifTag htag hcons, if_neg (by rw [hmatched]; decide), hask]
      rfl

end Line

/-! ## All lines -/

theorem AllFaultless.snoc (h : AllFaultless answer (before ++ [l])) :
    AllFaultless answer before ∧ l.Faultless answer before := by
  refine ⟨fun earlier m later hbefore => ?_, h before l [] rfl⟩
  exact h earlier m (later ++ [l]) (by rw [hbefore, List.append_assoc]; rfl)

/-- The three conditions on a line, each for all lines. -/
theorem allFaultless_iff :
    AllFaultless answer ls ↔
      (∀ l ∈ ls, l.WellFormed) ∧
      (∀ before l after, ls = before ++ l :: after → l.InPlace before) ∧
      ∀ before l after, ls = before ++ l :: after → l.Answered answer before := by
  constructor
  · intro h
    refine ⟨fun l hl => ?_, fun before l after hls => (h before l after hls).inPlace,
      fun before l after hls => (h before l after hls).answered⟩
    obtain ⟨before, after, hls⟩ := List.append_of_mem hl
    exact (h before l after hls).wellFormed
  · rintro ⟨hform, hplace, hanswered⟩ before l after hls
    have hmem : l ∈ ls := by
      rw [hls]
      exact List.mem_append_right before List.mem_cons_self
    exact ⟨hform l hmem, hplace before l after hls, hanswered before l after hls⟩

/-- Either no line is at fault or there is a first one that is. -/
theorem allFaultless_or_first_fault (answer : Decider) (ls : List DirectiveLine) :
    AllFaultless answer ls ∨
      ∃ before l after e, ls = before ++ l :: after ∧ AllFaultless answer before ∧
        l.Fault answer before e := by
  induction ls using List.reverseRecOn with
  | nil => exact .inl fun before l after h => by simp at h
  | append_singleton ls last ih =>
    rcases ih with hls | ⟨before, l, after, e, rfl, hbefore, hfault⟩
    · rcases last.faultless_or_fault answer ls with hlast | ⟨e, hfault⟩
      · refine .inl fun before l after h => ?_
        rcases List.eq_nil_or_concat after with rfl | ⟨middle, m, rfl⟩
        · obtain ⟨rfl, hl⟩ := List.append_inj' h rfl
          obtain ⟨rfl, -⟩ := List.cons.inj hl
          exact hlast
        · have hlast' : ls ++ [last] = before ++ l :: middle ++ [m] := by simpa using h
          exact hls before l middle (List.append_inj' hlast' rfl).1
      · exact .inr ⟨ls, last, [], e, rfl, hls, hfault⟩
    · exact .inr ⟨before, l, after ++ [last], e, by simp, hbefore, hfault⟩

theorem run_append (p : Progress) (a b : List Directive.Item) :
    p.run answer (a ++ b) = (p.run answer a).bind fun next => next.run answer b := by
  induction a generalizing p with
  | nil => rfl
  | cons item a ih =>
    cases item with
    | error e => rfl
    | ok d =>
      rw [List.cons_append, Progress.run, Progress.run]
      cases p.step answer d with
      | error e => rfl
      | ok next => exact ih next

/-- Faultless lines are read to their end. -/
theorem run_of_faultless (h : AllFaultless answer ls) :
    ∃ p, Progress.start.run answer (ls.map DirectiveLine.item) = .ok p ∧
      Nesting.start.afterAll answer (ls.map DirectiveLine.directive) = .ok p.nesting := by
  induction ls using List.reverseRecOn with
  | nil => exact ⟨_, rfl, rfl⟩
  | append_singleton before l ih =>
    obtain ⟨hbefore, hl⟩ := h.snoc
    obtain ⟨p, hrun, hnesting⟩ := ih hbefore
    obtain ⟨next, hnext⟩ := exists_step hnesting hl
    refine ⟨⟨next, p.cutTo l.offset, l.stop⟩, ?_, ?_⟩
    · rw [List.map_append, run_append, hrun]
      change p.run answer [l.item] = _
      rw [DirectiveLine.item_of_wellFormed hl.wellFormed, Progress.run, Progress.step, hnext]
      rfl
    · rw [List.map_append, Nesting.afterAll_append, hnesting]
      change p.nesting.afterAll answer [l.directive] = _
      rw [Nesting.afterAll_cons, hnext]
      rfl

/-- **The first fault is what a run reports.** -/
theorem DirectiveLine.Fault.run (h : l.Fault answer before e) (hbefore : AllFaultless answer before)
    (after : List DirectiveLine) :
    Progress.start.run answer ((before ++ l :: after).map DirectiveLine.item) = .error e := by
  obtain ⟨p, hrun, hnesting⟩ := run_of_faultless hbefore
  rw [List.map_append, run_append, hrun]
  exact h.run_cons hnesting (after.map DirectiveLine.item)

/-! ## The end of the text -/

theorem sublist_unmatchedIfs (ds : List Directive) : (unmatchedIfs ds).Sublist ds := by
  induction ds with
  | nil => exact List.Sublist.refl []
  | cons d ds ih =>
    rw [unmatchedIfs]
    split
    · exact ih.cons_cons d
    · exact ih.cons d

/-- The open blocks, innermost first, start where the unmatched `if`s do. -/
theorem map_openedAt_blocks {ds : List Directive} {n : Nesting}
    (h : Nesting.start.afterAll answer ds = .ok n) :
    n.blocks.map Block.openedAt = (unmatchedIfs ds).reverse.map fun d => d.span.start := by
  have hblocks := (describes_openBlocks h).blocks
  rw [hblocks, map_openedAt_frames, ← map_opening_openBlocks answer, ← List.map_reverse,
    List.map_map]
  rfl

/-- A block left open is reported with the number of unmatched `if`s and the start of the last. -/
theorem checkClosed_of_blocks_ne_nil {ds : List Directive} {n : Nesting}
    (h : Nesting.start.afterAll answer ds = .ok n) (hblocks : n.blocks ≠ []) :
    ∃ last, (unmatchedIfs ds).getLast? = some last ∧
      n.checkClosed = .error (.unterminatedBlock (unmatchedIfs ds).length last.span.start) := by
  obtain ⟨block, outer, hcons⟩ := List.exists_cons_of_ne_nil hblocks
  have hopened := map_openedAt_blocks h
  have hlength : n.depth = (unmatchedIfs ds).length := by
    simpa [Nesting.depth] using congrArg List.length hopened
  rw [hcons, List.map_cons] at hopened
  obtain ⟨last, earlier, hreverse, hlast, -⟩ := List.map_eq_cons_iff.mp hopened.symm
  refine ⟨last, ?_, ?_⟩
  · rw [← List.head?_reverse, hreverse]
    rfl
  · unfold Nesting.checkClosed
    rw [hcons]
    simp only [hlength, hlast]

/-! ## Preprocessing -/

section Preprocess

variable {env : Environment} {source : Text}

theorem preprocess_of_fault {after : List DirectiveLine}
    (hlines : directiveLines source = before ++ l :: after)
    (hbefore : AllFaultless (Predicate.holdsIn env) before)
    (h : l.Fault (Predicate.holdsIn env) before e) : preprocess env source = .error e := by
  rw [preprocess, Directive.items_eq_directiveLines, hlines, h.run hbefore]
  rfl

/-- Without any fault, what is left to go wrong is a block left open. -/
theorem preprocess_of_faultless
    (h : AllFaultless (Predicate.holdsIn env) (directiveLines source)) :
    (closed (directiveLines source) = opened (directiveLines source) ∧
        ∃ out, preprocess env source = .ok out) ∨
      (closed (directiveLines source) ≠ opened (directiveLines source) ∧
        ∃ last ∈ (unmatchedIfs ((directiveLines source).map DirectiveLine.directive)).getLast?,
          preprocess env source = .error (.unterminatedBlock
            (unmatchedIfs ((directiveLines source).map DirectiveLine.directive)).length
            last.span.start)) := by
  obtain ⟨p, hrun, hnesting⟩ := run_of_faultless h
  have hdepth := depth_add_closed hnesting
  rw [preprocess, Directive.items_eq_directiveLines, hrun]
  change _ ∧ (∃ out, p.finish source = .ok out) ∨ _ ∧ ∃ last ∈ _, p.finish source = _
  unfold Progress.finish
  by_cases hblocks : p.nesting.blocks = []
  · have hclosed : p.nesting.checkClosed = .ok () := by
      unfold Nesting.checkClosed
      rw [hblocks]
    rw [hblocks, List.length_nil, Nat.zero_add] at hdepth
    rw [hclosed]
    exact .inl ⟨hdepth, _, rfl⟩
  · obtain ⟨last, hlast, hopen⟩ := checkClosed_of_blocks_ne_nil hnesting hblocks
    have hpos := List.length_pos_iff.mpr hblocks
    rw [hopen]
    exact .inr ⟨by omega, last, hlast, rfl⟩

theorem exists_output_iff :
    (∃ out, preprocess env source = .ok out) ↔
      AllFaultless (Predicate.holdsIn env) (directiveLines source) ∧
        closed (directiveLines source) = opened (directiveLines source) := by
  constructor
  · rintro ⟨out, hout⟩
    -- success excludes a first fault, so every line is faultless
    have hall : AllFaultless (Predicate.holdsIn env) (directiveLines source) := by
      rcases allFaultless_or_first_fault (Predicate.holdsIn env) (directiveLines source) with
        hall | ⟨before, l, after, e, hlines, hbefore, hfault⟩
      · exact hall
      · rw [preprocess_of_fault hlines hbefore hfault] at hout
        cases hout
    rcases preprocess_of_faultless hall with ⟨hclosed, -⟩ | ⟨-, last, -, herror⟩
    · exact ⟨hall, hclosed⟩
    · rw [herror] at hout
      cases hout
  · rintro ⟨hall, hclosed⟩
    rcases preprocess_of_faultless hall with ⟨-, hout⟩ | ⟨hopen, -⟩
    · exact hout
    · exact absurd hclosed hopen

/-- A directive line starts at column 1 of the line with its number. -/
theorem locate_directiveLine (h : l ∈ directiveLines source) :
    locate source l.offset = ⟨l.number, 1⟩ := by
  obtain ⟨⟨textBefore, behind, hline, hoffset, hnumber⟩, -⟩ := Directive.mem_directiveLines_iff.mp h
  rw [hoffset, hline.locate, hnumber]

/-- Every error stands at the start of a directive line. -/
theorem exists_line_of_error (h : preprocess env source = .error e) :
    ∃ l ∈ directiveLines source, e.offset = l.offset := by
  rcases allFaultless_or_first_fault (Predicate.holdsIn env) (directiveLines source) with
    hall | ⟨before, l, after, fault, hlines, hbefore, hfault⟩
  · rcases preprocess_of_faultless hall with ⟨-, out, hout⟩ | ⟨-, last, hlast, herror⟩
    · rw [h] at hout
      cases hout
    · obtain ⟨l, hl, rfl⟩ := List.mem_map.mp
        ((sublist_unmatchedIfs _).mem (List.mem_of_getLast? hlast))
      refine ⟨l, hl, ?_⟩
      rw [Except.error.inj (h.symm.trans herror)]
      rfl
  · have herror := preprocess_of_fault hlines hbefore hfault
    refine ⟨l, by rw [hlines]; exact List.mem_append_right _ List.mem_cons_self, ?_⟩
    rw [Except.error.inj (h.symm.trans herror)]
    exact hfault.offset_eq

end Preprocess

/-- **Preprocessing succeeds exactly if no line is at fault and all blocks are closed.** Otherwise it
reports the first line at fault, where the form of a line counts before its place and its place
before its predicate; and without any such line the number of blocks left open and the start of the
innermost one. Every error stands at the start of a directive line, which is column 1 of it. -/
theorem preprocess_first_fault (env : Environment) (source : Text) :
    ((∃ out, preprocess env source = .ok out) ↔
      (∀ l ∈ directiveLines source, l.WellFormed) ∧
      (∀ before l after, directiveLines source = before ++ l :: after → l.InPlace before) ∧
      (∀ before l after, directiveLines source = before ++ l :: after →
        l.Answered (Predicate.holdsIn env) before) ∧
      closed (directiveLines source) = opened (directiveLines source)) ∧
    (∀ before l after, directiveLines source = before ++ l :: after →
      AllFaultless (Predicate.holdsIn env) before → ¬l.Faultless (Predicate.holdsIn env) before →
        ∃ e, l.Fault (Predicate.holdsIn env) before e ∧ preprocess env source = .error e) ∧
    (AllFaultless (Predicate.holdsIn env) (directiveLines source) →
      closed (directiveLines source) ≠ opened (directiveLines source) →
        ∃ last ∈ (unmatchedIfs ((directiveLines source).map DirectiveLine.directive)).getLast?,
          preprocess env source = .error (.unterminatedBlock
            (unmatchedIfs ((directiveLines source).map DirectiveLine.directive)).length
            last.span.start)) ∧
    ∀ e, preprocess env source = .error e →
      ∃ l ∈ directiveLines source, e.offset = l.offset ∧
        locate source e.offset = ⟨l.number, 1⟩ := by
  refine ⟨?_, ?_, fun hall hopen => ?_, fun e he => ?_⟩
  · rw [exists_output_iff, allFaultless_iff, and_assoc, and_assoc]
  · intro before l after hlines hbefore hnot
    rcases l.faultless_or_fault (Predicate.holdsIn env) before with hok | ⟨e, hfault⟩
    · exact absurd hok hnot
    · exact ⟨e, hfault, preprocess_of_fault hlines hbefore hfault⟩
  · rcases preprocess_of_faultless hall with ⟨hclosed, -⟩ | ⟨-, hlast⟩
    · exact absurd hclosed hopen
    · exact hlast
  · obtain ⟨l, hl, hoffset⟩ := exists_line_of_error he
    exact ⟨l, hl, hoffset, by rw [hoffset, locate_directiveLine hl]⟩

/-- A line that is wrong in two ways is wrong in its form first. -/
example : preprocess .empty "a\n//#endif b".toList =
    .error (.malformed (.unexpectedPredicate .endifTag 2 ['b'])) := by
  decide

end ConditionalText
