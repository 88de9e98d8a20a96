import ConditionalText.Preprocess
import ConditionalText.Proofs.Cuts
import ConditionalText.Proofs.Directive.Layout
import ConditionalText.Proofs.Nesting.Blocks

/-!
# What preprocessing makes of a text

Preprocessing reads a layout from left to right. The gap behind a directive is judged when the next
directive comes, by the state before it, which is the state after the directive that the gap
follows. `Reached` says what has been settled up to the end of a directive; the gap behind it is
pending.

* `Reached.step`, `Reached.run`: one directive, and all of them.
* `exists_run_of_preprocess`: a successful run ends in the state at the start.
* `preprocess_eq_ok`: what a successful run knows at its end, in terms of the layout alone.
* `text_eq_kept_gaps`: **the output is the head, and of every directive its line with the gap behind
  it where the text is enabled**; what is removed is what is missing.
-/

namespace ConditionalText

open ConditionalText.Text

/-- Whether the text after directives is enabled; after one that fails there is none. -/
def enabledAfter (answer : Decider) (ds : List Directive) : Bool :=
  match Nesting.start.afterAll answer ds with
  | .ok n => n.enabled
  | .error _ => false

/-- What is left of stretches that follow the directives `before`. -/
def keptAfter (answer : Decider) (before : List Directive) : List Stretch → Text
  | [] => []
  | s :: more =>
    s.line ++ ((if enabledAfter answer (before ++ [s.directive]) then s.gap else []) ++
      keptAfter answer (before ++ [s.directive]) more)

/-- The gaps that are removed from stretches that follow the directives `before`. -/
def removedGaps (answer : Decider) (before : List Directive) : List Stretch → List Span
  | [] => []
  | s :: more =>
    (if enabledAfter answer (before ++ [s.directive]) then []
      else [⟨s.directive.span.stop, s.directive.span.stop + byteLength s.gap⟩]) ++
      removedGaps answer (before ++ [s.directive]) more

variable {answer : Decider}

theorem enabledAfter_eq {ds : List Directive} {n : Nesting}
    (h : Nesting.start.afterAll answer ds = .ok n) : enabledAfter answer ds = n.enabled := by
  rw [enabledAfter, h]

/-- Outside all blocks the state is the one at the start. -/
theorem eq_start_of_blocks_nil {ds : List Directive} {n : Nesting}
    (h : Nesting.start.afterAll answer ds = .ok n) (hblocks : n.blocks = []) : n = .start := by
  have hdescribes := describes_openBlocks h
  have hnone : (openBlocks answer ds).reverse = [] := by
    rw [hdescribes.blocks] at hblocks
    cases hbs : (openBlocks answer ds).reverse with
    | nil => rfl
    | cons b outer =>
      rw [hbs] at hblocks
      cases hblocks
  have henabled := hdescribes.enabled
  have hmatched := hdescribes.matched
  rw [hnone] at henabled hmatched
  obtain ⟨blocks, enabled, matched⟩ := n
  obtain rfl : blocks = [] := hblocks
  obtain rfl : enabled = true := henabled
  obtain rfl : matched = false := hmatched
  rfl

namespace Progress

/-- What is settled once the directives `before` have been read, which end with the text `t`: what
is left of it, and which offsets are cut. -/
structure Reached (answer : Decider) (p : Progress) (before : List Directive) (t rest : Text)
    (removed : List Span) : Prop where
  nesting : Nesting.start.afterAll answer before = .ok p.nesting
  position : p.position = byteLength t
  leaves : Cuts.Leaves 0 p.cuts.spans t rest
  covered : ∀ j, Cuts.covers p.cuts.spans j = Cuts.covers removed j
  behind : ∀ s ∈ p.cuts.spans, s.stop < p.position

variable {p p' : Progress} {before : List Directive} {t rest : Text} {removed : List Span}

theorem reached_start : Reached answer .start [] [] [] [] where
  nesting := rfl
  position := rfl
  leaves := .nil 0 []
  covered _ := rfl
  behind _ h := by cases h

theorem step_eq_ok_iff {d : Directive} :
    p.step answer d = .ok p' ↔
      ∃ n, p.nesting.after answer d = .ok n ∧ p' = ⟨n, p.cutTo d.span.start, d.span.stop⟩ := by
  unfold step
  cases p.nesting.after answer d <;> simp [Except.map, eq_comm]

/-! ## One directive -/

theorem Reached.leaves_cutTo (h : Reached answer p before t rest removed) (gap : Text) :
    Cuts.Leaves 0 (p.cutTo (byteLength t + byteLength gap)).spans (t ++ gap)
      (rest ++ if p.nesting.enabled then gap else []) := by
  unfold cutTo
  cases p.nesting.enabled with
  | true => exact h.leaves.keep gap
  | false =>
    rw [h.position, if_neg Bool.false_ne_true, if_neg Bool.false_ne_true, List.append_nil]
    exact h.leaves.cut gap

theorem Reached.covers_cutTo (h : Reached answer p before t rest removed) (gap : Text) (j : Nat) :
    Cuts.covers (p.cutTo (byteLength t + byteLength gap)).spans j =
      Cuts.covers (removed ++ if p.nesting.enabled then []
        else [⟨byteLength t, byteLength t + byteLength gap⟩]) j := by
  unfold cutTo
  rw [Cuts.covers_append, ← h.covered]
  cases p.nesting.enabled with
  | true => exact (Bool.or_false _).symm
  | false =>
    rw [h.position, if_neg Bool.false_ne_true, if_neg Bool.false_ne_true, h.leaves.covers_cut,
      Cuts.covers_cons]
    exact congrArg _ (Bool.or_false _).symm

theorem stop_le_of_mem_cutTo {offset : Nat} (h : ∀ r ∈ p.cuts.spans, r.stop ≤ offset) :
    ∀ s ∈ (p.cutTo offset).spans, s.stop ≤ offset := by
  intro s hs
  unfold cutTo at hs
  split at hs
  · exact h s hs
  · rcases Cuts.stop_of_mem_cut hs with hstop | ⟨r, hr, hstop⟩
    · exact Nat.le_of_eq hstop
    · exact hstop ▸ h r hr

theorem Reached.stop_le_cutTo (h : Reached answer p before t rest removed) {offset : Nat}
    (hoffset : p.position ≤ offset) : ∀ s ∈ (p.cutTo offset).spans, s.stop ≤ offset :=
  stop_le_of_mem_cutTo fun r hr => Nat.le_trans (Nat.le_of_lt (h.behind r hr)) hoffset

/-- **One directive**: the gap before it is kept or cut, its own line is kept. -/
theorem Reached.step (h : Reached answer p before t rest removed) {gap : Text} {s : Stretch}
    (hspan : s.directive.span =
      ⟨byteLength t + byteLength gap, byteLength t + byteLength gap + byteLength s.line⟩)
    (hline : s.line ≠ []) (hstep : p.step answer s.directive = .ok p') :
    Reached answer p' (before ++ [s.directive]) (t ++ gap ++ s.line)
      (rest ++ (if p.nesting.enabled then gap else []) ++ s.line)
      (removed ++ if p.nesting.enabled then []
        else [⟨byteLength t, byteLength t + byteLength gap⟩]) := by
  obtain ⟨n, hafter, rfl⟩ := step_eq_ok_iff.mp hstep
  have hpos := byteLength_pos hline
  have hle : p.position ≤ byteLength t + byteLength gap := by
    rw [h.position]
    exact Nat.le_add_right _ _
  simp only [hspan]
  refine ⟨?_, ?_, (h.leaves_cutTo gap).keep s.line, h.covers_cutTo gap, ?_⟩
  · exact Nesting.afterAll_append_eq_ok_iff.mpr
      ⟨p.nesting, h.nesting, Nesting.afterAll_cons_eq_ok_iff.mpr ⟨n, hafter, rfl⟩⟩
  · rw [byteLength_append, byteLength_append]
  · intro r hr
    have := h.stop_le_cutTo hle r hr
    simp only
    omega

/-! ## All directives -/

/-- A run succeeds only on well-formed items, and its state is that of the directives. -/
theorem exists_directives_of_run {items : List Directive.Item} (h : p.run answer items = .ok p') :
    ∃ ds : List Directive, items = ds.map .ok ∧ p.nesting.afterAll answer ds = .ok p'.nesting := by
  induction items generalizing p with
  | nil =>
    cases h
    exact ⟨[], rfl, rfl⟩
  | cons item items ih =>
    cases item with
    | error e => cases h
    | ok d =>
      rw [run] at h
      cases hstep : p.step answer d with
      | error e =>
        rw [hstep] at h
        cases h
      | ok next =>
        rw [hstep] at h
        obtain ⟨ds, rfl, hds⟩ := ih h
        obtain ⟨n, hafter, rfl⟩ := step_eq_ok_iff.mp hstep
        exact ⟨d :: ds, rfl, Nesting.afterAll_cons_eq_ok_iff.mpr ⟨n, hafter, hds⟩⟩

/-- What is settled at the end of a source. -/
structure Settled (c : Cuts) (source rest : Text) (removed : List Span) : Prop where
  leaves : Cuts.Leaves 0 c.spans source rest
  covered : ∀ j, Cuts.covers c.spans j = Cuts.covers removed j
  behind : ∀ s ∈ c.spans, s.stop < byteLength source

/-- **All directives**, with a gap pending in front of them. The last gap is not judged by a
directive, but the text is enabled at the end. -/
theorem Reached.run {ss : List Stretch} (h : Reached answer p before t rest removed) (gap : Text)
    (hplaced : Placed (byteLength t + byteLength gap) ss)
    (hrun : p.run answer (ss.map fun s => .ok s.directive) = .ok p')
    (henabled : p'.nesting.enabled = true) :
    Settled p'.cuts (t ++ (gap ++ Stretch.whole ss))
      (rest ++ ((if p.nesting.enabled then gap else []) ++ keptAfter answer before ss))
      (removed ++ ((if p.nesting.enabled then []
        else [⟨byteLength t, byteLength t + byteLength gap⟩]) ++
          removedGaps answer before ss)) := by
  induction ss generalizing p before t rest removed gap with
  | nil =>
    cases hrun
    simp only [List.append_nil, Stretch.whole_nil, keptAfter, removedGaps, henabled,
      if_true]
    refine ⟨h.leaves.keep gap, h.covered, fun s hs => ?_⟩
    have hlt := h.behind s hs
    rw [h.position] at hlt
    rw [byteLength_append]
    omega
  | cons s ss ih =>
    obtain ⟨hspan, hline, hmore⟩ := hplaced
    rw [List.map_cons, Progress.run] at hrun
    cases hstep : p.step answer s.directive with
    | error e =>
      rw [hstep] at hrun
      cases hrun
    | ok next =>
      rw [hstep] at hrun
      have hnext := h.step hspan hline hstep
      have hlength : byteLength (t ++ gap ++ s.line) =
          byteLength t + byteLength gap + byteLength s.line := by
        rw [byteLength_append, byteLength_append]
      have hsettled := ih hnext s.gap (by rwa [hlength]) hrun
      have hstop : s.directive.span.stop = byteLength (t ++ gap ++ s.line) := by
        rw [hlength, hspan]
      rw [keptAfter, removedGaps, enabledAfter_eq hnext.nesting, hstop]
      simpa only [List.map_cons, Stretch.whole_cons, List.append_assoc, List.cons_append,
        List.nil_append] using hsettled

/-! ## The end of the text -/

/-- The output of a run that ends outside all blocks. -/
def output (p : Progress) (source : Text) : Output :=
  ⟨p.cuts.remainder source, .ofSpans (p.cuts.kept (byteLength source)), p.cuts.bytes⟩

theorem finish_of_start {source : Text} (h : p.nesting = .start) :
    p.finish source = .ok (p.output source) := by
  have hcuts : p.cutTo (byteLength source) = p.cuts := by rw [cutTo, h]; rfl
  rw [finish, h, hcuts]
  rfl

theorem blocks_nil_of_finish {source : Text} {out : Output} (h : p.finish source = .ok out) :
    p.nesting.blocks = [] := by
  unfold finish Nesting.checkClosed at h
  cases hblocks : p.nesting.blocks with
  | nil => rfl
  | cons block outer =>
    rw [hblocks] at h
    cases h

end Progress

/-- **A successful run ends in the state at the start**, and its cuts are the output. -/
theorem exists_run_of_preprocess {env : Environment} {source : Text} {out : Output}
    (h : preprocess env source = .ok out) :
    ∃ p, Progress.start.run (Predicate.holdsIn env) (Directive.items source) = .ok p ∧
      p.nesting = .start ∧ out = p.output source := by
  unfold preprocess at h
  cases hrun : Progress.start.run (Predicate.holdsIn env) (Directive.items source) with
  | error e =>
    rw [hrun] at h
    cases h
  | ok p =>
    rw [hrun] at h
    replace h : p.finish source = .ok out := h
    obtain ⟨ds, -, hds⟩ := Progress.exists_directives_of_run hrun
    have hstart : p.nesting = .start := eq_start_of_blocks_nil hds (Progress.blocks_nil_of_finish h)
    rw [Progress.finish_of_start hstart] at h
    exact ⟨p, rfl, hstart, (Except.ok.inj h).symm⟩

/-- What a successful run knows at its end, in terms of a layout. -/
theorem Layout.settled {source head : Text} {ss : List Stretch} {p : Progress}
    (h : Layout source head ss)
    (hrun : Progress.start.run answer (Directive.items source) = .ok p)
    (hstart : p.nesting = .start) :
    Progress.Settled p.cuts source (head ++ keptAfter answer [] ss) (removedGaps answer [] ss) := by
  rw [h.items_eq] at hrun
  have hplaced : Placed (byteLength [] + byteLength head) ss := by
    rw [byteLength_nil, Nat.zero_add]
    exact h.placed
  have hsettled := Progress.reached_start.run head hplaced hrun (by rw [hstart]; rfl)
  rw [List.nil_append, List.nil_append, ← h.source_eq] at hsettled
  exact hsettled

/-- **What a successful run knows at its end.** -/
theorem preprocess_eq_ok {env : Environment} {source : Text} {out : Output}
    (h : preprocess env source = .ok out) :
    ∃ head ss cuts n, Layout source head ss ∧
      Nesting.start.afterAll (Predicate.holdsIn env) (ss.map Stretch.directive) = .ok n ∧
      n.enabled = true ∧
      Progress.Settled cuts source (head ++ keptAfter (Predicate.holdsIn env) [] ss)
        (removedGaps (Predicate.holdsIn env) [] ss) ∧
      out = ⟨cuts.remainder source, .ofSpans (cuts.kept (byteLength source)), cuts.bytes⟩ := by
  obtain ⟨p, hrun, hstart, hout⟩ := exists_run_of_preprocess h
  obtain ⟨ds, hitems, hnesting⟩ := Progress.exists_directives_of_run hrun
  obtain ⟨head, ss, hlayout, rfl⟩ := exists_layout hitems
  exact ⟨head, ss, p.cuts, p.nesting, hlayout, hnesting, by rw [hstart]; rfl,
    hlayout.settled hrun hstart, hout⟩

namespace Progress.Settled

variable {c : Cuts} {source rest : Text} {removed : List Span}

theorem remainder_eq (h : Settled c source rest removed) : c.remainder source = rest :=
  h.leaves.remainder_eq

end Progress.Settled

/-- A successful run and what is settled at its end, read from its own cuts. -/
theorem exists_settled_of_preprocess {env : Environment} {source : Text} {out : Output}
    (h : preprocess env source = .ok out) :
    ∃ p, Progress.start.run (Predicate.holdsIn env) (Directive.items source) = .ok p ∧
      p.nesting = .start ∧ out = p.output source ∧
      Progress.Settled p.cuts source out.text p.cuts.spans := by
  obtain ⟨p, hrun, hstart, rfl⟩ := exists_run_of_preprocess h
  obtain ⟨ds, hitems, -⟩ := Progress.exists_directives_of_run hrun
  obtain ⟨head, ss, hlayout, -⟩ := exists_layout hitems
  have hsettled := hlayout.settled hrun hstart
  have htext : (p.output source).text = _ := hsettled.remainder_eq
  exact ⟨p, hrun, hstart, rfl, by rw [htext]; exact hsettled.leaves, fun _ => rfl, hsettled.behind⟩

/-- What is removed from a source and what is left have its length. -/
theorem removedBytes_add {env : Environment} {source : Text} {out : Output}
    (h : preprocess env source = .ok out) :
    out.removedBytes + byteLength out.text = byteLength source := by
  obtain ⟨p, -, -, rfl, hsettled⟩ := exists_settled_of_preprocess h
  exact hsettled.leaves.total_add

/-- **The output is the head, and of every directive its line with the gap behind it where the text
is enabled.** The head and the last gap are always kept. What is removed is what is missing, and
nothing is removed exactly if the output is the source. -/
theorem text_eq_kept_gaps {env : Environment} {source : Text} {out : Output}
    (h : preprocess env source = .ok out) :
    ∃ head ss n, Layout source head ss ∧
      Nesting.start.afterAll (Predicate.holdsIn env) (ss.map Stretch.directive) = .ok n ∧
      out.text = head ++ keptAfter (Predicate.holdsIn env) [] ss ∧
      enabledAfter (Predicate.holdsIn env) (ss.map Stretch.directive) = true ∧
      byteLength out.text ≤ byteLength source ∧
      out.removedBytes = byteLength source - byteLength out.text ∧
      (out.isUnchanged = true ↔ out.text = source) := by
  obtain ⟨head, ss, cuts, n, hlayout, hnesting, henabled, hsettled, hout⟩ := preprocess_eq_ok h
  have htext : out.text = head ++ keptAfter (Predicate.holdsIn env) [] ss := by
    rw [hout]
    exact hsettled.remainder_eq
  have hremoved : out.removedBytes = Span.total cuts.spans := by rw [hout]; rfl
  have htotal := hsettled.leaves.total_add
  rw [← htext] at htotal
  refine ⟨head, ss, n, hlayout, hnesting, htext, by rw [enabledAfter_eq hnesting, henabled], ?_, ?_,
    ?_⟩
  · omega
  · omega
  · rw [Output.isUnchanged, beq_iff_eq, hremoved]
    constructor
    · intro hzero
      exact htext.trans (hsettled.leaves.eq_of_total_eq_zero hzero)
    · intro heq
      rw [heq] at htotal
      exact Nat.add_eq_right.mp htotal

/-- A block that is disabled loses its line, and its directives then touch. -/
theorem text_eq_kept_gaps_disabled :
    ∃ out, preprocess (Table.ofList []) "a\n//#if false\nb\n//#endif\nc".toList = .ok out ∧
      out.text = "a\n//#if false//#endif\nc".toList ∧ out.isUnchanged = false ∧
      ∃ head ss, Layout "a\n//#if false\nb\n//#endif\nc".toList head ss ∧
        out.text = head ++ keptAfter (Predicate.holdsIn (Table.ofList [])) [] ss := by
  have h : preprocess (Table.ofList []) "a\n//#if false\nb\n//#endif\nc".toList =
      .ok ⟨"a\n//#if false//#endif\nc".toList, ⟨[⟨0, 0⟩, ⟨13, 16⟩], 23⟩, 3⟩ := by decide +kernel
  obtain ⟨head, ss, -, hlayout, -, htext, -⟩ := text_eq_kept_gaps h
  exact ⟨_, h, rfl, rfl, head, ss, hlayout, htext⟩

end ConditionalText
