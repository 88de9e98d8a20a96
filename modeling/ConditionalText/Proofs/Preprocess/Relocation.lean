import ConditionalText.Proofs.Preprocess.Output
import Mathlib.Order.Monotone.Basic

/-!
# Moving the directives of a text

If every offset of the items of a text is moved by a function `f` that keeps the order, so is
everything that preprocessing makes of them: the offsets of open blocks, of cuts and of errors. A
run on the moved items may start with cuts of its own (`base`), as long as they do not touch what is
moved.

* `after_relocate`: one directive, and the error if there is one.
* `Relocated.step`, `Relocated.run`: a run and the moved run go in step, with the same directives
  accepted and the same error at the moved offset.
* `Relocated.error`: and whatever goes wrong, at the end of the text too.
-/

namespace ConditionalText

open ConditionalText.Text

/-! ## What has an offset -/

variable (f : Nat → Nat)

def Text.Span.relocate (s : Span) : Span :=
  ⟨f s.start, f s.stop⟩

def Directive.relocate (d : Directive) : Directive :=
  { d with span := d.span.relocate f }

def MalformedDirective.relocate : MalformedDirective → MalformedDirective
  | .missingPredicate tag offset => .missingPredicate tag (f offset)
  | .unexpectedPredicate tag offset text => .unexpectedPredicate tag (f offset) text

def Directive.Item.relocate : Directive.Item → Directive.Item
  | .error e => .error (e.relocate f)
  | .ok d => .ok (d.relocate f)

/-- The same error at the moved offset. -/
def SourceError.relocate : SourceError → SourceError
  | .malformed e => .malformed (e.relocate f)
  | .unexpectedDirective tag offset => .unexpectedDirective tag (f offset)
  | .unterminatedBlock openBlocks offset => .unterminatedBlock openBlocks (f offset)
  | .predicate text offset cause => .predicate text (f offset) cause

def Block.relocate (b : Block) : Block :=
  { b with openedAt := f b.openedAt }

def Nesting.relocate (n : Nesting) : Nesting :=
  { n with blocks := n.blocks.map (Block.relocate f) }

variable {f}

@[simp] theorem SourceError.offset_relocate (e : SourceError) :
    (e.relocate f).offset = f e.offset := by
  cases e with
  | malformed e => cases e <;> rfl
  | _ => rfl

/-! ## One line -/

namespace Directive

/-- Lines that are read alike come to the same item, moved with the ends of the line. -/
theorem ofLine?_relocate {offset offset' : Nat} {line line' : Text}
    (hread : (splitLine? line').map (Prod.map id predicateOf?) =
      (splitLine? line).map (Prod.map id predicateOf?))
    (hstart : f offset = offset')
    (hstop : f (offset + bareLength line) = offset' + bareLength line') :
    ofLine? offset' line' = (ofLine? offset line).map (Item.relocate f) := by
  subst hstart
  unfold ofLine?
  cases h : splitLine? line with
  | none =>
    rw [h] at hread
    rw [Option.map_eq_none_iff.mp hread]
    rfl
  | some parts =>
    rw [h, Option.map_some] at hread
    obtain ⟨parts', hparts', hsame⟩ := Option.map_eq_some_iff.mp hread
    obtain ⟨tag, rest⟩ := parts
    obtain ⟨tag', rest'⟩ := parts'
    obtain ⟨htag, hpredicate⟩ : tag' = tag ∧ predicateOf? rest' = predicateOf? rest :=
      Prod.mk.inj hsame
    simp only [hparts', Option.map_some, htag, hpredicate, ← hstop]
    cases tag.needsPredicate <;> cases predicateOf? rest <;> rfl

theorem map_itemsFrom_cons (offset : Nat) (line : Text) (more : List Text) :
    (itemsFrom offset (line :: more)).map (Item.relocate f) =
      ((ofLine? offset line).map (Item.relocate f)).toList ++
        (itemsFrom (offset + byteLength line + 1) more).map (Item.relocate f) := by
  rw [itemsFrom, List.map_append]
  cases ofLine? offset line <;> rfl

end Directive

/-! ## One directive -/

namespace Nesting

variable {answer : Decider}

theorem ask_relocate (d : Directive) :
    ask answer (d.relocate f) = (ask answer d).mapError (SourceError.relocate f) := by
  unfold ask askM Directive.relocate
  cases d.predicate with
  | none => rfl
  | some text =>
    change (answer text).mapError _ = ((answer text).mapError _).mapError _
    cases answer text <;> rfl

/-- **One directive**: the moved state goes where the state goes, or fails as it does. -/
theorem after_relocate (n : Nesting) (d : Directive) :
    (n.relocate f).after answer (d.relocate f) =
      ((n.after answer d).map (relocate f)).mapError (SourceError.relocate f) := by
  by_cases hif : d.tag = .ifTag
  · rw [after_ifTag (d := d.relocate f) hif, after_ifTag hif, ask_relocate]
    cases ask answer d <;> rfl
  cases hblocks : n.blocks with
  | nil =>
    have hnone : (n.relocate f).blocks = [] := by rw [relocate, hblocks]; rfl
    rw [after_of_blocks_nil (d := d.relocate f) hif hnone, after_of_blocks_nil hif hblocks]
    rfl
  | cons block outer =>
    have hcons : (n.relocate f).blocks = block.relocate f :: outer.map (Block.relocate f) := by
      rw [relocate, hblocks]
      rfl
    cases hd : d.tag with
    | ifTag => exact absurd hd hif
    | elifTag =>
      have hmatched : (n.relocate f).matched = n.matched := rfl
      rw [after_elifTag (d := d.relocate f) hd hcons, after_elifTag hd hblocks, ask_relocate,
        hmatched]
      cases n.matched with
      | true => rfl
      | false => cases ask answer d <;> rfl
    | elseTag =>
      rw [after_elseTag (d := d.relocate f) hd hcons, after_elseTag hd hblocks]
      rfl
    | endifTag =>
      rw [after_endifTag (d := d.relocate f) hd hcons, after_endifTag hd hblocks]
      rfl

theorem checkClosed_relocate (n : Nesting) :
    (n.relocate f).checkClosed = n.checkClosed.mapError (SourceError.relocate f) := by
  obtain ⟨blocks, enabled, matched⟩ := n
  cases blocks with
  | nil => rfl
  | cons block outer => simp [checkClosed, relocate, depth, Block.relocate, Except.mapError,
      SourceError.relocate]

end Nesting

/-! ## Cuts -/

namespace Cuts

theorem addSpan_cons_of_apart {r s : Span} (h : r.stop ≠ s.start) (spans : List Span) :
    addSpan s (r :: spans) = r :: addSpan s spans := by
  cases spans with
  | nil => exact if_neg h
  | cons next more => rfl

theorem addSpan_append_of_apart {base : List Span} {s : Span} (h : ∀ r ∈ base, r.stop ≠ s.start)
    (spans : List Span) : addSpan s (base ++ spans) = base ++ addSpan s spans := by
  induction base with
  | nil => rfl
  | cons r base ih =>
    rw [List.cons_append, addSpan_cons_of_apart (h r List.mem_cons_self),
      ih fun q hq => h q (List.mem_cons_of_mem r hq), List.cons_append]

/-- Moved spans touch where the spans do. -/
theorem addSpan_relocate (hf : f.Injective) (s : Span) (spans : List Span) :
    addSpan (s.relocate f) (spans.map (Span.relocate f)) =
      (addSpan s spans).map (Span.relocate f) := by
  fun_induction addSpan s spans with
  | case1 => rfl
  | case2 last htouch =>
    have htouch' : (last.relocate f).stop = (s.relocate f).start := congrArg f htouch
    exact if_pos htouch'
  | case3 last hapart =>
    have hapart' : (last.relocate f).stop ≠ (s.relocate f).start := fun h => hapart (hf h)
    exact if_neg hapart'
  | case4 first more hmore ih =>
    obtain ⟨next, rest, rfl⟩ := List.exists_cons_of_ne_nil fun h => hmore h
    exact congrArg (first.relocate f :: ·) ih

/-- Cutting a moved span moves the cut, behind cuts that it does not touch. -/
theorem spans_cut_relocate (hf : StrictMono f) {base : List Span}
    (hbase : ∀ r ∈ base, ∀ offset, r.stop ≠ f offset) {c c' : Cuts}
    (h : c'.spans = base ++ c.spans.map (Span.relocate f)) (s : Span) :
    (c'.cut (s.relocate f)).spans = base ++ (c.cut s).spans.map (Span.relocate f) := by
  have hempty : (s.relocate f).isEmpty = s.isEmpty := by
    rw [Bool.eq_iff_iff, Span.isEmpty_iff, Span.isEmpty_iff]
    exact hf.le_iff_le
  unfold cut
  rw [hempty]
  split
  · exact h
  · rw [h, addSpan_append_of_apart fun r hr => hbase r hr s.start, addSpan_relocate hf.injective]

end Cuts

/-! ## All directives -/

namespace Progress

variable {answer : Decider} {p q : Progress} {base : List Span}

/-- `p` is `q` moved, with cuts of its own before. Where the text is enabled, the position does not
count. -/
structure Relocated (f : Nat → Nat) (base : List Span) (p q : Progress) : Prop where
  nesting : p.nesting = q.nesting.relocate f
  spans : p.cuts.spans = base ++ q.cuts.spans.map (Span.relocate f)
  position : q.nesting.enabled = false → p.position = f q.position

/-- A run may be moved if `f` keeps the order and nothing moved touches the cuts before. -/
structure Movable (f : Nat → Nat) (base : List Span) : Prop where
  strictMono : StrictMono f
  apart : ∀ r ∈ base, ∀ offset, r.stop ≠ f offset

/-- In the state at the start, a run starts anew, wherever its position is. -/
theorem relocated_of_start (h : p.nesting = .start) : Relocated f p.cuts.spans p .start where
  nesting := h
  spans := (List.append_nil _).symm
  position h := by cases h

theorem Relocated.spans_cutTo (h : Relocated f base p q) (hf : Movable f base) (offset : Nat) :
    (p.cutTo (f offset)).spans = base ++ (q.cutTo offset).spans.map (Span.relocate f) := by
  have henabled : p.nesting.enabled = q.nesting.enabled := by rw [h.nesting]; rfl
  unfold cutTo
  rw [henabled]
  cases hq : q.nesting.enabled with
  | true => exact h.spans
  | false =>
    rw [h.position hq, if_neg Bool.false_ne_true, if_neg Bool.false_ne_true]
    exact Cuts.spans_cut_relocate hf.strictMono hf.apart h.spans ⟨q.position, offset⟩

/-- **One directive** on both sides. -/
theorem Relocated.step (h : Relocated f base p q) (hf : Movable f base) (d : Directive) :
    (∃ e, q.step answer d = .error e ∧ p.step answer (d.relocate f) = .error (e.relocate f)) ∨
      ∃ q' p', q.step answer d = .ok q' ∧ p.step answer (d.relocate f) = .ok p' ∧
        Relocated f base p' q' := by
  unfold Progress.step
  rw [h.nesting, Nesting.after_relocate]
  cases q.nesting.after answer d with
  | error e => exact .inl ⟨e, rfl, rfl⟩
  | ok n => exact .inr ⟨_, _, rfl, rfl, rfl, h.spans_cutTo hf d.span.start, fun _ => rfl⟩

/-- **All directives** on both sides. -/
theorem Relocated.run (h : Relocated f base p q) (hf : Movable f base)
    (items : List Directive.Item) :
    (∃ e, q.run answer items = .error e ∧
      p.run answer (items.map (Directive.Item.relocate f)) = .error (e.relocate f)) ∨
      ∃ q' p', q.run answer items = .ok q' ∧
        p.run answer (items.map (Directive.Item.relocate f)) = .ok p' ∧
        Relocated f base p' q' := by
  induction items generalizing p q with
  | nil => exact .inr ⟨q, p, rfl, rfl, h⟩
  | cons item items ih =>
    cases item with
    | error e => exact .inl ⟨_, rfl, rfl⟩
    | ok d =>
      simp only [List.map_cons, Directive.Item.relocate, Progress.run]
      rcases h.step hf d with ⟨e, hq, hp⟩ | ⟨q', p', hq, hp, hnext⟩
      · rw [hq, hp]
        exact .inl ⟨e, rfl, rfl⟩
      · rw [hq, hp]
        exact ih hnext

theorem Relocated.exists_run (h : Relocated f base p q) (hf : Movable f base)
    {items : List Directive.Item} {q' : Progress} (hq : q.run answer items = .ok q') :
    ∃ p', p.run answer (items.map (Directive.Item.relocate f)) = .ok p' ∧
      Relocated f base p' q' := by
  rcases h.run hf items with ⟨e, hq', -⟩ | ⟨q'', p', hq', hp, hend⟩
  · cases hq.symm.trans hq'
  · cases hq.symm.trans hq'
    exact ⟨p', hp, hend⟩

/-! ## The end of the text -/

theorem Relocated.eq_start (h : Relocated f base p q) (hq : q.nesting = .start) :
    p.nesting = .start := by
  rw [h.nesting, hq]
  rfl

/-- **What goes wrong goes wrong at the moved offset**, on the way or at the end. -/
theorem Relocated.error (h : Relocated f base p q) (hf : Movable f base)
    {items : List Directive.Item} {source : Text} {e : SourceError}
    (he : ((q.run answer items).bind fun last => last.finish source) = .error e) (moved : Text) :
    ((p.run answer (items.map (Directive.Item.relocate f))).bind fun last => last.finish moved) =
      .error (e.relocate f) := by
  rcases h.run hf items with ⟨e', hq, hp⟩ | ⟨q', p', hq, hp, hend⟩
  · rw [hq] at he
    rw [hp]
    cases he
    rfl
  · rw [hq] at he
    rw [hp]
    change p'.finish moved = _
    replace he : q'.finish source = .error e := he
    unfold finish at he ⊢
    rw [hend.nesting, Nesting.checkClosed_relocate]
    cases hclosed : q'.nesting.checkClosed with
    | error e' =>
      rw [hclosed] at he
      cases he
      rfl
    | ok _ =>
      rw [hclosed] at he
      cases he

end Progress

end ConditionalText
