import ConditionalText.Proofs.Nesting.Run
import Mathlib.Data.List.Induction

/-!
# What the state of a nesting means

A `Nesting` keeps one flag for all blocks. Here every block is read on its own instead: `OpenBlock`
is what the directives after an `if` make of its block, with a memory of its own, and
`openBlocks` are the blocks that a list of directives leaves open. A block inside another one takes
no part in the reading of the outer one, except that closing it clears the outer memory.

* `describes_openBlocks`: **the flat state describes the open blocks** after every accepted run. The
  one flag is the memory of the innermost block. That is enough because an outer memory is cleared
  before it can be looked at again.
* `map_opening_openBlocks`: the open blocks are those of the `if`s that no later directive closes.
* `state_describes_prefix`: all of it for every initial part of a run, with the predicates asked.
-/

namespace ConditionalText

/-! ## The `if`s that are left open -/

/-- Whether directives close the block around them, in which `inner` blocks are open already. -/
def closesBlock : Nat → List Directive → Bool
  | _, [] => false
  | inner, d :: more =>
    match d.tag, inner with
    | .ifTag, inner => closesBlock (inner + 1) more
    | .endifTag, 0 => true
    | .endifTag, inner + 1 => closesBlock inner more
    | _, inner => closesBlock inner more

/-- The `if`s that no later directive closes, in order. -/
def unmatchedIfs : List Directive → List Directive
  | [] => []
  | d :: more =>
    if d.tag = .ifTag ∧ closesBlock 0 more = false then d :: unmatchedIfs more
    else unmatchedIfs more

/-! ## One block on its own -/

/-- A block that has not been closed. -/
structure OpenBlock where
  /-- Its `if`. -/
  opening : Directive
  /-- Whether its current branch is taken. -/
  taken : Bool
  /-- The last answer to a predicate of its own, forgotten when a block inside it is closed. -/
  memory : Bool
  /-- The number of blocks open inside it. -/
  inner : Nat
  deriving DecidableEq, Repr

/-- Whether the predicate of a directive holds. -/
def Directive.holds (answer : Decider) (d : Directive) : Bool :=
  (d.predicate.bind fun text => (answer text).toOption).getD false

namespace OpenBlock

/-- The block of an `if`. -/
def start (answer : Decider) (d : Directive) : OpenBlock :=
  ⟨d, d.holds answer, d.holds answer, 0⟩

/-- The block after one more directive, nothing if that closes it. Directives inside inner blocks
only count these blocks. -/
def after (answer : Decider) (b : OpenBlock) (d : Directive) : Option OpenBlock :=
  match d.tag, b.inner with
  | .ifTag, inner => some { b with inner := inner + 1 }
  | .elifTag, 0 =>
    -- the predicate is asked only while the memory is false
    some { b with
      taken := !b.memory && d.holds answer
      memory := b.memory || d.holds answer }
  | .elseTag, 0 => some { b with taken := !b.memory }
  | .endifTag, 0 => none
  | .endifTag, 1 => some { b with inner := 0, memory := false }
  | .endifTag, inner + 2 => some { b with inner := inner + 1 }
  | .elifTag, _ + 1 => some b
  | .elseTag, _ + 1 => some b

end OpenBlock

/-- The blocks that directives leave open, outermost first. -/
def openBlocks (answer : Decider) : List Directive → List OpenBlock
  | [] => []
  | d :: more =>
    if d.tag = .ifTag then
      (more.foldlM (OpenBlock.after answer) (.start answer d)).toList ++ openBlocks answer more
    else openBlocks answer more

/-- The memory of the last block of a list. -/
def innermostMemory (bs : List OpenBlock) : Bool :=
  (bs.getLast?.map OpenBlock.memory).getD false

/-- Whether a directive that follows others asks its predicate: an `if` always does, an `elif` while
the memory of its block is false. -/
def asksAfter (answer : Decider) (before : List Directive) (d : Directive) : Bool :=
  match d.tag with
  | .ifTag => true
  | .elifTag => !innermostMemory (openBlocks answer before)
  | .elseTag | .endifTag => false

/-- The directives that ask their predicate, where those of `before` come first. -/
def askers (answer : Decider) (before : List Directive) : List Directive → List Directive
  | [] => []
  | d :: more =>
    if asksAfter answer before d then d :: askers answer (before ++ [d]) more
    else askers answer (before ++ [d]) more

variable {answer : Decider}

/-! ## The blocks that stay open are those of the unmatched `if`s -/

namespace OpenBlock

variable {b b' : OpenBlock} {d : Directive}

theorem closesBlock_of_after_eq_none (h : b.after answer d = none) (ds : List Directive) :
    closesBlock b.inner (d :: ds) = true := by
  unfold after at h
  split at h <;> simp_all [closesBlock]

/-- A directive that does not close a block leaves it the same `if`, and what closes the block
afterwards is seen from the number of blocks open inside it. -/
theorem closesBlock_of_after_eq_some (h : b.after answer d = some b') (ds : List Directive) :
    b'.opening = b.opening ∧ closesBlock b.inner (d :: ds) = closesBlock b'.inner ds := by
  unfold after at h
  split at h <;> simp only [Option.some.injEq, reduceCtorEq] at h <;> subst h <;>
    simp_all [closesBlock]

theorem foldlM_after_eq_none_iff (ds : List Directive) (b : OpenBlock) :
    ds.foldlM (after answer) b = none ↔ closesBlock b.inner ds = true := by
  induction ds generalizing b with
  | nil => simp [closesBlock]
  | cons d ds ih =>
    rw [List.foldlM_cons]
    cases h : b.after answer d with
    | none => simp [closesBlock_of_after_eq_none h]
    | some b' => simpa [(closesBlock_of_after_eq_some h ds).2] using ih b'

theorem opening_of_foldlM_after {ds : List Directive} (h : ds.foldlM (after answer) b = some b') :
    b'.opening = b.opening := by
  induction ds generalizing b with
  | nil => simp_all
  | cons d ds ih =>
    rw [List.foldlM_cons] at h
    cases hd : b.after answer d with
    | none => simp [hd] at h
    | some next =>
      rw [hd] at h
      exact (ih h).trans (closesBlock_of_after_eq_some hd ds).1

end OpenBlock

theorem map_opening_openBlocks (answer : Decider) (ds : List Directive) :
    (openBlocks answer ds).map OpenBlock.opening = unmatchedIfs ds := by
  induction ds with
  | nil => rfl
  | cons d ds ih =>
    have hiff : ds.foldlM (OpenBlock.after answer) (.start answer d) = none ↔
        closesBlock 0 ds = true := OpenBlock.foldlM_after_eq_none_iff ds _
    rw [openBlocks, unmatchedIfs]
    by_cases hif : d.tag = .ifTag
    · cases hfold : ds.foldlM (OpenBlock.after answer) (.start answer d) with
      | none =>
        have hclosed : closesBlock 0 ds = true := hiff.mp hfold
        simp [hif, hclosed, ih]
      | some b =>
        have hopen : closesBlock 0 ds = false := by
          rw [← Bool.not_eq_true]
          exact fun h => by simp [hiff.mpr h] at hfold
        simp [hif, hopen, ih, OpenBlock.opening_of_foldlM_after hfold, OpenBlock.start]
    · simp [hif, ih]

/-- What one more directive makes of the open blocks: each goes on by itself, and an `if` opens
one more. -/
theorem openBlocks_snoc (ds : List Directive) (d : Directive) :
    openBlocks answer (ds ++ [d]) =
      (openBlocks answer ds).filterMap (fun b => b.after answer d) ++
        if d.tag = .ifTag then [.start answer d] else [] := by
  induction ds with
  | nil => simp [openBlocks]
  | cons first ds ih =>
    by_cases hif : first.tag = .ifTag
    · rw [List.cons_append, openBlocks, if_pos hif, openBlocks, if_pos hif, ih, List.foldlM_append]
      cases ds.foldlM (OpenBlock.after answer) (.start answer first) with
      | none => simp
      | some b => cases hb : b.after answer d <;> simp [hb]
    · rw [List.cons_append, openBlocks, if_neg hif, openBlocks, if_neg hif, ih]

/-! ## The flat state describes the open blocks -/

/-- The blocks, innermost first, hold `i`, `i + 1`, … open blocks each. -/
def Numbered : Nat → List OpenBlock → Prop
  | _, [] => True
  | i, b :: outer => b.inner = i ∧ Numbered (i + 1) outer

/-- The frames of blocks, innermost first: each knows whether all blocks around it are taken. -/
def frames : List OpenBlock → List Block
  | [] => []
  | b :: outer => ⟨outer.all OpenBlock.taken, b.opening.span.start⟩ :: frames outer

/-- A state describes blocks, given innermost first. -/
structure Describes (n : Nesting) (bs : List OpenBlock) : Prop where
  numbered : Numbered 0 bs
  blocks : n.blocks = frames bs
  enabled : n.enabled = bs.all OpenBlock.taken
  matched : n.matched = (bs.head?.map OpenBlock.memory).getD false

/-- A change of blocks that keeps their `if`s and branches keeps their frames. -/
theorem frames_map {f : OpenBlock → OpenBlock} (hopening : ∀ b, (f b).opening = b.opening)
    (htaken : ∀ b, (f b).taken = b.taken) (bs : List OpenBlock) :
    frames (bs.map f) = frames bs ∧
      (bs.map f).all OpenBlock.taken = bs.all OpenBlock.taken := by
  induction bs with
  | nil => exact ⟨rfl, rfl⟩
  | cons b bs ih =>
    obtain ⟨hframes, hall⟩ := ih
    simp only [List.map_cons, frames, List.all_cons, hopening, htaken, hframes, hall, and_self]

/-- One more block open inside. -/
def OpenBlock.enter (b : OpenBlock) : OpenBlock := { b with inner := b.inner + 1 }

/-- One block less open inside; the last one clears the memory. -/
def OpenBlock.leave (b : OpenBlock) : OpenBlock :=
  { b with inner := b.inner - 1, memory := if b.inner = 1 then false else b.memory }

variable {d : Directive} {bs : List OpenBlock}

theorem filterMap_after_ifTag (htag : d.tag = .ifTag) (bs : List OpenBlock) :
    bs.filterMap (fun b => b.after answer d) = bs.map OpenBlock.enter := by
  have hafter : (fun b : OpenBlock => b.after answer d) = some ∘ OpenBlock.enter := by
    funext b
    unfold OpenBlock.after
    rw [htag]
    rfl
  rw [hafter, List.filterMap_eq_map]

theorem numbered_map_enter {i : Nat} (h : Numbered i bs) :
    Numbered (i + 1) (bs.map OpenBlock.enter) := by
  induction bs generalizing i with
  | nil => trivial
  | cons b bs ih => exact ⟨by rw [← h.1]; rfl, ih h.2⟩

/-- The branches of outer blocks are not touched by what stands in the innermost one. -/
theorem filterMap_after_of_numbered_succ {i : Nat} (htag : d.tag = .elifTag ∨ d.tag = .elseTag)
    (h : Numbered (i + 1) bs) : bs.filterMap (fun b => b.after answer d) = bs := by
  induction bs generalizing i with
  | nil => rfl
  | cons b bs ih =>
    have hb : b.after answer d = some b := by
      unfold OpenBlock.after
      rw [h.1]
      rcases htag with htag | htag <;> rw [htag]
    rw [List.filterMap_cons, hb, ih h.2]

/-- Closing the innermost block leaves it in the outer ones. -/
theorem filterMap_after_endifTag {i : Nat} (htag : d.tag = .endifTag) (h : Numbered (i + 1) bs) :
    bs.filterMap (fun b => b.after answer d) = bs.map OpenBlock.leave ∧
      Numbered i (bs.map OpenBlock.leave) := by
  induction bs generalizing i with
  | nil => exact ⟨rfl, trivial⟩
  | cons b bs ih =>
    obtain ⟨hmap, hnumbered⟩ := ih h.2
    have hb : b.after answer d = some b.leave := by
      unfold OpenBlock.after OpenBlock.leave
      rw [htag, h.1]
      cases i <;> rfl
    rw [List.filterMap_cons, hb, hmap]
    exact ⟨rfl, by rw [OpenBlock.leave, h.1]; rfl, hnumbered⟩

theorem holds_of_decided {text : Text} {holds : Bool} (hp : d.predicate = some text)
    (ha : answer text = .ok holds) : d.holds answer = holds := by
  simp [Directive.holds, hp, ha, Except.toOption]

/-- What one more directive makes of the open blocks, innermost first. -/
def nextBlocks (answer : Decider) (d : Directive) (bs : List OpenBlock) : List OpenBlock :=
  (if d.tag = .ifTag then [.start answer d] else []) ++ bs.filterMap fun b => b.after answer d

/-- Inside a block the description starts with that block. -/
theorem Describes.exists_cons {n : Nesting} {block : Block} {outer : List Block}
    (h : Describes n bs) (hblocks : n.blocks = block :: outer) :
    ∃ b rest, bs = b :: rest ∧ b.inner = 0 ∧ Numbered 1 rest ∧
      block.outerEnabled = rest.all OpenBlock.taken ∧ outer = frames rest ∧
      n.matched = b.memory := by
  cases bs with
  | nil =>
    rw [h.blocks] at hblocks
    cases hblocks
  | cons b rest =>
    have hframes : frames (b :: rest) = block :: outer := h.blocks.symm.trans hblocks
    obtain ⟨rfl, rfl⟩ := List.cons.inj hframes
    exact ⟨b, rest, rfl, h.numbered.1, h.numbered.2, rfl, rfl, h.matched⟩

/-- **Every accepted directive keeps the description.** -/
theorem Describes.step {n n' : Nesting} (h : Describes n bs) (hstep : n.Step answer d n') :
    Describes n' (nextBlocks answer d bs) := by
  unfold nextBlocks
  cases hstep with
  | opened htag hp ha =>
    obtain ⟨hframes, hall⟩ := frames_map (f := OpenBlock.enter) (fun _ => rfl) (fun _ => rfl) bs
    rw [if_pos htag, filterMap_after_ifTag htag, List.singleton_append]
    have hholds := holds_of_decided hp ha
    refine ⟨⟨rfl, numbered_map_enter h.numbered⟩, ?_, ?_, ?_⟩
    · simp only [frames, hframes, hall, h.blocks, h.enabled, OpenBlock.start]
    · simp only [List.all_cons, hall, h.enabled, OpenBlock.start, hholds, Bool.and_comm]
    · simp only [List.head?_cons, OpenBlock.start, hholds, Option.map_some, Option.getD_some]
  | skipped htag hblocks hm =>
    obtain ⟨b, rest, rfl, hinner, hrest, -, -, hmemory⟩ := h.exists_cons hblocks
    have hb : b.after answer d = some { b with taken := false } := by
      simp [OpenBlock.after, htag, hinner, ← hmemory, hm]
    rw [if_neg (by rw [htag]; decide), List.nil_append, List.filterMap_cons, hb,
      filterMap_after_of_numbered_succ (.inl htag) hrest]
    exact ⟨⟨hinner, hrest⟩, h.blocks, rfl, hmemory⟩
  | asked htag hblocks hm hp ha =>
    obtain ⟨b, rest, rfl, hinner, hrest, houter, -, hmemory⟩ := h.exists_cons hblocks
    have hb : b.after answer d =
        some { b with taken := d.holds answer, memory := d.holds answer } := by
      simp [OpenBlock.after, htag, hinner, ← hmemory, hm]
    rw [if_neg (by rw [htag]; decide), List.nil_append, List.filterMap_cons, hb,
      filterMap_after_of_numbered_succ (.inl htag) hrest, holds_of_decided hp ha]
    exact ⟨⟨hinner, hrest⟩, h.blocks, by rw [houter, Bool.and_comm]; rfl, rfl⟩
  | otherwise htag hblocks =>
    obtain ⟨b, rest, rfl, hinner, hrest, houter, -, hmemory⟩ := h.exists_cons hblocks
    have hb : b.after answer d = some { b with taken := !b.memory } := by
      simp [OpenBlock.after, htag, hinner]
    rw [if_neg (by rw [htag]; decide), List.nil_append, List.filterMap_cons, hb,
      filterMap_after_of_numbered_succ (.inr htag) hrest]
    exact ⟨⟨hinner, hrest⟩, h.blocks, by rw [houter, hmemory, Bool.and_comm]; rfl, hmemory⟩
  | closed htag hblocks =>
    obtain ⟨b, rest, rfl, hinner, hrest, houter, hframes, -⟩ := h.exists_cons hblocks
    have hb : b.after answer d = none := by simp [OpenBlock.after, htag, hinner]
    obtain ⟨hmap, hnumbered⟩ := filterMap_after_endifTag htag hrest
    obtain ⟨hsame, hall⟩ := frames_map (f := OpenBlock.leave) (fun _ => rfl) (fun _ => rfl) rest
    rw [if_neg (by rw [htag]; decide), List.nil_append, List.filterMap_cons, hb, hmap]
    refine ⟨hnumbered, hframes.trans hsame.symm, houter.trans hall.symm, ?_⟩
    -- the block that is innermost now held one open block, so its memory is cleared
    cases rest with
    | nil => rfl
    | cons c rest => simp [OpenBlock.leave, hrest.1]

theorem reverse_openBlocks_snoc (ds : List Directive) (d : Directive) :
    (openBlocks answer (ds ++ [d])).reverse =
      nextBlocks answer d (openBlocks answer ds).reverse := by
  rw [openBlocks_snoc, List.reverse_append, ← List.filterMap_reverse, nextBlocks]
  split <;> rfl

/-- **The flat state describes the open blocks** after every accepted run. -/
theorem describes_openBlocks {ds : List Directive} {n : Nesting}
    (h : Nesting.start.afterAll answer ds = .ok n) :
    Describes n (openBlocks answer ds).reverse := by
  induction ds using List.reverseRecOn generalizing n with
  | nil =>
    cases h
    exact ⟨trivial, rfl, rfl, rfl⟩
  | append_singleton ds d ih =>
    obtain ⟨middle, hds, hd⟩ := Nesting.afterAll_append_eq_ok_iff.mp h
    obtain ⟨_, hafter, hlast⟩ := Nesting.afterAll_cons_eq_ok_iff.mp hd
    cases hlast
    rw [reverse_openBlocks_snoc]
    exact (ih hds).step (Nesting.after_eq_ok_iff.mp hafter)

/-! ## What is asked -/

theorem Describes.matched_eq_innermostMemory {n : Nesting} (h : Describes n bs.reverse) :
    n.matched = innermostMemory bs := by
  rw [h.matched, List.head?_reverse, innermostMemory]

/-- An accepted directive asks its predicate once if it is one that asks, and nothing otherwise. -/
theorem map_some_question? {n n' : Nesting} {before : List Directive}
    (h : Describes n (openBlocks answer before).reverse) (hstep : n.Step answer d n') :
    (n.question? d).toList.map some = if asksAfter answer before d then [d.predicate] else [] := by
  have hmemory := h.matched_eq_innermostMemory
  unfold Nesting.question? asksAfter
  rw [← hmemory]
  cases hstep with
  | opened htag hp ha => simp [htag, hp]
  | skipped htag hblocks hm => simp [htag, hblocks, hm]
  | asked htag hblocks hm hp ha => simp [htag, hblocks, hm, hp]
  | otherwise htag hblocks => simp [htag, hblocks]
  | closed htag hblocks => simp [htag, hblocks]

theorem map_some_questions {n n' : Nesting} {before ds : List Directive}
    (hbefore : Nesting.start.afterAll answer before = .ok n)
    (hds : n.afterAll answer ds = .ok n') :
    (n.questions answer ds).map some = (askers answer before ds).map Directive.predicate := by
  induction ds generalizing before n with
  | nil => rfl
  | cons d ds ih =>
    obtain ⟨next, hd, hrest⟩ := Nesting.afterAll_cons_eq_ok_iff.mp hds
    have hnext : Nesting.start.afterAll answer (before ++ [d]) = .ok next :=
      Nesting.afterAll_append_eq_ok_iff.mpr
        ⟨n, hbefore, Nesting.afterAll_cons_eq_ok_iff.mpr ⟨next, hd, rfl⟩⟩
    have hquestion := map_some_question? (describes_openBlocks hbefore)
      (Nesting.after_eq_ok_iff.mp hd)
    rw [Nesting.questions, hd, List.map_append, hquestion, ih hnext hrest, askers]
    split <;> rfl

/-! ## Every initial part of a run -/

theorem map_openedAt_frames (bs : List OpenBlock) :
    (frames bs).map Block.openedAt = bs.map fun b => b.opening.span.start := by
  induction bs with
  | nil => rfl
  | cons b bs ih => rw [frames, List.map_cons, ih, List.map_cons]

theorem outerEnabled_of_getElem?_frames {i : Nat} {block : Block}
    (h : (frames bs.reverse).reverse[i]? = some block) :
    block.outerEnabled = (bs.take i).all OpenBlock.taken := by
  induction bs using List.reverseRecOn with
  | nil => cases h
  | append_singleton bs b ih =>
    have hlength : (frames bs.reverse).reverse.length = bs.length := by
      simpa using congrArg List.length (map_openedAt_frames bs.reverse)
    rw [List.reverse_append, List.reverse_singleton, List.singleton_append, frames,
      List.reverse_cons, List.getElem?_append, hlength] at h
    split at h
    · next hi => rw [ih h, List.take_append_of_le_length (Nat.le_of_lt hi)]
    · next hi =>
      rw [List.getElem?_singleton] at h
      split at h
      · next hzero =>
        have hi' : i = bs.length := by omega
        rw [← Option.some.inj h, hi', List.take_left, List.all_reverse]
      · cases h

/-- **After every initial part of an accepted run the state describes the blocks that it leaves
open.** The frames are the unmatched `if`s in order; the text is enabled while every open block is
in a branch that is taken, and each frame says the same of the blocks around its own; the one flag
is the memory of the innermost block; and the decider has been called once for each `if`, once for
each `elif` met while the memory of its block was false, and for nothing else. -/
theorem state_describes_prefix {ds before : List Directive} {last : Nesting}
    (hrun : Nesting.start.afterAll answer ds = .ok last) (hbefore : before <+: ds) :
    ∃ n calls,
      (Nesting.start.afterAllM (Nesting.noting answer) before).run [] = (.ok n, calls) ∧
      Nesting.start.afterAll answer before = .ok n ∧
      n.blocks.reverse.map Block.openedAt = (unmatchedIfs before).map (fun d => d.span.start) ∧
      n.depth = (unmatchedIfs before).length ∧
      (openBlocks answer before).map OpenBlock.opening = unmatchedIfs before ∧
      n.enabled = (openBlocks answer before).all OpenBlock.taken ∧
      (∀ i block, n.blocks.reverse[i]? = some block →
        block.outerEnabled = ((openBlocks answer before).take i).all OpenBlock.taken) ∧
      n.matched = innermostMemory (openBlocks answer before) ∧
      calls.map some = (askers answer [] before).map Directive.predicate := by
  obtain ⟨rest, rfl⟩ := hbefore
  obtain ⟨n, hn, -⟩ := Nesting.afterAll_append_eq_ok_iff.mp hrun
  have h := describes_openBlocks hn
  have hopened : n.blocks.reverse.map Block.openedAt =
      (unmatchedIfs before).map (fun d => d.span.start) := by
    rw [h.blocks, List.map_reverse, map_openedAt_frames, ← List.map_reverse, List.reverse_reverse,
      ← map_opening_openBlocks answer, List.map_map]
    rfl
  refine ⟨n, Nesting.start.questions answer before, ?_, hn, hopened, ?_,
    map_opening_openBlocks answer before, ?_, ?_, h.matched_eq_innermostMemory,
    map_some_questions rfl hn⟩
  · rw [Nesting.afterAllM_noting, hn, List.nil_append]
  · simpa [Nesting.depth] using congrArg List.length hopened
  · rw [h.enabled, List.all_reverse]
  · intro i block hblock
    rw [h.blocks] at hblock
    exact outerEnabled_of_getElem?_frames hblock

/-- A block with a block inside it: closing the inner one lets the outer one ask again. -/
def nestedRun : List Directive :=
  [⟨.ifTag, some ['t'], ⟨0, 5⟩⟩, ⟨.ifTag, some ['f'], ⟨6, 11⟩⟩, ⟨.endifTag, none, ⟨12, 17⟩⟩,
    ⟨.elifTag, some ['t'], ⟨18, 23⟩⟩, ⟨.elseTag, none, ⟨24, 29⟩⟩]

theorem state_describes_prefix_nestedRun :
    ∃ n calls, (Nesting.start.afterAllM (Nesting.noting fun t => .ok (t == ['t']))
        (nestedRun.take 4)).run [] = (.ok n, calls) ∧
      n.depth = 1 ∧ n.enabled = true ∧ calls.map some = [some ['t'], some ['f'], some ['t']] := by
  have hall : Nesting.start.afterAll (fun t => .ok (t == ['t'])) nestedRun =
      .ok ⟨[⟨true, 0⟩], false, true⟩ := rfl
  obtain ⟨n, calls, hrun, -, -, hdepth, -, henabled, -, -, hcalls⟩ :=
    state_describes_prefix hall (List.take_prefix 4 nestedRun)
  exact ⟨n, calls, hrun, hdepth, henabled, hcalls⟩

end ConditionalText
