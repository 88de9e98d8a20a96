import ConditionalText.Proofs.Preprocess.Checked
import ConditionalText.Proofs.Preprocess.Offsets

/-!
# Cutting marked spans

Spans are marked one after another, some of them empty, and each is cut as it comes. `Marked` is
what holds after every call: the cuts are in order, strictly apart, and cover what has been marked.
What lies between them follows from that: `Ordered` cuts leave the gaps of what they cover, where a
gap is a stretch of uncovered offsets that cannot be made longer (`IsGap`).

* `Marked.cut`, `marked_foldl`: one call, and any number of calls.
* `mem_keptFrom_iff`: **the kept spans are the gaps.**
* `Ordered.add_total`: cuts and kept spans share out the text.
* `cutAll_represents_marks`: **after every call the cuts represent the marks**, and what is left of
  a text is the text without the marked bytes.
-/

namespace ConditionalText

open ConditionalText.Text

namespace Cuts

variable {lo hi : Nat} {spans : List Span} {s : Span}

/-! ## One cut -/

namespace Ordered

theorem mono (h : Ordered lo hi spans) {hi' : Nat} (hle : hi ≤ hi') : Ordered lo hi' spans := by
  induction h with
  | nil hlo => exact .nil (Nat.le_trans hlo hle)
  | cons hbehind hnonempty _ ih => exact .cons hbehind hnonempty (ih hle)

theorem of_append {more : List Span} (h : Ordered lo hi (spans ++ more)) : Ordered lo hi spans := by
  induction spans generalizing lo with
  | nil => exact .nil h.le
  | cons r spans ih =>
    cases h with
    | cons hbehind hnonempty hmore => exact .cons hbehind hnonempty (ih hmore)

/-- One more span at the end: those before it end where it starts. -/
theorem concat_iff :
    Ordered lo hi (spans ++ [s]) ↔ Ordered lo s.start spans ∧ s.start < s.stop ∧ s.stop ≤ hi := by
  induction spans generalizing lo with
  | nil =>
    constructor
    · intro h
      cases h with
      | cons hbehind hnonempty hend => exact ⟨.nil hbehind, hnonempty, hend.le⟩
    · rintro ⟨hbefore, hnonempty, hle⟩
      exact .cons hbefore.le hnonempty (.nil hle)
  | cons r spans ih =>
    constructor
    · intro h
      cases h with
      | cons hbehind hnonempty hmore =>
        obtain ⟨hbefore, hlast⟩ := ih.mp hmore
        exact ⟨.cons hbehind hnonempty hbefore, hlast⟩
    · rintro ⟨hbefore, hlast⟩
      cases hbefore with
      | cons hbehind hnonempty hmore =>
        exact .cons hbehind hnonempty (ih.mpr ⟨hmore, hlast⟩)

theorem stop_le (h : Ordered lo hi spans) : ∀ r ∈ spans, r.stop ≤ hi := by
  induction h with
  | nil => simp
  | cons _ _ more ih =>
    intro r hr
    rcases List.mem_cons.mp hr with rfl | hr
    · exact more.le
    · exact ih r hr

theorem addSpan (h : Ordered lo s.start spans) (hs : s.start < s.stop) :
    Ordered lo s.stop (Cuts.addSpan s spans) := by
  fun_induction Cuts.addSpan s spans generalizing lo with
  | case1 => exact .cons h.le hs (.nil (Nat.le_refl _))
  | case2 last htouch =>
    cases h with
    | cons hbehind hnonempty _ =>
      exact .cons hbehind (by simp only; omega) (.nil (Nat.le_refl _))
  | case3 last hapart =>
    cases h with
    | cons hbehind hnonempty more =>
      exact .cons hbehind hnonempty (.cons more.le hs (.nil (Nat.le_refl _)))
  | case4 first more hmore ih =>
    cases h with
    | cons hbehind hnonempty hrest => exact .cons hbehind hnonempty (ih hrest)

end Ordered

theorem start_of_mem_addSpan {r : Span} (h : r ∈ Cuts.addSpan s spans) :
    r.start = s.start ∨ ∃ q ∈ spans, r.start = q.start := by
  fun_induction Cuts.addSpan s spans with
  | case1 => exact .inl (List.mem_singleton.mp h ▸ rfl)
  | case2 last htouch =>
    exact .inr ⟨last, List.mem_cons_self, List.mem_singleton.mp h ▸ rfl⟩
  | case3 last hapart =>
    rcases List.mem_cons.mp h with rfl | h
    · exact .inr ⟨r, List.mem_cons_self, rfl⟩
    · exact .inl (List.mem_singleton.mp h ▸ rfl)
  | case4 first more hmore ih =>
    rcases List.mem_cons.mp h with rfl | h
    · exact .inr ⟨r, List.mem_cons_self, rfl⟩
    · refine (ih h).imp_right ?_
      rintro ⟨q, hq, hstart⟩
      exact ⟨q, List.mem_cons_of_mem _ hq, hstart⟩

/-- Joining spans that touch keeps the cuts strictly apart. -/
theorem pairwise_addSpan (h : Ordered lo s.start spans)
    (hapart : spans.Pairwise fun r q => r.stop < q.start) :
    (Cuts.addSpan s spans).Pairwise fun r q => r.stop < q.start := by
  fun_induction Cuts.addSpan s spans generalizing lo with
  | case1 => exact List.pairwise_singleton _ _
  | case2 last htouch => exact List.pairwise_singleton _ _
  | case3 last hne =>
    have hle := h.stop_le last List.mem_cons_self
    exact List.pairwise_pair.mpr (Nat.lt_of_le_of_ne hle hne)
  | case4 first more hmore ih =>
    cases h with
    | cons hbehind hnonempty hrest =>
      obtain ⟨hfirst, hmoreApart⟩ := List.pairwise_cons.mp hapart
      refine .cons (fun q hq => ?_) (ih hrest hmoreApart)
      rcases start_of_mem_addSpan hq with hstart | ⟨p, hp, hstart⟩
      · -- there is a span between the first one and the new one
        obtain ⟨p, hp⟩ := List.exists_mem_of_ne_nil more fun hnil => hmore (by rw [hnil])
        have := hfirst p hp
        have := hrest.start_lt_stop p hp
        have := hrest.stop_le p hp
        omega
      · rw [hstart]
        exact hfirst p hp

theorem fitsIn_addSpan {t : Text} (hspans : ∀ r ∈ spans, r.FitsIn t) (hs : s.FitsIn t) :
    ∀ r ∈ Cuts.addSpan s spans, r.FitsIn t := by
  intro r hr
  constructor
  · rcases start_of_mem_addSpan hr with hstart | ⟨q, hq, hstart⟩
    · rw [hstart]
      exact hs.1
    · rw [hstart]
      exact (hspans q hq).1
  · rcases stop_of_mem_addSpan hr with hstop | ⟨q, hq, hstop⟩
    · rw [hstop]
      exact hs.2
    · rw [hstop]
      exact (hspans q hq).2

/-! ## A run of cuts -/

/-- The marks that are not empty. -/
def solid (marks : List Span) : List Span :=
  marks.filter fun s => !s.isEmpty

/-- What has been cut once some spans have been marked. -/
structure Marked (marks : List Span) (c : Cuts) : Prop where
  ordered : ∀ hi, Ordered 0 hi (solid marks) → Ordered 0 hi c.spans
  apart : c.spans.Pairwise fun r s => r.stop < s.start
  covers_eq : ∀ j, covers c.spans j = covers marks j
  fitsIn : ∀ t, (∀ m ∈ solid marks, m.FitsIn t) → ∀ s ∈ c.spans, s.FitsIn t

theorem marked_nil : Marked [] empty where
  ordered _ h := h
  apart := .nil
  covers_eq _ := rfl
  fitsIn _ _ _ hs := by cases hs

theorem solid_concat_of_isEmpty {m : Span} (h : m.isEmpty = true) (marks : List Span) :
    solid (marks ++ [m]) = solid marks := by
  simp [solid, h]

theorem solid_concat_of_not_isEmpty {m : Span} (h : ¬m.isEmpty = true) (marks : List Span) :
    solid (marks ++ [m]) = solid marks ++ [m] := by
  simp [solid, h]

theorem covers_concat (marks : List Span) (m : Span) (j : Nat) :
    covers (marks ++ [m]) j = (covers marks j || m.contains j) := by
  simp [covers]

variable {marks : List Span} {c : Cuts}

/-- **One call**: a mark behind all marks before it. -/
theorem Marked.cut (h : Marked marks c) {m : Span} (hm : Ordered 0 hi (solid (marks ++ [m]))) :
    Marked (marks ++ [m]) (c.cut m) := by
  unfold Cuts.cut
  by_cases hempty : m.isEmpty = true
  · have hnone (j : Nat) : m.contains j = false :=
      Span.contains_eq_false_iff.mpr (by have := Span.isEmpty_iff.mp hempty; omega)
    have hsolid := solid_concat_of_isEmpty hempty marks
    rw [if_pos hempty]
    refine ⟨by rw [hsolid]; exact h.ordered, h.apart, fun j => ?_, by rw [hsolid]; exact h.fitsIn⟩
    rw [covers_concat, hnone, Bool.or_false, h.covers_eq]
  · have hsolid := solid_concat_of_not_isEmpty hempty marks
    rw [hsolid, Ordered.concat_iff] at hm
    have hbefore := h.ordered _ hm.1
    rw [if_neg hempty]
    refine ⟨fun k hk => ?_, pairwise_addSpan hbefore h.apart, fun j => ?_, fun t ht => ?_⟩
    · rw [hsolid, Ordered.concat_iff] at hk
      exact (hbefore.addSpan hm.2.1).mono hk.2.2
    · rw [covers_addSpan (Nat.le_of_lt hm.2.1)
        (fun r hr => Nat.le_of_lt (hbefore.start_lt_stop r hr)), covers_concat, h.covers_eq]
    · rw [hsolid] at ht
      exact fitsIn_addSpan (h.fitsIn t fun r hr => ht r (List.mem_append_left _ hr))
        (ht m (List.mem_append_right _ List.mem_cons_self))

/-- The check of a call passes. -/
theorem Marked.cut? (h : Marked marks c) {m : Span} (hm : Ordered 0 hi (solid (marks ++ [m]))) :
    c.cut? hi m = some (c.cut m) := by
  refine if_pos ?_
  by_cases hempty : m.isEmpty = true
  · exact .inl hempty
  · rw [solid_concat_of_not_isEmpty hempty, Ordered.concat_iff] at hm
    exact .inr ⟨fun last hlast => (h.ordered _ hm.1).stop_le last (List.mem_of_getLast? hlast),
      hm.2.2⟩

/-- **Any number of calls.** -/
theorem marked_foldl {before : List Span} (h : Marked before c)
    (hmarks : Ordered 0 hi (solid (before ++ marks))) :
    marks.foldlM (Cuts.cut? hi) c = some (marks.foldl Cuts.cut c) ∧
      Marked (before ++ marks) (marks.foldl Cuts.cut c) := by
  induction marks generalizing before c with
  | nil => exact ⟨rfl, by rwa [List.append_nil]⟩
  | cons m marks ih =>
    rw [List.append_cons] at hmarks ⊢
    have hfirst : Ordered 0 hi (solid (before ++ [m])) := by
      rw [solid, List.filter_append] at hmarks
      exact hmarks.of_append
    rw [List.foldlM_cons, h.cut? hfirst]
    exact ih (h.cut hfirst) hmarks

/-! ## Gaps -/

/-- A span that is not empty, lies between two offsets and holds no marked one. -/
structure Free (marked : Nat → Bool) (lo hi : Nat) (s : Span) : Prop where
  lower : lo ≤ s.start
  nonempty : s.start < s.stop
  upper : s.stop ≤ hi
  unmarked : ∀ j, s.start ≤ j → j < s.stop → marked j = false

/-- A free span that is part of no other one. -/
structure IsGap (marked : Nat → Bool) (lo hi : Nat) (s : Span) : Prop extends
    Free marked lo hi s where
  maximal : ∀ r, Free marked lo hi r → r.start ≤ s.start → s.stop ≤ r.stop → r = s

variable {marked : Nat → Bool}

theorem Free.widen_left (h : Free marked lo hi s) (hlo : lo < s.start)
    (hnext : marked (s.start - 1) = false) : Free marked lo hi ⟨s.start - 1, s.stop⟩ := by
  refine ⟨Nat.le_sub_one_of_lt hlo, Nat.lt_of_le_of_lt (Nat.sub_le _ _) h.nonempty, h.upper,
    fun j hj hstop => ?_⟩
  by_cases hfirst : j = s.start - 1
  · rw [hfirst]
    exact hnext
  · exact h.unmarked j (by simp only at hj; omega) hstop

theorem Free.widen_right (h : Free marked lo hi s) (hhi : s.stop < hi)
    (hnext : marked s.stop = false) : Free marked lo hi ⟨s.start, s.stop + 1⟩ := by
  refine ⟨h.lower, Nat.lt_succ_of_lt h.nonempty, hhi, fun j hj hstop => ?_⟩
  by_cases hlast : j = s.stop
  · rw [hlast]
    exact hnext
  · exact h.unmarked j hj (by simp only at hstop; omega)

/-- A free span is a gap if something stops it on both sides. -/
theorem isGap_iff :
    IsGap marked lo hi s ↔ Free marked lo hi s ∧ (s.start = lo ∨ marked (s.start - 1) = true) ∧
      (s.stop = hi ∨ marked s.stop = true) := by
  constructor
  · rintro ⟨hfree, hmaximal⟩
    refine ⟨hfree, ?_, ?_⟩
    · by_contra hleft
      rw [not_or, Bool.not_eq_true] at hleft
      have hlo : lo < s.start := Nat.lt_of_le_of_ne hfree.lower (Ne.symm hleft.1)
      have hsame := congrArg Span.start
        (hmaximal _ (hfree.widen_left hlo hleft.2) (Nat.sub_le _ _) (Nat.le_refl _))
      simp only at hsame
      omega
    · by_contra hright
      rw [not_or, Bool.not_eq_true] at hright
      have hhi : s.stop < hi := Nat.lt_of_le_of_ne hfree.upper hright.1
      have hsame := congrArg Span.stop
        (hmaximal _ (hfree.widen_right hhi hright.2) (Nat.le_refl _) (Nat.le_succ _))
      simp only at hsame
      omega
  · rintro ⟨hfree, hleft, hright⟩
    refine ⟨hfree, fun r hr hstart hstop => ?_⟩
    have hnonempty := hfree.nonempty
    have hstarts : r.start = s.start := by
      have hlower := hr.lower
      rcases hleft with hleft | hleft
      · omega
      · by_contra hne
        rw [hr.unmarked (s.start - 1) (by omega) (by omega)] at hleft
        cases hleft
    have hstops : r.stop = s.stop := by
      have hupper := hr.upper
      rcases hright with hright | hright
      · omega
      · by_contra hne
        rw [hr.unmarked s.stop (by omega) (by omega)] at hright
        cases hright
    change Span.mk r.start r.stop = ⟨s.start, s.stop⟩
    rw [hstarts, hstops]

/-- The first cut has one gap before it at most, and the other gaps are those behind it. -/
theorem isGap_cons_iff {r : Span} (hbehind : lo ≤ r.start) (hnonempty : r.start < r.stop)
    (more : Ordered r.stop hi spans) :
    IsGap (covers (r :: spans)) lo hi s ↔
      (lo < r.start ∧ s = ⟨lo, r.start⟩) ∨ IsGap (covers spans) r.stop hi s := by
  have hbefore {j : Nat} (hj : j < r.start) : covers (r :: spans) j = false := by
    rw [covers_cons_outside (.inl hj), more.covers_of_lt (Nat.lt_trans hj hnonempty)]
  have hhi := more.le
  rw [isGap_iff, isGap_iff]
  constructor
  · rintro ⟨hfree, hleft, hright⟩
    obtain ⟨hlower, hstop, hupper, hunmarked⟩ := hfree
    have hside : s.stop ≤ r.start ∨ r.stop ≤ s.start := by
      by_contra hboth
      have hnone := hunmarked (max s.start r.start) (by omega) (by omega)
      rw [covers_cons_inside (by omega)] at hnone
      cases hnone
    rcases hside with hside | hside
    · have hstart : s.start = lo := hleft.resolve_right fun hcovered => by
        rw [hbefore (by omega)] at hcovered
        cases hcovered
      have hend : s.stop = r.start := by
        rcases hright with hright | hright
        · omega
        · by_contra hne
          rw [hbefore (by omega)] at hright
          cases hright
      refine .inl ⟨by omega, ?_⟩
      rw [← hstart, ← hend]
    · refine .inr ⟨⟨hside, hstop, hupper, fun j hj hjstop => ?_⟩, ?_, ?_⟩
      · rw [← covers_cons_outside (s := r) (.inr (by omega))]
        exact hunmarked j hj hjstop
      · by_cases hstart : s.start = r.stop
        · exact .inl hstart
        · rcases hleft with hleft | hleft
          · omega
          · rw [covers_cons_outside (.inr (by omega))] at hleft
            exact .inr hleft
      · rwa [covers_cons_outside (.inr (by omega))] at hright
  · rintro (⟨hlo, rfl⟩ | ⟨⟨hlower, hstop, hupper, hunmarked⟩, hleft, hright⟩)
    · refine ⟨⟨Nat.le_refl _, hlo, ?_, fun j _ hj => hbefore hj⟩, .inl rfl, .inr ?_⟩
      · exact Nat.le_trans (Nat.le_of_lt hnonempty) hhi
      · exact covers_cons_inside ⟨Nat.le_refl _, hnonempty⟩ spans
    · refine ⟨⟨by omega, hstop, hupper, fun j hj hjstop => ?_⟩, .inr ?_, ?_⟩
      · rw [covers_cons_outside (.inr (by omega))]
        exact hunmarked j hj hjstop
      · rcases hleft with hleft | hleft
        · exact covers_cons_inside (by omega) spans
        · rw [covers_cons, hleft, Bool.or_true]
      · rwa [covers_cons_outside (.inr (by omega))]

/-- **The kept spans are the gaps.** -/
theorem mem_keptFrom_iff (h : Ordered lo hi spans) :
    s ∈ keptFrom lo hi spans ↔ IsGap (covers spans) lo hi s := by
  induction h with
  | @nil lo hi hle =>
    have hnone (j : Nat) : ¬covers [] j = true := Bool.false_ne_true
    rw [isGap_iff, keptFrom]
    constructor
    · intro hs
      split at hs
      · next hlt =>
        obtain rfl := List.mem_singleton.mp hs
        exact ⟨⟨Nat.le_refl _, hlt, Nat.le_refl _, fun _ _ _ => rfl⟩, .inl rfl, .inl rfl⟩
      · cases hs
    · rintro ⟨hfree, hleft, hright⟩
      have hstart := hleft.resolve_right (hnone _)
      have hstop := hright.resolve_right (hnone _)
      have hlt : lo < hi := by
        rw [← hstart, ← hstop]
        exact hfree.nonempty
      rw [if_pos hlt, ← hstart, ← hstop]
      exact List.mem_singleton_self s
  | cons hbehind hnonempty more ih =>
    rw [isGap_cons_iff hbehind hnonempty more, ← ih, keptFrom]
    split
    · next hlt =>
      rw [List.mem_cons]
      exact or_congr_left ⟨fun hs => ⟨hlt, hs⟩, And.right⟩
    · next hnot => exact ⟨.inr, fun hs => hs.resolve_left fun hfirst => hnot hfirst.1⟩

theorem pairwise_keptFrom (h : Ordered lo hi spans) :
    (keptFrom lo hi spans).Pairwise fun r s => r.stop < s.start := by
  induction h with
  | nil hle =>
    rw [keptFrom]
    split
    · exact List.pairwise_singleton _ _
    · exact .nil
  | cons hbehind hnonempty more ih =>
    rw [keptFrom]
    split
    · refine .cons (fun r hr => ?_) ih
      exact Nat.lt_of_lt_of_le hnonempty ((mem_keptFrom_iff more).mp hr).lower
    · exact ih

/-- Cuts and kept spans share out the text. -/
theorem Ordered.add_total (h : Ordered lo hi spans) :
    lo + (Span.total spans + Span.total (keptFrom lo hi spans)) = hi := by
  induction h with
  | nil hle =>
    rw [keptFrom]
    split
    · simp only [Span.total, Span.length]
      omega
    · simp only [Span.total]
      omega
  | cons hbehind hnonempty more ih =>
    rw [keptFrom]
    split
    · simp only [Span.total, Span.length]
      omega
    · simp only [Span.total, Span.length]
      omega

/-! ## What is left of a text -/

/-- **What is left of a text**, if it can be read at all, holds the bytes that are not covered. -/
theorem map_bytes_of_remainder? {source text : Text}
    (h : Ordered 0 (byteLength source) c.spans) (htext : c.remainder? source = some text) :
    text = c.remainder source ∧
      (keptOffsets (byteLength source) c.spans).map (fun j => (Text.bytes source)[j]?) =
        (Text.bytes text).map some := by
  obtain ⟨-, htext⟩ := Option.ite_none_right_eq_some.mp htext
  obtain ⟨rfl, hbytes⟩ := Span.map_bytes_of_extractAll? htext
  rw [kept, h.offsets_keptFrom] at hbytes
  exact ⟨rfl, hbytes⟩

/-- It can be read if the cuts end between characters. -/
theorem remainder?_of_fitsIn {source : Text} (h : Ordered 0 (byteLength source) c.spans)
    (hfits : ∀ s ∈ c.spans, s.FitsIn source) : c.remainder? source = some (c.remainder source) := by
  have hbytes : c.bytes ≤ byteLength source := by
    have := h.add_total
    rw [Cuts.bytes]
    omega
  rw [remainder?, if_pos hbytes]
  exact Span.extractAll?_eq (fitsIn_keptFrom ⟨[], source, rfl, rfl⟩
    ⟨source, [], (List.append_nil source).symm, rfl⟩ hfits)

/-! ## After every call -/

/-- The cuts once all marks have been cut. -/
def cutAll (marks : List Span) : Cuts :=
  marks.foldl Cuts.cut empty

/-- **After every call the cuts represent the marks.** The marks that are not empty come in order
and lie in a text of the given length; empty ones may stand anywhere. Then every call passes its
check; the cuts are not empty, strictly apart, and cover the marked offsets; what is kept are the
gaps between the marks, in order; the two share out the text; and of a text is left what is not
marked, byte by byte, which can be read at least if the marks end between characters. -/
theorem cutAll_represents_marks {length : Nat} {marks : List Span}
    (hmarks : Ordered 0 length (solid marks)) :
    ∀ done, done <+: marks →
      done.foldlM (Cuts.cut? length) empty = some (cutAll done) ∧
      (∀ s ∈ (cutAll done).spans, s.start < s.stop) ∧
      (cutAll done).spans.Pairwise (fun r s => r.stop < s.start) ∧
      (∀ j, covers (cutAll done).spans j = true ↔ ∃ m ∈ done, m.start ≤ j ∧ j < m.stop) ∧
      (∀ s, s ∈ (cutAll done).kept length ↔ IsGap (covers done) 0 length s) ∧
      ((cutAll done).kept length).Pairwise (fun r s => r.stop < s.start) ∧
      (cutAll done).bytes + Span.total ((cutAll done).kept length) = length ∧
      ∀ source, byteLength source = length →
        ((∀ m ∈ solid done, m.FitsIn source) →
          (cutAll done).remainder? source = some ((cutAll done).remainder source)) ∧
        ∀ text, (cutAll done).remainder? source = some text →
          text = (cutAll done).remainder source ∧
          (keptOffsets length done).map (fun j => (Text.bytes source)[j]?) =
            (Text.bytes text).map some := by
  rintro done ⟨later, rfl⟩
  have hdone : Ordered 0 length (solid done) := by
    rw [solid, List.filter_append] at hmarks
    exact hmarks.of_append
  obtain ⟨hchecks, hmarked⟩ : done.foldlM (Cuts.cut? length) empty = some (cutAll done) ∧
      Marked done (cutAll done) := marked_foldl marked_nil hdone
  have hordered := hmarked.ordered length hdone
  have hcovers : covers (cutAll done).spans = covers done := funext hmarked.covers_eq
  refine ⟨hchecks, hordered.start_lt_stop, hmarked.apart, fun j => ?_, fun s => ?_,
    pairwise_keptFrom hordered, ?_, ?_⟩
  · rw [hcovers, covers, List.any_eq_true]
    simp only [Span.contains_iff]
  · rw [← hcovers]
    exact mem_keptFrom_iff hordered
  · have htotal := hordered.add_total
    rwa [Nat.zero_add] at htotal
  · rintro source rfl
    refine ⟨fun hfits => remainder?_of_fitsIn hordered (hmarked.fitsIn source hfits),
      fun text htext => ?_⟩
    obtain ⟨heq, hbytes⟩ := map_bytes_of_remainder? hordered htext
    rw [keptOffsets, hcovers] at hbytes
    exact ⟨heq, hbytes⟩

/-- Two marks that touch, a reversed one between them, and one at the end of the text. -/
def touchingMarks : List Span :=
  [⟨0, 1⟩, ⟨5, 2⟩, ⟨1, 3⟩, ⟨4, 6⟩]

theorem cutAll_represents_marks_touching :
    Ordered 0 6 (solid touchingMarks) ∧ (∀ m ∈ solid touchingMarks, m.FitsIn "héllo".toList) ∧
      (∀ s, s ∈ (cutAll touchingMarks).kept 6 ↔ IsGap (covers touchingMarks) 0 6 s) ∧
      (cutAll touchingMarks).remainder? "héllo".toList = some ['l'] := by
  have hmarks : Ordered 0 6 (solid touchingMarks) :=
    .cons (by decide) (by decide) (.cons (by decide) (by decide)
      (.cons (by decide) (by decide) (.nil (by decide))))
  have hfits : ∀ m ∈ solid touchingMarks, m.FitsIn "héllo".toList := by decide
  obtain ⟨-, -, -, -, hkept, -, -, hremainder⟩ :=
    cutAll_represents_marks hmarks touchingMarks List.prefix_rfl
  exact ⟨hmarks, hfits, hkept, (hremainder _ (by decide)).1 hfits⟩

/-- Marks inside a character are no obstacle once they are joined; a single one is. -/
example : (cutAll [⟨1, 2⟩, ⟨2, 3⟩]).remainder? "héllo".toList = some "hllo".toList ∧
    (cutAll [⟨1, 2⟩]).remainder? "héllo".toList = none := by
  decide

end Cuts

end ConditionalText
