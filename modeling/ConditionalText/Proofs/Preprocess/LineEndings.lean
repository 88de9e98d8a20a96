import ConditionalText.Proofs.Preprocess.Faults
import ConditionalText.Proofs.Preprocess.Relocation

/-!
# Line feeds with and without a carriage return

A carriage return before a line feed belongs neither to a directive nor to its predicate, so a text
whose line feeds all have one (`crlf`) is preprocessed like the text without them. What changes is
where things stand: every offset moves by the number of line feeds before it (`crlfOffset`).

* `lines_crlf`: all lines but the last get a carriage return.
* `splitLine?_append_return`, `predicateOf?_append_return`: a line is read alike with one.
* `items_crlf`: the items are those of the text, moved.
* `Leaves.crlf`: so is what cutting leaves.
* `preprocess_crlf`: **the line endings of a text are those of its output**, and change neither what
  is wrong with it nor the line and column where.
-/

namespace ConditionalText

open ConditionalText.Text

/-! ## The text -/

namespace Text

/-- The text with a carriage return before every line feed. -/
def crlf (t : Text) : Text :=
  t.flatMap fun c => if c = '\n' then ['\r', '\n'] else [c]

/-- Where an offset of a text stands in the text with carriage returns. -/
def crlfOffset (t : Text) (offset : Nat) : Nat :=
  offset + (takeBytes offset t).count '\n'

theorem crlf_append (a b : Text) : crlf (a ++ b) = crlf a ++ crlf b :=
  List.flatMap_append

theorem crlf_cons_of_ne {c : Char} (h : c ≠ '\n') (t : Text) : crlf (c :: t) = c :: crlf t := by
  rw [crlf, List.flatMap_cons, if_neg h]
  rfl

theorem crlf_of_not_mem {t : Text} (h : '\n' ∉ t) : crlf t = t := by
  induction t with
  | nil => rfl
  | cons c t ih =>
    rw [List.mem_cons, not_or] at h
    rw [crlf_cons_of_ne (Ne.symm h.1), ih h.2]

theorem byteLength_crlf (t : Text) : byteLength (crlf t) = byteLength t + t.count '\n' := by
  induction t with
  | nil => rfl
  | cons c t ih =>
    by_cases hc : c = '\n'
    · subst hc
      have hcons : crlf ('\n' :: t) = '\r' :: '\n' :: crlf t := rfl
      have hreturn : '\r'.utf8Size = 1 := rfl
      rw [hcons, byteLength_cons, byteLength_cons, byteLength_cons, ih, List.count_cons_self]
      omega
    · rw [crlf_cons_of_ne hc, byteLength_cons, byteLength_cons, ih, List.count_cons_of_ne hc]
      omega

theorem count_crlf (t : Text) : (crlf t).count '\n' = t.count '\n' := by
  induction t with
  | nil => rfl
  | cons c t ih =>
    by_cases hc : c = '\n'
    · subst hc
      have hcons : crlf ('\n' :: t) = '\r' :: '\n' :: crlf t := rfl
      rw [hcons, List.count_cons_of_ne (by decide), List.count_cons_self, List.count_cons_self, ih]
    · rw [crlf_cons_of_ne hc, List.count_cons_of_ne hc, List.count_cons_of_ne hc, ih]

/-- Between characters an offset moves with the text before it. -/
theorem crlfOffset_append (a b : Text) :
    crlfOffset (a ++ b) (byteLength a) = byteLength (crlf a) := by
  rw [crlfOffset, takeBytes_append, byteLength_crlf]

theorem isPrefix_takeBytes {m n : Nat} (h : m ≤ n) (t : Text) :
    takeBytes m t <+: takeBytes n t := by
  induction t generalizing m n with
  | nil => exact List.prefix_refl []
  | cons c t ih =>
    cases m with
    | zero => rw [takeBytes_zero]; exact List.nil_prefix
    | succ m =>
      obtain ⟨k, rfl⟩ : ∃ k, n = k + 1 := ⟨n - 1, by omega⟩
      rw [takeBytes, takeBytes]
      exact (List.prefix_cons_inj c).mpr (ih (by omega))

theorem strictMono_crlfOffset (t : Text) : StrictMono (crlfOffset t) := by
  intro m n h
  have hcount := (isPrefix_takeBytes (Nat.le_of_lt h) t).sublist.count_le '\n'
  unfold crlfOffset
  omega

/-! ## Its lines -/

/-- Lines with a carriage return at the end of all but the last. -/
def crlfLines : List Text → List Text
  | [] => []
  | [line] => [line]
  | line :: next :: more => (line ++ ['\r']) :: crlfLines (next :: more)

theorem crlfLines_cons_of_ne_nil (line : Text) {more : List Text} (h : more ≠ []) :
    crlfLines (line :: more) = (line ++ ['\r']) :: crlfLines more := by
  obtain ⟨next, more, rfl⟩ := List.exists_cons_of_ne_nil h
  rfl

/-- What stands before the first line stands before it with carriage returns too. -/
theorem crlfLines_cons_append (part line : Text) (more : List Text) :
    ∃ first rest, crlfLines (line :: more) = first :: rest ∧
      crlfLines ((part ++ line) :: more) = (part ++ first) :: rest := by
  cases more with
  | nil => exact ⟨line, [], rfl, rfl⟩
  | cons next more =>
    refine ⟨line ++ ['\r'], crlfLines (next :: more), rfl, ?_⟩
    rw [← List.append_assoc]
    rfl

theorem lines_crlf (t : Text) : lines (crlf t) = crlfLines (lines t) := by
  unfold lines
  induction t with
  | nil => rfl
  | cons c t ih =>
    obtain ⟨line, more, hlines⟩ := List.exists_cons_of_ne_nil (pieces_ne_nil '\n' t)
    by_cases hc : c = '\n'
    · subst hc
      have hcons : crlf ('\n' :: t) = ['\r'] ++ '\n' :: crlf t := rfl
      have hnil : pieces '\n' ('\n' :: t) = [] :: pieces '\n' t := pieces_append '\n' [] t
      have hreturn : pieces '\n' ['\r'] = [['\r']] := rfl
      rw [hcons, pieces_append, ih, hreturn, hnil,
        crlfLines_cons_of_ne_nil [] (pieces_ne_nil '\n' t)]
      rfl
    · obtain ⟨first, rest, hfirst, hcons⟩ := crlfLines_cons_append [c] line more
      rw [crlf_cons_of_ne hc, pieces, ih, pieces, hlines, hfirst]
      simp only [if_neg hc]
      exact hcons.symm

end Text

/-! ## Items -/

namespace Directive

theorem not_mem_form (tag : Tag) {blanks : Text} (h : ∀ c ∈ blanks, c = ' ' ∨ c = '\t') :
    '\r' ∉ blanks ++ ("//#".toList ++ tag.keyword.toList) := by
  rw [List.mem_append, not_or]
  constructor
  · intro hmem
    rcases h '\r' hmem with hc | hc
    · exact absurd hc (by decide)
    · exact absurd hc (by decide)
  · cases tag <;> decide

/-- A carriage return at the end of a line is the end of what follows the keyword. -/
theorem hasForm_append_return_iff {line rest : Text} {tag : Tag} (h : '\r' ∉ line) :
    HasForm (line ++ ['\r']) tag rest ↔ ∃ core, rest = core ++ ['\r'] ∧ HasForm line tag core := by
  constructor
  · rintro ⟨⟨blanks, hblanks, hline⟩, hends⟩
    rcases List.eq_nil_or_concat rest with rfl | ⟨core, c, rfl⟩
    · refine absurd ?_ (not_mem_form tag hblanks)
      rw [List.append_nil] at hline
      rw [← hline]
      exact List.mem_append_right line List.mem_cons_self
    · rw [List.concat_eq_append] at hline hends ⊢
      have hconcat : line ++ ['\r'] =
          blanks ++ ("//#".toList ++ (tag.keyword.toList ++ core)) ++ [c] := by
        simpa only [List.append_assoc] using hline
      obtain ⟨hcore, hc⟩ := List.append_inj' hconcat rfl
      obtain rfl : '\r' = c := List.singleton_inj.mp hc
      refine ⟨core, rfl, ⟨blanks, hblanks, hcore⟩, ?_⟩
      cases core with
      | nil => exact .inl rfl
      | cons d core => exact .inr (.inr (by simpa using hends))
  · rintro ⟨core, rfl, ⟨blanks, hblanks, hline⟩, hends⟩
    refine ⟨⟨blanks, hblanks, by rw [hline]; simp only [List.append_assoc]⟩, ?_⟩
    rcases hends with rfl | rfl | hhead
    · exact .inr (.inl rfl)
    · refine absurd ?_ h
      rw [hline]
      simp
    · cases core with
      | nil => exact .inr (.inl rfl)
      | cons d core => exact .inr (.inr hhead)

theorem splitLine?_append_return {line : Text} (h : '\r' ∉ line) :
    splitLine? (line ++ ['\r']) = (splitLine? line).map (Prod.map id (· ++ ['\r'])) := by
  ext ⟨tag, rest⟩
  rw [splitLine?_eq_some_iff, hasForm_append_return_iff h, Option.map_eq_some_iff]
  constructor
  · rintro ⟨core, rfl, hform⟩
    exact ⟨(tag, core), splitLine?_eq_some_iff.mpr hform, rfl⟩
  · rintro ⟨⟨tag', core⟩, hsplit, hsame⟩
    obtain ⟨rfl, rfl⟩ := Prod.mk.inj hsame
    exact ⟨core, rfl, splitLine?_eq_some_iff.mp hsplit⟩

/-- A carriage return at the end does not belong to the predicate. -/
theorem predicateOf?_append_return (rest : Text) :
    predicateOf? (rest ++ ['\r']) = predicateOf? rest := by
  have hskip : skipSpaces (rest ++ ['\r']) = skipSpaces rest ++ ['\r'] := by
    rw [skipSpaces, List.dropWhile_append]
    split
    · next h => rw [skipSpaces, List.isEmpty_iff.mp h]; rfl
    · rfl
  have hblank : ∀ c ∈ ['\r'], isBlank c = true := by
    intro c hc
    rw [List.mem_singleton.mp hc]
    decide
  rw [predicateOf?, hskip, trimEnd_append_of_blank _ hblank, predicateOf?]

theorem bareLength_append_return (line : Text) :
    bareLength (line ++ ['\r']) = byteLength line := by
  rw [bareLength, List.getLast?_concat, if_pos rfl, byteLength_append]
  exact Nat.add_sub_cancel ..

theorem bareLength_of_not_mem {line : Text} (h : '\r' ∉ line) :
    bareLength line = byteLength line := by
  rw [bareLength, if_neg fun hlast => h (List.mem_of_getLast? hlast), Nat.sub_zero]

/-- **A line comes to the same item with a carriage return at its end.** -/
theorem ofLine?_append_return {s before line behind : Text} (hs : s = before ++ (line ++ behind))
    (hreturn : '\r' ∉ line) (hfeed : '\n' ∉ line) :
    ofLine? (byteLength (crlf before)) (line ++ ['\r']) =
      (ofLine? (byteLength before) line).map (Item.relocate (crlfOffset s)) ∧
    ofLine? (byteLength (crlf before)) line =
      (ofLine? (byteLength before) line).map (Item.relocate (crlfOffset s)) := by
  have hstart : crlfOffset s (byteLength before) = byteLength (crlf before) := by
    rw [hs, crlfOffset_append]
  have hstop : crlfOffset s (byteLength before + bareLength line) =
      byteLength (crlf before) + byteLength line := by
    rw [bareLength_of_not_mem hreturn, ← byteLength_append, hs, ← List.append_assoc,
      crlfOffset_append, crlf_append, byteLength_append, crlf_of_not_mem hfeed]
  constructor
  · refine ofLine?_relocate ?_ hstart (by rw [hstop, bareLength_append_return])
    rw [splitLine?_append_return hreturn, Option.map_map]
    congr 1
    funext ⟨tag, rest⟩
    simp only [Function.comp, Prod.map, id, predicateOf?_append_return]
  · exact ofLine?_relocate rfl hstart (by rw [hstop, bareLength_of_not_mem hreturn])

theorem itemsFrom_crlfLines {s : Text} (hs : '\r' ∉ s) (ls : List Text)
    (hls : ∀ line ∈ ls, '\n' ∉ line) (before : Text) (htext : s = before ++ joinWith '\n' ls) :
    itemsFrom (byteLength (crlf before)) (crlfLines ls) =
      (itemsFrom (byteLength before) ls).map (Item.relocate (crlfOffset s)) := by
  induction ls generalizing before with
  | nil => rfl
  | cons line ls ih =>
    have hfeed : '\n' ∉ line := hls line List.mem_cons_self
    cases ls with
    | nil =>
      have hreturn : '\r' ∉ line := fun h => hs (by rw [htext]; exact List.mem_append_right _ h)
      have htext' : s = before ++ (line ++ []) := by rw [List.append_nil]; exact htext
      have hline := (ofLine?_append_return htext' hreturn hfeed).2
      rw [crlfLines, itemsFrom, map_itemsFrom_cons, hline]
      rfl
    | cons next more =>
      rw [joinWith_cons_cons] at htext
      have hreturn : '\r' ∉ line := fun h =>
        hs (by rw [htext]; exact List.mem_append_right _ (List.mem_append_left _ h))
      have hline := (ofLine?_append_return htext hreturn hfeed).1
      have hmore := ih (fun l hl => hls l (List.mem_cons_of_mem line hl)) (before ++ line ++ ['\n'])
        (by rw [htext]; simp only [List.append_assoc]; rfl)
      have hbefore : byteLength (before ++ line ++ ['\n']) =
          byteLength before + byteLength line + 1 := by
        rw [byteLength_append, byteLength_append]
        rfl
      have hcrlf : byteLength (crlf (before ++ line ++ ['\n'])) =
          byteLength (crlf before) + byteLength (line ++ ['\r']) + 1 := by
        rw [crlf_append, crlf_append, crlf_of_not_mem hfeed, byteLength_append, byteLength_append,
          byteLength_append]
        rfl
      rw [hbefore, hcrlf] at hmore
      rw [crlfLines, itemsFrom, hline, hmore, map_itemsFrom_cons (byteLength before)]

/-- **The items of a text with carriage returns are those of the text, moved.** -/
theorem items_crlf {s : Text} (hs : '\r' ∉ s) :
    items (crlf s) = (items s).map (Item.relocate (crlfOffset s)) := by
  have hfeed : ∀ line ∈ lines s, '\n' ∉ line := fun line hline => not_mem_of_mem_pieces hline
  have hitems := itemsFrom_crlfLines hs (lines s) hfeed [] (joinWith_pieces '\n' s).symm
  rw [items, lines_crlf]
  exact hitems

end Directive

/-! ## Cuts -/

theorem Cuts.Leaves.crlf {offset : Nat} {spans : List Span} {t rest : Text}
    (h : Leaves offset spans t rest) {s : Text} (before : Text) (hs : s = before ++ t)
    (hbefore : byteLength before = offset) :
    Leaves (byteLength (crlf before)) (spans.map (Span.relocate (crlfOffset s))) (crlf t)
      (crlf rest) := by
  induction h generalizing before with
  | nil offset t => exact .nil _ _
  | @cons offset r spans t rest a b hstart hstop hb more ih =>
    have hcut := byteLength_of_cut hbefore hstart hstop
    have hmore := ih (before ++ a ++ b) (by rw [hs]; simp only [List.append_assoc]) hcut
    have hfirst : crlfOffset s r.start = byteLength (Text.crlf (before ++ a)) := by
      rw [hstart, ← hbefore, ← byteLength_append, hs, ← List.append_assoc, crlfOffset_append]
    have hlast : crlfOffset s r.stop = byteLength (Text.crlf (before ++ a ++ b)) := by
      rw [← hcut, hs, ← crlfOffset_append _ t]
      simp only [List.append_assoc]
    rw [← hlast] at hmore
    simp only [crlf_append]
    refine .cons (Text.crlf a) (Text.crlf b) ?_ ?_ ?_ hmore
    · rw [Span.relocate, hfirst, crlf_append, byteLength_append]
    · rw [Span.relocate, hlast, hfirst, crlf_append (before ++ a), byteLength_append]
    · have hpos := byteLength_pos hb
      intro hnil
      have := byteLength_crlf b
      rw [hnil, byteLength_nil] at this
      omega

/-! ## Preprocessing -/

section Preprocess

variable {env : Environment} {s : Text}

theorem movable_crlfOffset (s : Text) : Progress.Movable (crlfOffset s) [] where
  strictMono := strictMono_crlfOffset s
  apart _ h := by cases h

theorem preprocess_crlf_of_ok {out : Output} (hs : '\r' ∉ s) (h : preprocess env s = .ok out) :
    ∃ out', preprocess env (crlf s) = .ok out' ∧ out'.text = crlf out.text := by
  obtain ⟨p, hrun, hstart, -, hsettled⟩ := exists_settled_of_preprocess h
  obtain ⟨moved, hmoved, hend⟩ :=
    (Progress.relocated_of_start (p := .start) rfl).exists_run (movable_crlfOffset s) hrun
  refine ⟨moved.output (crlf s), ?_, ?_⟩
  · rw [preprocess, Directive.items_crlf hs, hmoved]
    exact Progress.finish_of_start (hend.eq_start hstart)
  · have hleaves : Cuts.Leaves 0 (p.cuts.spans.map (Span.relocate (crlfOffset s))) (crlf s)
        (crlf out.text) := hsettled.leaves.crlf [] rfl rfl
    have hspans : moved.cuts.spans = p.cuts.spans.map (Span.relocate (crlfOffset s)) := hend.spans
    rw [← hspans] at hleaves
    exact hleaves.remainder_eq

theorem preprocess_crlf_of_error {e : SourceError} (hs : '\r' ∉ s)
    (h : preprocess env s = .error e) :
    preprocess env (crlf s) = .error (e.relocate (crlfOffset s)) := by
  rw [preprocess, Directive.items_crlf hs]
  exact (Progress.relocated_of_start (p := .start) rfl).error (movable_crlfOffset s) h (crlf s)

/-- The start of a line stands in the same line and column with carriage returns. -/
theorem Text.IsLine.locate_crlf {t before line behind : Text} (h : IsLine t before line behind) :
    Text.locate (crlf t) (crlfOffset t (byteLength before)) =
      Text.locate t (byteLength before) := by
  have hopens : crlf before = [] ∨ (crlf before).getLast? = some '\n' := by
    rcases h.opens with rfl | hopens
    · exact .inl rfl
    · obtain ⟨body, rfl⟩ := List.getLast?_eq_some_iff.mp hopens
      refine .inr ?_
      rw [crlf_append, List.getLast?_append]
      rfl
  rw [h.locate, h.text_eq, crlfOffset_append, crlf_append, locate_byteLength_append,
    Location.after_of_opens hopens, count_crlf]

end Preprocess

/-- **The line endings of a text are those of its output.** A text without carriage returns is
preprocessed with an error exactly if it is with one before every line feed. What is wrong with it
stays the same, further behind by the number of line feeds before it, so that its line and column
stay the same too. -/
theorem preprocess_crlf (env : Environment) {s : Text} (hs : '\r' ∉ s) :
    ((∃ out, preprocess env (crlf s) = .ok out) ↔ ∃ out, preprocess env s = .ok out) ∧
    (∀ out, preprocess env s = .ok out →
      ∃ out', preprocess env (crlf s) = .ok out' ∧ out'.text = crlf out.text) ∧
    ∀ e, preprocess env s = .error e →
      ∃ e', preprocess env (crlf s) = .error e' ∧
        e' = e.relocate (fun offset => offset + (takeBytes offset s).count '\n') ∧
        e'.offset = e.offset + (takeBytes e.offset s).count '\n' ∧
        locate (crlf s) e'.offset = locate s e.offset := by
  refine ⟨⟨fun ⟨out', hout'⟩ => ?_, fun ⟨out, hout⟩ => ?_⟩,
    fun out hout => preprocess_crlf_of_ok hs hout,
    fun e he => ⟨_, preprocess_crlf_of_error hs he, rfl, SourceError.offset_relocate e, ?_⟩⟩
  · cases h : preprocess env s with
    | ok out => exact ⟨out, rfl⟩
    | error e =>
      rw [preprocess_crlf_of_error hs h] at hout'
      cases hout'
  · obtain ⟨out', hout', -⟩ := preprocess_crlf_of_ok hs hout
    exact ⟨out', hout'⟩
  · obtain ⟨l, hl, hoffset⟩ := exists_line_of_error he
    obtain ⟨⟨before, behind, hline, hbefore, -⟩, -⟩ := Directive.mem_directiveLines_iff.mp hl
    rw [SourceError.offset_relocate, hoffset, hbefore]
    exact hline.locate_crlf

/-- A block cut out of a text takes its line endings along, and a stray directive is found in the
same line. -/
theorem preprocess_crlf_disabled :
    (∃ out, preprocess .empty "//#if false\r\nb\r\n//#endif\r\n".toList = .ok out ∧
      out.text = "//#if false//#endif\r\n".toList) ∧
    preprocess .empty "a\r\n//#else\r\n".toList = .error (.unexpectedDirective .elseTag 3) := by
  have hok : preprocess .empty "//#if false\nb\n//#endif\n".toList =
      .ok ⟨"//#if false//#endif\n".toList, ⟨[⟨0, 0⟩, ⟨11, 14⟩], 20⟩, 3⟩ := by decide +kernel
  have herror : preprocess .empty "a\n//#else\n".toList =
      .error (.unexpectedDirective .elseTag 2) := by
    decide +kernel
  obtain ⟨e, he, rfl, -⟩ := (preprocess_crlf .empty (by decide)).2.2 _ herror
  exact ⟨(preprocess_crlf .empty (by decide)).2.1 _ hok, he⟩

end ConditionalText
