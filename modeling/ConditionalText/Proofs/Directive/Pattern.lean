import ConditionalText.Proofs.Directive.Layout
import ConditionalText.Proofs.Text.Blank

/-!
# Directives by a pattern

A directive line can be described by a regular expression,

  `^[\t ]*//#(if|elif|else|endif)(?:[\t ]+(.*?))?[\t ]*\r?$`

where `^` and `$` stand for the ends of lines and the dot for anything but a line feed. A `Pattern`
is tried at a place of a text and gives the ways in which it fits there, the preferred one first: of
two alternatives the left one, of a greedy run the longest, of a lazy run the shortest. Searching
goes from left to right, takes the preferred fit at the first place that has one, and goes on behind
it.

* `fits_run_seq`: a greedy run takes all it can, if what follows cannot start inside it.
* `fit_of_line`: at the start of a line the preferred fit is the whole line, exactly if the line has
  the form of a directive, and its groups hold the tag and, up to blanks, the predicate.
* `itemsOf_foundFrom`: a search takes line after line.
* `itemsOf_found`: **searching for the pattern gives the items of the text.**
-/

namespace ConditionalText

open ConditionalText.Text

/-! ## Patterns -/

/-- A place in a text: the character before it and what comes behind it. -/
structure Cursor where
  previous : Option Char
  rest : Text

/-- A way in which a pattern fits: what it takes, and what its groups have taken. -/
structure Fit where
  taken : Text
  groups : List (Nat × Text)

namespace Fit

def empty : Fit := ⟨[], []⟩

def append (f g : Fit) : Fit :=
  ⟨f.taken ++ g.taken, f.groups ++ g.groups⟩

/-- The text of a group, if it has taken part in the fit. -/
def group? (f : Fit) (index : Nat) : Option Text :=
  f.groups.lookup index

end Fit

/-- The place behind a part of the text. -/
def Cursor.advance (p : Cursor) (taken : Text) : Cursor :=
  ⟨taken.getLast?.or p.previous, p.rest.drop taken.length⟩

/-- Whether a place opens a line. -/
def Cursor.opensLine (p : Cursor) : Bool :=
  p.previous = none || p.previous = some '\n'

/-- Regular expressions whose runs are runs of characters. -/
inductive Pattern where
  | lineStart
  | lineEnd
  | text (t : Text)
  /-- One character of a class. -/
  | one (member : Char → Bool)
  /-- Any number of characters of a class, as many as possible. -/
  | greedy (member : Char → Bool)
  /-- Any number of characters of a class, as few as possible. -/
  | lazy (member : Char → Bool)
  | seq (first second : Pattern)
  | either (left right : Pattern)
  | group (index : Nat) (inner : Pattern)

namespace Pattern

/-- The runs of a class at the start of a text, the longest first. -/
def longestFirst (member : Char → Bool) : Text → List Text
  | [] => [[]]
  | c :: t => if member c then (longestFirst member t).map (c :: ·) ++ [[]] else [[]]

/-- The runs of a class at the start of a text, the shortest first. -/
def shortestFirst (member : Char → Bool) : Text → List Text
  | [] => [[]]
  | c :: t => if member c then [] :: (shortestFirst member t).map (c :: ·) else [[]]

/-- The ways in which a pattern fits at a place, the preferred one first. -/
def fits : Pattern → Cursor → List Fit
  | .lineStart, p => if p.opensLine then [.empty] else []
  | .lineEnd, p => if p.rest = [] ∨ p.rest.head? = some '\n' then [.empty] else []
  | .text t, p => if t.isPrefixOf p.rest then [⟨t, []⟩] else []
  | .one member, p =>
    match p.rest with
    | [] => []
    | c :: _ => if member c then [⟨[c], []⟩] else []
  | .greedy member, p => (longestFirst member p.rest).map fun t => ⟨t, []⟩
  | .lazy member, p => (shortestFirst member p.rest).map fun t => ⟨t, []⟩
  | .seq first second, p =>
    (first.fits p).flatMap fun f => (second.fits (p.advance f.taken)).map f.append
  | .either left right, p => left.fits p ++ right.fits p
  | .group index inner, p => (inner.fits p).map fun f => ⟨f.taken, (index, f.taken) :: f.groups⟩

/-- At least one character of a class, as many as possible. -/
def atLeastOne (member : Char → Bool) : Pattern :=
  .seq (.one member) (.greedy member)

/-- The pattern or nothing. -/
def orNothing (pattern : Pattern) : Pattern :=
  .either pattern (.text [])

/-- The fits found from an offset on, with the offsets at which they start. `inside` characters
still belong to the last fit. -/
def foundFrom (pattern : Pattern) (offset : Nat) (previous : Option Char) (inside : Nat) :
    Text → List (Nat × Fit)
  | [] => (pattern.fits ⟨previous, []⟩).head?.toList.map fun f => (offset, f)
  | c :: rest =>
    match inside, (pattern.fits ⟨previous, c :: rest⟩).head? with
    | inside + 1, _ => pattern.foundFrom (offset + c.utf8Size) (some c) inside rest
    | 0, none => pattern.foundFrom (offset + c.utf8Size) (some c) 0 rest
    | 0, some f =>
      (offset, f) :: pattern.foundFrom (offset + c.utf8Size) (some c) (f.taken.length - 1) rest

/-- The fits found in a text. -/
def found (pattern : Pattern) (t : Text) : List (Nat × Fit) :=
  pattern.foundFrom 0 none 0 t

theorem foundFrom_nil (pattern : Pattern) (offset : Nat) (previous : Option Char) (inside : Nat) :
    pattern.foundFrom offset previous inside [] =
      (pattern.fits ⟨previous, []⟩).head?.toList.map fun f => (offset, f) := by
  rw [foundFrom]

theorem foundFrom_inside (pattern : Pattern) (offset : Nat) (previous : Option Char) (inside : Nat)
    (c : Char) (rest : Text) :
    pattern.foundFrom offset previous (inside + 1) (c :: rest) =
      pattern.foundFrom (offset + c.utf8Size) (some c) inside rest := by
  rw [foundFrom.eq_def]

theorem foundFrom_of_none {pattern : Pattern} {previous : Option Char} {c : Char} {rest : Text}
    (h : (pattern.fits ⟨previous, c :: rest⟩).head? = none) (offset : Nat) :
    pattern.foundFrom offset previous 0 (c :: rest) =
      pattern.foundFrom (offset + c.utf8Size) (some c) 0 rest := by
  simp only [foundFrom.eq_def pattern offset, h]

theorem foundFrom_of_some {pattern : Pattern} {previous : Option Char} {c : Char} {rest : Text}
    {f : Fit} (h : (pattern.fits ⟨previous, c :: rest⟩).head? = some f) (offset : Nat) :
    pattern.foundFrom offset previous 0 (c :: rest) =
      (offset, f) ::
        pattern.foundFrom (offset + c.utf8Size) (some c) (f.taken.length - 1) rest := by
  simp only [foundFrom.eq_def pattern offset, h]

end Pattern

/-! ## The pattern of a directive line -/

namespace Directive

open Pattern (greedy lazy seq either group lineStart lineEnd orNothing atLeastOne)

/-- `\r?$` -/
def lineEndPattern : Pattern :=
  seq (orNothing (.text ['\r'])) lineEnd

/-- `[\t ]*\r?$` -/
def blankEndPattern : Pattern :=
  seq (greedy isSpaceOrTab) lineEndPattern

/-- `[\t ]+(.*?)` -/
def predicatePattern : Pattern :=
  seq (atLeastOne isSpaceOrTab) (group 2 (lazy (· ≠ '\n')))

/-- `(?:[\t ]+(.*?))?[\t ]*\r?$` -/
def afterKeywordPattern : Pattern :=
  seq (orNothing predicatePattern) blankEndPattern

/-- `(if|elif|else|endif)` -/
def keywordPattern : Pattern :=
  group 1 (either (.text "if".toList) (either (.text "elif".toList)
    (either (.text "else".toList) (.text "endif".toList))))

/-- `^[\t ]*//#(if|elif|else|endif)(?:[\t ]+(.*?))?[\t ]*\r?$` -/
def linePattern : Pattern :=
  seq lineStart (seq (greedy isSpaceOrTab)
    (seq (.text "//#".toList) (seq keywordPattern afterKeywordPattern)))

/-- What a fit of the pattern at an offset comes to: the first group is the keyword, the second one
the predicate with blanks behind it. -/
def itemOf? (offset : Nat) (f : Fit) : Option Item :=
  ((f.group? 1).bind Tag.ofKeyword?).map fun tag =>
    match tag.needsPredicate, ((f.group? 2).map trimEnd).filter fun p => !p.isEmpty with
    | true, none => .error (.missingPredicate tag offset)
    | false, some text => .error (.unexpectedPredicate tag offset text)
    | _, predicate => .ok { tag, predicate, span := ⟨offset, offset + bareLength f.taken⟩ }

end Directive

/-! ## Runs -/

namespace Pattern

variable {member : Char → Bool} {p : Cursor}

theorem fits_seq (first second : Pattern) (p : Cursor) :
    (seq first second).fits p =
      (first.fits p).flatMap fun f => (second.fits (p.advance f.taken)).map f.append := rfl

theorem fits_either (left right : Pattern) (p : Cursor) :
    (either left right).fits p = left.fits p ++ right.fits p := rfl

theorem advance_nil (p : Cursor) : p.advance [] = p := rfl

theorem advance_rest {taken rest : Text} (h : p.rest = taken ++ rest) :
    (p.advance taken).rest = rest := by
  rw [Cursor.advance, h, List.drop_left]

theorem fits_text_seq {t : Text} {second : Pattern} (h : t <+: p.rest) :
    (seq (.text t) second).fits p = (second.fits (p.advance t)).map (Fit.append ⟨t, []⟩) := by
  rw [fits_seq, fits, if_pos (List.isPrefixOf_iff_prefix.mpr h), List.flatMap_cons,
    List.flatMap_nil, List.append_nil]

theorem fits_text_seq_of_not {t : Text} {second : Pattern} (h : ¬t <+: p.rest) :
    (seq (.text t) second).fits p = [] := by
  rw [fits_seq, fits, if_neg (mt List.isPrefixOf_iff_prefix.mp h), List.flatMap_nil]

theorem fits_lineStart_seq (second : Pattern) (p : Cursor) :
    (seq lineStart second).fits p = if p.opensLine then second.fits p else [] := by
  have hnothing : (second.fits p).map Fit.empty.append = second.fits p := List.map_id _
  rw [fits_seq, fits]
  split
  · rw [List.flatMap_cons, List.flatMap_nil, List.append_nil]
    exact hnothing
  · rfl

/-- What may be left out is tried before it is. -/
theorem fits_orNothing_seq (first second : Pattern) (p : Cursor) :
    (seq (orNothing first) second).fits p = (seq first second).fits p ++ second.fits p := by
  have hnothing : (second.fits p).map (Fit.append ⟨[], []⟩) = second.fits p := List.map_id _
  rw [fits_seq, orNothing, fits_either, List.flatMap_append, ← fits_seq, ← fits_seq,
    fits_text_seq List.nil_prefix, advance_nil, hnothing]

/-- The longest run comes first, and every other one leaves a character of the class behind it. -/
theorem exists_longestFirst (member : Char → Bool) (t : Text) :
    ∃ more, longestFirst member t = t.takeWhile member :: more ∧
      ∀ u ∈ more, ∃ c rest, t = u ++ c :: rest ∧ member c = true := by
  induction t with
  | nil => exact ⟨[], rfl, fun u hu => by cases hu⟩
  | cons c t ih =>
    rw [longestFirst]
    by_cases hc : member c = true
    · obtain ⟨more, hmore, hshorter⟩ := ih
      rw [if_pos hc, hmore, List.takeWhile_cons_of_pos hc]
      refine ⟨more.map (c :: ·) ++ [[]], rfl, fun u hu => ?_⟩
      rcases List.mem_append.mp hu with hu | hu
      · obtain ⟨v, hv, rfl⟩ := List.mem_map.mp hu
        obtain ⟨d, rest, rfl, hd⟩ := hshorter v hv
        exact ⟨d, rest, rfl, hd⟩
      · rw [List.mem_singleton.mp hu]
        exact ⟨c, t, rfl, hc⟩
    · rw [if_neg hc, List.takeWhile_cons_of_neg hc]
      exact ⟨[], rfl, fun u hu => by cases hu⟩

/-- **A greedy run takes all it can**, if what follows cannot start inside it. -/
theorem fits_run_seq {second : Pattern}
    (hsecond : ∀ q : Cursor, (∃ c, q.rest.head? = some c ∧ member c = true) → second.fits q = [])
    (p : Cursor) :
    (seq (greedy member) second).fits p =
      (second.fits (p.advance (p.rest.takeWhile member))).map
        (Fit.append ⟨p.rest.takeWhile member, []⟩) := by
  obtain ⟨more, hmore, hshorter⟩ := exists_longestFirst member p.rest
  have hothers : more.flatMap (fun u => (second.fits (p.advance u)).map (Fit.append ⟨u, []⟩)) =
      [] := by
    rw [List.flatMap_eq_nil_iff]
    intro u hu
    obtain ⟨c, rest, hrest, hc⟩ := hshorter u hu
    rw [hsecond _ ⟨c, by rw [advance_rest hrest]; rfl, hc⟩]
    rfl
  rw [fits_seq, fits, hmore, List.map_cons, List.flatMap_cons, List.flatMap_map, hothers,
    List.append_nil]

/-- All of a run is among its parts, and every part is an initial one. -/
theorem mem_shortestFirst_takeWhile (member : Char → Bool) (t : Text) :
    t.takeWhile member ∈ shortestFirst member t ∧
      ∀ u ∈ shortestFirst member t, ∃ rest, t.takeWhile member = u ++ rest := by
  induction t with
  | nil => exact ⟨List.mem_singleton.mpr rfl, fun u hu => ⟨[], by simp_all [shortestFirst]⟩⟩
  | cons c t ih =>
    rw [shortestFirst]
    by_cases hc : member c = true
    · rw [if_pos hc, List.takeWhile_cons_of_pos hc]
      refine ⟨List.mem_cons_of_mem _ (List.mem_map_of_mem ih.1), fun u hu => ?_⟩
      rcases List.mem_cons.mp hu with rfl | hu
      · exact ⟨_, rfl⟩
      · obtain ⟨v, hv, rfl⟩ := List.mem_map.mp hu
        obtain ⟨rest, hrest⟩ := ih.2 v hv
        exact ⟨rest, by rw [hrest]; rfl⟩
    · rw [if_neg hc, List.takeWhile_cons_of_neg hc]
      exact ⟨List.mem_singleton.mpr rfl, fun u hu => ⟨[], by simp_all⟩⟩

/-- What comes first of many is the first of the first one that gives anything. -/
theorem exists_head?_flatMap {α β : Type} {f : α → List β} {l : List α}
    (h : ∃ a ∈ l, f a ≠ []) : ∃ a ∈ l, f a ≠ [] ∧ (l.flatMap f).head? = (f a).head? := by
  induction l with
  | nil =>
    obtain ⟨a, ha, -⟩ := h
    cases ha
  | cons a l ih =>
    rw [List.flatMap_cons]
    by_cases ha : f a = []
    · obtain ⟨b, hb, hfb⟩ := h
      have hmem : b ∈ l := by
        rcases List.mem_cons.mp hb with rfl | hb
        · exact absurd ha hfb
        · exact hb
      obtain ⟨d, hd, hfd, hhead⟩ := ih ⟨b, hmem, hfb⟩
      exact ⟨d, List.mem_cons_of_mem a hd, hfd, by rw [ha, List.nil_append, hhead]⟩
    · obtain ⟨b, bs, hb⟩ := List.exists_cons_of_ne_nil ha
      exact ⟨a, List.mem_cons_self, ha, by rw [hb]; rfl⟩

end Pattern

/-! ## The end of a directive line -/

namespace Directive

open Pattern

variable {p : Cursor} {r behind : Text}

theorem fits_lineEnd (hrest : p.rest = r ++ behind) (hr : '\n' ∉ r)
    (hbehind : behind = [] ∨ behind.head? = some '\n') :
    lineEnd.fits p = if r = [] then [.empty] else [] := by
  rw [fits, hrest]
  cases r with
  | nil => rw [List.nil_append, if_pos hbehind, if_pos rfl]
  | cons c r =>
    have hc : c ≠ '\n' := fun h => hr (h ▸ List.mem_cons_self)
    rw [if_neg (by simp [hc]), if_neg (List.cons_ne_nil c r)]

/-- A run of characters other than line feeds stays inside its line. -/
theorem takeWhile_append_behind {member : Char → Bool} (hmember : member '\n' = false)
    (hbehind : behind = [] ∨ behind.head? = some '\n') (r : Text) :
    (r ++ behind).takeWhile member = r.takeWhile member := by
  induction r with
  | nil =>
    rcases hbehind with rfl | hbehind
    · rfl
    · obtain ⟨u, rfl⟩ := List.head?_eq_some_iff.mp hbehind
      exact List.takeWhile_cons_of_neg (by rw [hmember]; exact Bool.false_ne_true)
  | cons c r ih =>
    rw [List.cons_append, List.takeWhile_cons, List.takeWhile_cons, ih]

theorem fits_lineEndPattern_of_blank {c : Char} (hrest : p.rest.head? = some c)
    (hc : isSpaceOrTab c = true) : lineEndPattern.fits p = [] := by
  obtain ⟨u, hu⟩ := List.head?_eq_some_iff.mp hrest
  have hreturn : ¬['\r'] <+: p.rest := by
    rintro ⟨v, hv⟩
    rw [hu] at hv
    rw [← (List.cons.inj hv).1] at hc
    exact absurd hc (by decide)
  have hfeed : ¬(p.rest = [] ∨ p.rest.head? = some '\n') := by
    rw [hu]
    rintro (h | h)
    · cases h
    · rw [Option.some.inj h] at hc
      exact absurd hc (by decide)
  rw [lineEndPattern, fits_orNothing_seq, fits_text_seq_of_not hreturn, fits, if_neg hfeed]
  rfl

theorem fits_lineEndPattern (hrest : p.rest = r ++ behind) (hr : '\n' ∉ r)
    (hbehind : behind = [] ∨ behind.head? = some '\n') :
    lineEndPattern.fits p = if r = [] ∨ r = ['\r'] then [⟨r, []⟩] else [] := by
  rw [lineEndPattern, fits_orNothing_seq, fits_lineEnd hrest hr hbehind]
  by_cases hreturn : ∃ u, r = '\r' :: u
  · obtain ⟨u, rfl⟩ := hreturn
    have hu : '\n' ∉ u := fun h => hr (List.mem_cons_of_mem _ h)
    have hafter : (p.advance ['\r']).rest = u ++ behind := advance_rest hrest
    have hbehindReturn := fits_lineEnd hafter hu hbehind
    rw [fits_text_seq ⟨u ++ behind, hrest.symm⟩, hbehindReturn]
    cases u with
    | nil => rfl
    | cons c u => rfl
  · have hfirst : ¬['\r'] <+: p.rest := by
      rintro ⟨u, hu⟩
      rw [hrest] at hu
      cases r with
      | nil =>
        rw [List.nil_append] at hu
        simp [← hu] at hbehind
      | cons c r => exact hreturn ⟨r, by rw [(List.cons.inj hu).1]⟩
    have hother : r ≠ ['\r'] := fun h => hreturn ⟨[], h⟩
    rw [fits_text_seq_of_not hfirst, List.nil_append]
    by_cases hnil : r = []
    · rw [if_pos hnil, if_pos (.inl hnil), hnil]
      rfl
    · rw [if_neg hnil, if_neg (by simp [hnil, hother])]

/-- At the end of a directive line there may be blanks and a carriage return. -/
theorem fits_blankEndPattern (hrest : p.rest = r ++ behind) (hr : '\n' ∉ r)
    (hbehind : behind = [] ∨ behind.head? = some '\n') :
    blankEndPattern.fits p =
      if skipSpaces r = [] ∨ skipSpaces r = ['\r'] then [⟨r, []⟩] else [] := by
  have htake : p.rest.takeWhile isSpaceOrTab = r.takeWhile isSpaceOrTab := by
    rw [hrest]
    exact takeWhile_append_behind (by decide) hbehind r
  have hsplit := takeWhile_append_skipSpaces r
  have hafter : (p.advance (r.takeWhile isSpaceOrTab)).rest = skipSpaces r ++ behind :=
    advance_rest (by rw [hrest, ← List.append_assoc, hsplit])
  have hskip : '\n' ∉ skipSpaces r := fun h => hr (mem_of_mem_skipSpaces h)
  rw [blankEndPattern, fits_run_seq fun q ⟨c, hq, hc⟩ => fits_lineEndPattern_of_blank hq hc, htake,
    fits_lineEndPattern hafter hskip hbehind]
  split
  · rw [List.map_cons, List.map_nil, Fit.append, hsplit]
    rfl
  · rfl

/-! ## What follows the keyword -/

/-- A run that is not empty comes first with all of its characters. -/
theorem exists_fits_atLeastOne {member : Char → Bool} {c : Char} {u : Text}
    (hrest : p.rest = c :: u) (hc : member c = true) :
    ∃ more, (atLeastOne member).fits p = ⟨c :: u.takeWhile member, []⟩ :: more := by
  obtain ⟨others, hothers, -⟩ := exists_longestFirst member u
  have hafter : (p.advance [c]).rest = u := advance_rest hrest
  refine ⟨(others.map fun t => (⟨t, []⟩ : Fit)).map (Fit.append ⟨[c], []⟩), ?_⟩
  rw [atLeastOne, fits_seq, fits, hrest]
  simp only [if_pos hc, List.flatMap_cons, List.flatMap_nil, List.append_nil, fits, hafter, hothers,
    List.map_cons]
  rfl

/-- The blanks behind the keyword and a part of what follows them, as the group of the predicate. -/
def predicateFit (blanks part : Text) : Fit :=
  ⟨blanks ++ part, [(2, part)]⟩

/-- The blanks behind the keyword are taken whole first, then the group tries its parts. -/
theorem exists_fits_predicatePattern {c : Char} {u : Text} (hrest : p.rest = (c :: u) ++ behind)
    (hc : isSpaceOrTab c = true) (hbehind : behind = [] ∨ behind.head? = some '\n') :
    ∃ more, predicatePattern.fits p =
      (shortestFirst (· ≠ '\n') (skipSpaces u ++ behind)).map
        (predicateFit (c :: u.takeWhile isSpaceOrTab)) ++ more := by
  have htake : (u ++ behind).takeWhile isSpaceOrTab = u.takeWhile isSpaceOrTab :=
    takeWhile_append_behind (by decide) hbehind u
  have hsplit := takeWhile_append_skipSpaces u
  have hafter : (p.advance (c :: u.takeWhile isSpaceOrTab)).rest = skipSpaces u ++ behind :=
    advance_rest (by rw [hrest, List.cons_append, List.cons_append, ← List.append_assoc, hsplit])
  obtain ⟨more, hmore⟩ := exists_fits_atLeastOne (u := u ++ behind) hrest hc
  rw [predicatePattern, fits_seq, hmore, List.flatMap_cons]
  refine ⟨_, congrArg (· ++ _) ?_⟩
  rw [htake, fits, fits, hafter, List.map_map, List.map_map]
  rfl

/-- Behind a part of the line that the group takes, the line must end. -/
theorem fits_behind_part {blanks part rest : Text} (hrest : p.rest = blanks ++ part ++ rest ++ behind)
    (hfeed : '\n' ∉ rest) (hbehind : behind = [] ∨ behind.head? = some '\n') :
    (blankEndPattern.fits (p.advance (predicateFit blanks part).taken)).map
        (predicateFit blanks part).append =
      if skipSpaces rest = [] ∨ skipSpaces rest = ['\r'] then
        [⟨blanks ++ part ++ rest, [(2, part)]⟩]
      else [] := by
  have hafter : (p.advance (predicateFit blanks part).taken).rest = rest ++ behind :=
    advance_rest (by rw [hrest, List.append_assoc, predicateFit])
  rw [fits_blankEndPattern hafter hfeed hbehind]
  split
  · rfl
  · rfl

/-- Behind a blank the rest of the line fits, however it goes on: the group takes the shortest part
of it behind which there is nothing but blanks and a carriage return. -/
theorem head?_fits_afterKeyword_of_blank {c : Char} {u : Text} (hrest : p.rest = (c :: u) ++ behind)
    (hc : isSpaceOrTab c = true) (hu : '\n' ∉ u)
    (hbehind : behind = [] ∨ behind.head? = some '\n') :
    ∃ part rest, skipSpaces u = part ++ rest ∧
      (skipSpaces rest = [] ∨ skipSpaces rest = ['\r']) ∧
      (afterKeywordPattern.fits p).head? = some ⟨c :: u, [(2, part)]⟩ := by
  obtain ⟨more, hmore⟩ := exists_fits_predicatePattern hrest hc hbehind
  obtain ⟨blanks, hblanks⟩ : ∃ blanks, blanks = c :: u.takeWhile isSpaceOrTab := ⟨_, rfl⟩
  rw [← hblanks] at hmore
  have hskip : '\n' ∉ skipSpaces u := fun h => hu (mem_of_mem_skipSpaces h)
  have hsplit := takeWhile_append_skipSpaces u
  have hline : (skipSpaces u ++ behind).takeWhile (· ≠ '\n') = skipSpaces u := by
    have hall : ∀ d ∈ skipSpaces u, decide (d ≠ '\n') = true := fun d hd =>
      decide_eq_true fun h => hskip (h ▸ hd)
    rw [takeWhile_append_behind (by decide) hbehind]
    have hnil := @List.takeWhile_append_of_pos _ _ (skipSpaces u) [] hall
    simpa using hnil
  obtain ⟨hwhole, hparts⟩ := mem_shortestFirst_takeWhile (· ≠ '\n') (skipSpaces u ++ behind)
  rw [hline] at hwhole hparts
  have hend : ∀ part rest, skipSpaces u = part ++ rest →
      (blankEndPattern.fits (p.advance (predicateFit blanks part).taken)).map
          (predicateFit blanks part).append =
        if skipSpaces rest = [] ∨ skipSpaces rest = ['\r'] then [⟨c :: u, [(2, part)]⟩]
        else [] := by
    intro part rest hpart
    have hu' : blanks ++ part ++ rest = c :: u := by
      rw [List.append_assoc, ← hpart, hblanks, List.cons_append, hsplit]
    rw [fits_behind_part (by rw [hu', hrest]) (fun h => hskip (hpart ▸ List.mem_append_right part h))
      hbehind, hu']
  obtain ⟨f, hf, hne, hhead⟩ := exists_head?_flatMap
    (f := fun f : Fit => (blankEndPattern.fits (p.advance f.taken)).map f.append)
    (l := (shortestFirst (· ≠ '\n') (skipSpaces u ++ behind)).map (predicateFit blanks))
    ⟨_, List.mem_map_of_mem hwhole, by
      rw [hend (skipSpaces u) [] (List.append_nil _).symm]
      exact List.cons_ne_nil _ _⟩
  obtain ⟨part, hpart, rfl⟩ := List.mem_map.mp hf
  obtain ⟨rest, hrest'⟩ := hparts part hpart
  have hfits := hend part rest hrest'
  by_cases hblank : skipSpaces rest = [] ∨ skipSpaces rest = ['\r']
  · refine ⟨part, rest, hrest', hblank, ?_⟩
    rw [hfits, if_pos hblank] at hhead
    rw [afterKeywordPattern, fits_orNothing_seq, fits_seq, hmore, List.flatMap_append,
      List.head?_append, List.head?_append, hhead]
    rfl
  · rw [hfits, if_neg hblank] at hne
    exact absurd rfl hne

/-- Outside the blank case the line must end where the keyword does. -/
theorem fits_afterKeyword_of_not_blank (hrest : p.rest = r ++ behind) (hr : '\n' ∉ r)
    (hbehind : behind = [] ∨ behind.head? = some '\n')
    (hblank : ∀ c, r.head? = some c → isSpaceOrTab c = false) :
    afterKeywordPattern.fits p = if r = [] ∨ r = ['\r'] then [⟨r, []⟩] else [] := by
  have hone : (Pattern.one isSpaceOrTab).fits p = [] := by
    rw [fits, hrest]
    cases r with
    | nil =>
      rcases hbehind with rfl | hbehind
      · rfl
      · obtain ⟨u, rfl⟩ := List.head?_eq_some_iff.mp hbehind
        rfl
    | cons c r => exact if_neg (Bool.eq_false_iff.mp (hblank c rfl))
  have hskip : skipSpaces r = r := by
    cases r with
    | nil => rfl
    | cons c r => exact List.dropWhile_cons_of_neg (Bool.eq_false_iff.mp (hblank c rfl))
  rw [afterKeywordPattern, fits_orNothing_seq, fits_blankEndPattern hrest hr hbehind, hskip,
    fits_seq, predicatePattern, fits_seq, atLeastOne, fits_seq, hone]
  rfl

/-- Where nothing but blanks and a carriage return is left, all of it is blank. -/
theorem isBlank_of_skipSpaces {t : Text} (h : skipSpaces t = [] ∨ skipSpaces t = ['\r']) :
    ∀ c ∈ t, isBlank c = true := by
  have hsplit := takeWhile_append_skipSpaces t
  intro c hc
  rw [← hsplit] at hc
  rcases List.mem_append.mp hc with hc | hc
  · exact isBlank_of_isSpaceOrTab (isSpaceOrTab_of_mem_takeWhile hc)
  · rcases h with h | h
    · rw [h] at hc
      cases hc
    · rw [h] at hc
      rw [List.mem_singleton.mp hc]
      decide

theorem endsKeyword_iff {after : Text} :
    endsKeyword after = true ↔
      after = [] ∨ after = ['\r'] ∨ ∃ c u, after = c :: u ∧ isSpaceOrTab c = true := by
  unfold endsKeyword
  split
  · simp
  · simp
  · next c u hreturn =>
    constructor
    · intro hc
      exact .inr (.inr ⟨c, u, rfl, hc⟩)
    · rintro (h | h | ⟨d, v, h, hd⟩)
      · cases h
      · obtain ⟨rfl, rfl⟩ := List.cons.inj h
        exact absurd rfl (hreturn rfl)
      · rw [(List.cons.inj h).1]
        exact hd

/-- **Where a keyword ends, the rest of the line fits**, and the group then holds the predicate. -/
theorem exists_fit_afterKeyword {after : Text} (hrest : p.rest = after ++ behind)
    (hafter : '\n' ∉ after) (hbehind : behind = [] ∨ behind.head? = some '\n')
    (hends : endsKeyword after = true) :
    ∃ groups, (afterKeywordPattern.fits p).head? = some ⟨after, groups⟩ ∧
      ((groups.lookup 2).map trimEnd).filter (fun t => !t.isEmpty) = predicateOf? after := by
  by_cases hblank : ∃ c u, after = c :: u ∧ isSpaceOrTab c = true
  · obtain ⟨c, u, rfl, hc⟩ := hblank
    have hu : '\n' ∉ u := fun h => hafter (List.mem_cons_of_mem _ h)
    obtain ⟨part, rest, hpart, hend, hhead⟩ :=
      head?_fits_afterKeyword_of_blank hrest hc hu hbehind
    have hpredicate : trimEnd (skipSpaces (c :: u)) = trimEnd part := by
      rw [skipSpaces, List.dropWhile_cons_of_pos hc]
      change trimEnd (skipSpaces u) = trimEnd part
      rw [hpart, trimEnd_append_of_blank part (isBlank_of_skipSpaces hend)]
    refine ⟨[(2, part)], hhead, ?_⟩
    rw [predicateOf?, hpredicate]
    cases htrim : trimEnd part with
    | nil => simp [htrim]
    | cons d t => simp [htrim]
  · have hother : ∀ c, after.head? = some c → isSpaceOrTab c = false := by
      intro c hhead
      obtain ⟨u, rfl⟩ := List.head?_eq_some_iff.mp hhead
      exact Bool.eq_false_iff.mpr fun hc => hblank ⟨c, u, rfl, hc⟩
    have hend : after = [] ∨ after = ['\r'] := by
      rcases endsKeyword_iff.mp hends with h | h | h
      · exact .inl h
      · exact .inr h
      · exact absurd h hblank
    have hnothing : predicateOf? after = none := by
      rcases hend with rfl | rfl
      · rfl
      · decide
    refine ⟨[], ?_, by rw [hnothing]; rfl⟩
    rw [fits_afterKeyword_of_not_blank hrest hafter hbehind hother, if_pos hend]
    rfl

/-- Where a keyword goes on, nothing fits. -/
theorem fits_afterKeyword_eq_nil {after : Text} (hrest : p.rest = after ++ behind)
    (hafter : '\n' ∉ after) (hbehind : behind = [] ∨ behind.head? = some '\n')
    (hends : ¬endsKeyword after = true) : afterKeywordPattern.fits p = [] := by
  have hnot := mt endsKeyword_iff.mpr hends
  have hother : ∀ c, after.head? = some c → isSpaceOrTab c = false := by
    intro c hhead
    obtain ⟨u, rfl⟩ := List.head?_eq_some_iff.mp hhead
    exact Bool.eq_false_iff.mpr fun hc => hnot (.inr (.inr ⟨c, u, rfl, hc⟩))
  rw [fits_afterKeyword_of_not_blank hrest hafter hbehind hother, if_neg]
  rintro (h | h)
  · exact hnot (.inl h)
  · exact hnot (.inr (.inl h))

/-! ## The line -/

/-- A text without line feeds that stands at a place stands in its line. -/
theorem prefix_append_behind {t : Text} (ht : '\n' ∉ t)
    (hbehind : behind = [] ∨ behind.head? = some '\n') (r : Text) :
    t <+: r ++ behind ↔ t <+: r := by
  constructor
  · rintro ⟨u, hu⟩
    rcases List.append_eq_append_iff.mp hu with ⟨m, hr, -⟩ | ⟨m, ht', hm⟩
    · exact ⟨m, hr.symm⟩
    · cases m with
      | nil => exact ⟨[], by simpa using ht'⟩
      | cons c m =>
        have hc : c = '\n' := by
          rcases hbehind with rfl | hbehind
          · cases hm
          · rw [hm] at hbehind
            exact Option.some.inj hbehind
        exact absurd (ht' ▸ List.mem_append_right r (hc ▸ List.mem_cons_self)) ht
  · intro h
    exact h.trans (List.prefix_append r behind)

theorem read?_eq_some_iff {r after : Text} {tag : Tag} :
    Tag.read? r = some (tag, after) ↔ r = tag.keyword.toList ++ after := by
  constructor
  · intro h
    unfold Tag.read? at h
    split at h
    case h_5 => cases h
    all_goals
      obtain ⟨rfl, rfl⟩ := Prod.mk.inj (Option.some.inj h)
      rfl
  · rintro rfl
    cases tag <;> rfl

theorem not_mem_keyword (tag : Tag) : '\n' ∉ tag.keyword.toList := by
  cases tag <;> decide

/-- The keywords are tried one after another, but only one of them can stand at a place. -/
theorem fits_keywordPattern (hrest : p.rest = r ++ behind)
    (hbehind : behind = [] ∨ behind.head? = some '\n') :
    keywordPattern.fits p =
      match Tag.read? r with
      | none => []
      | some (tag, _) => [⟨tag.keyword.toList, [(1, tag.keyword.toList)]⟩] := by
  have htext : ∀ tag : Tag, (Pattern.text tag.keyword.toList).fits p =
      if tag.keyword.toList <+: r then [⟨tag.keyword.toList, []⟩] else [] := by
    intro tag
    rw [fits, hrest]
    simp only [List.isPrefixOf_iff_prefix, prefix_append_behind (not_mem_keyword tag) hbehind]
  have hfits : keywordPattern.fits p =
      ((Pattern.text Tag.ifTag.keyword.toList).fits p ++
        ((Pattern.text Tag.elifTag.keyword.toList).fits p ++
          ((Pattern.text Tag.elseTag.keyword.toList).fits p ++
            (Pattern.text Tag.endifTag.keyword.toList).fits p))).map
        fun f => ⟨f.taken, (1, f.taken) :: f.groups⟩ := rfl
  rw [hfits, htext, htext, htext, htext]
  cases hread : Tag.read? r with
  | none =>
    have hnone : ∀ tag : Tag, ¬tag.keyword.toList <+: r := by
      rintro tag ⟨after, rfl⟩
      rw [read?_eq_some_iff.mpr rfl] at hread
      cases hread
    simp only [if_neg (hnone _), List.append_nil, List.map_nil]
  | some found =>
    obtain ⟨tag, after⟩ := found
    obtain rfl := read?_eq_some_iff.mp hread
    have hone : ∀ other : Tag,
        other.keyword.toList <+: tag.keyword.toList ++ after ↔ other = tag := by
      intro other
      constructor
      · rintro ⟨u, hu⟩
        have hother := read?_eq_some_iff.mpr hu.symm
        rw [hread] at hother
        exact (Prod.mk.inj (Option.some.inj hother)).1.symm
      · rintro rfl
        exact List.prefix_append _ _
    simp only [hone]
    cases tag <;> rfl

/-- Behind the blanks that open a line, the pattern goes on with the marker and a keyword. -/
theorem fits_linePattern {line : Text} (hopen : p.opensLine = true)
    (hrest : p.rest = line ++ behind) (hbehind : behind = [] ∨ behind.head? = some '\n') :
    ∃ q : Cursor, q.rest = skipSpaces line ++ behind ∧
      linePattern.fits p =
        ((seq (.text "//#".toList) (seq keywordPattern afterKeywordPattern)).fits q).map
          (Fit.append ⟨line.takeWhile isSpaceOrTab, []⟩) := by
  have htake : p.rest.takeWhile isSpaceOrTab = line.takeWhile isSpaceOrTab := by
    rw [hrest]
    exact takeWhile_append_behind (by decide) hbehind line
  have hsplit := takeWhile_append_skipSpaces line
  have hmarker : ∀ q : Cursor, (∃ c, q.rest.head? = some c ∧ isSpaceOrTab c = true) →
      (seq (.text "//#".toList) (seq keywordPattern afterKeywordPattern)).fits q = [] := by
    rintro q ⟨c, hq, hc⟩
    refine fits_text_seq_of_not ?_
    rintro ⟨u, hu⟩
    rw [← hu] at hq
    rw [← Option.some.inj hq] at hc
    exact absurd hc (by decide)
  refine ⟨p.advance (line.takeWhile isSpaceOrTab), advance_rest ?_, ?_⟩
  · rw [hrest, ← List.append_assoc, hsplit]
  · rw [linePattern, fits_lineStart_seq, if_pos hopen, fits_run_seq hmarker, htake]

theorem fits_linePattern_eq_nil (hopen : ¬p.opensLine = true) : linePattern.fits p = [] := by
  rw [linePattern, fits_lineStart_seq, if_neg hopen]

/-- The groups of a fit give what the parts of the line give. -/
theorem itemOf?_eq {line after : Text} {tag : Tag} {groups : List (Nat × Text)}
    (hsplit : splitLine? line = some (tag, after))
    (hgroup : ((groups.lookup 2).map trimEnd).filter (fun t => !t.isEmpty) = predicateOf? after)
    (offset : Nat) :
    ∃ item, ofLine? offset line = some item ∧
      itemOf? offset ⟨line, (1, tag.keyword.toList) :: groups⟩ = some item := by
  have htag : Tag.ofKeyword? tag.keyword.toList = some tag := by cases tag <;> rfl
  have hfirst : (⟨line, (1, tag.keyword.toList) :: groups⟩ : Fit).group? 1 =
      some tag.keyword.toList := rfl
  have hsecond : (⟨line, (1, tag.keyword.toList) :: groups⟩ : Fit).group? 2 = groups.lookup 2 := rfl
  rw [ofLine?, hsplit, itemOf?, hfirst, hsecond, hgroup, Option.bind_some, htag]
  exact ⟨_, rfl, rfl⟩

/-- **At the start of a line the preferred fit is the whole line**, exactly if the line has the form
of a directive. -/
theorem fit_of_line {line : Text} (hopen : p.opensLine = true) (hrest : p.rest = line ++ behind)
    (hline : '\n' ∉ line) (hbehind : behind = [] ∨ behind.head? = some '\n') (offset : Nat) :
    (ofLine? offset line = none ∧ (linePattern.fits p).head? = none) ∨
      ∃ f item, (linePattern.fits p).head? = some f ∧ f.taken = line ∧
        ofLine? offset line = some item ∧ itemOf? offset f = some item := by
  obtain ⟨q, hq, hfits⟩ := fits_linePattern hopen hrest hbehind
  have hsplit := takeWhile_append_skipSpaces line
  have hskip : '\n' ∉ skipSpaces line := fun h => hline (mem_of_mem_skipSpaces h)
  have hnone : splitLine? line = none → ofLine? offset line = none := fun h => by
    rw [ofLine?, h, Option.map_none]
  rw [hfits]
  by_cases hmarker : "//#".toList <+: skipSpaces line
  · obtain ⟨r, hr⟩ := hmarker
    rw [← hr] at hq hskip
    have hfeed : '\n' ∉ r := fun h => hskip (List.mem_append_right _ h)
    have hrest' : (q.advance "//#".toList).rest = r ++ behind :=
      advance_rest (by rw [hq, List.append_assoc])
    have hline? : splitLine? line = (Tag.read? r).filter fun found => endsKeyword found.2 := by
      rw [splitLine?, ← hr]
      rfl
    rw [fits_text_seq ⟨r ++ behind, by rw [hq, List.append_assoc]⟩, fits_seq,
      fits_keywordPattern hrest' hbehind]
    cases hread : Tag.read? r with
    | none =>
      rw [hread] at hline?
      exact .inl ⟨hnone hline?, rfl⟩
    | some found =>
      obtain ⟨tag, after⟩ := found
      obtain rfl := read?_eq_some_iff.mp hread
      have hafter : '\n' ∉ after := fun h => hfeed (List.mem_append_right _ h)
      have hrest'' : ((q.advance "//#".toList).advance tag.keyword.toList).rest = after ++ behind :=
        advance_rest (by rw [hrest', List.append_assoc])
      simp only [List.flatMap_cons, List.flatMap_nil, List.append_nil, List.head?_map]
      rw [hread] at hline?
      by_cases hends : endsKeyword after = true
      · obtain ⟨groups, hhead, hgroup⟩ := exists_fit_afterKeyword hrest'' hafter hbehind hends
        have hfilter : splitLine? line = some (tag, after) := hline?.trans (if_pos hends)
        obtain ⟨item, hitem, hfit⟩ := itemOf?_eq hfilter hgroup offset
        refine .inr ⟨⟨line, (1, tag.keyword.toList) :: groups⟩, item, ?_, rfl, hitem, hfit⟩
        have htaken : line.takeWhile isSpaceOrTab ++
            ("//#".toList ++ (tag.keyword.toList ++ after)) = line := by rw [hr, hsplit]
        rw [hhead]
        simp only [Option.map_some, Fit.append, htaken]
        rfl
      · rw [fits_afterKeyword_eq_nil hrest'' hafter hbehind hends]
        exact .inl ⟨hnone (hline?.trans (if_neg hends)), rfl⟩
  · have hmarker' : ¬"//#".toList <+: q.rest := by
      rw [hq]
      exact mt (prefix_append_behind (by decide) hbehind _).mp hmarker
    have hline? : splitLine? line = none := by
      unfold splitLine?
      split
      · next rest h => exact absurd ⟨rest, h.symm⟩ hmarker
      · rfl
    rw [fits_text_seq_of_not hmarker']
    exact .inl ⟨hnone hline?, rfl⟩

/-! ## Searching -/

/-- What is found behind a line: nothing at the end of the text, and behind a line feed what the
next line opens with. -/
def foundBehind (offset : Nat) : Text → List (Nat × Fit)
  | [] => []
  | c :: rest => linePattern.foundFrom (offset + c.utf8Size) (some c) 0 rest

variable {offset : Nat} {previous : Option Char}

theorem opensLine_eq_false {c : Char} (hc : c ≠ '\n') (rest : Text) :
    ¬(Cursor.mk (some c) rest).opensLine = true := by
  simp [Cursor.opensLine, hc]

/-- Up to the end of a line that has been entered, nothing is found, whether its characters belong
to the last fit or not. -/
theorem foundFrom_inside_line (a : Text) (ha : '\n' ∉ a)
    (hbehind : behind = [] ∨ behind.head? = some '\n') {c : Char} (hc : c ≠ '\n')
    (inside : Nat) (hinside : inside = 0 ∨ inside = a.length) (offset : Nat) :
    linePattern.foundFrom offset (some c) inside (a ++ behind) =
      foundBehind (offset + byteLength a) behind := by
  have hnone : ∀ rest, (linePattern.fits ⟨some c, rest⟩).head? = none := fun rest => by
    rw [fits_linePattern_eq_nil (opensLine_eq_false hc rest)]
    rfl
  induction a generalizing offset c inside with
  | nil =>
    obtain rfl : inside = 0 := by rcases hinside with h | h <;> exact h
    cases behind with
    | nil =>
      rw [List.append_nil, foundFrom_nil, hnone]
      rfl
    | cons d rest =>
      rw [List.nil_append, foundFrom_of_none (hnone _)]
      rfl
  | cons d a ih =>
    have hd : d ≠ '\n' := fun h => ha (h ▸ List.mem_cons_self)
    have hnext := fun inside hinside =>
      ih (fun h => ha (List.mem_cons_of_mem d h)) hd inside hinside
        (offset + d.utf8Size) fun rest => by
          rw [fits_linePattern_eq_nil (opensLine_eq_false hd rest)]
          rfl
    rw [List.cons_append, byteLength_cons, ← Nat.add_assoc]
    rcases hinside with rfl | rfl
    · rw [foundFrom_of_none (hnone _)]
      exact hnext 0 (.inl rfl)
    · rw [List.length_cons, foundFrom_inside]
      exact hnext a.length (.inr rfl)

/-- What a search comes to. -/
def itemsOf (fits : List (Nat × Fit)) : List (Option Item) :=
  fits.map fun f => itemOf? f.1 f.2

/-- **A search takes line after line**: from the start of a line it gives the item of that line, if
there is one, and goes on behind it. -/
theorem itemsOf_foundFrom {line : Text} (hopen : ∀ rest, (Cursor.mk previous rest).opensLine = true)
    (hline : '\n' ∉ line) (hbehind : behind = [] ∨ behind.head? = some '\n') (offset : Nat) :
    itemsOf (linePattern.foundFrom offset previous 0 (line ++ behind)) =
      (ofLine? offset line).toList.map some ++
        itemsOf (foundBehind (offset + byteLength line) behind) := by
  have hfit := fit_of_line (p := ⟨previous, line ++ behind⟩) (hopen _) rfl hline hbehind offset
  cases line with
  | nil =>
    have hnone : ofLine? offset [] = none := rfl
    have hhead : (linePattern.fits ⟨previous, behind⟩).head? = none := by
      rcases hfit with ⟨-, hhead⟩ | ⟨f, item, -, -, hitem, -⟩
      · exact hhead
      · cases hitem
    rw [hnone]
    cases behind with
    | nil =>
      rw [List.append_nil, foundFrom_nil, hhead]
      rfl
    | cons c rest =>
      rw [List.nil_append, foundFrom_of_none hhead]
      rfl
  | cons c line =>
    have hc : c ≠ '\n' := fun h => hline (h ▸ List.mem_cons_self)
    have hinside := fun inside hinside =>
      foundFrom_inside_line line (fun h => hline (List.mem_cons_of_mem c h)) hbehind hc
        inside hinside (offset + c.utf8Size)
    rw [byteLength_cons, ← Nat.add_assoc]
    rcases hfit with ⟨hnone, hhead⟩ | ⟨f, item, hhead, htaken, hitem, hof⟩
    · rw [List.cons_append] at hhead ⊢
      rw [foundFrom_of_none hhead, hnone]
      exact congrArg itemsOf (hinside 0 (.inl rfl))
    · rw [List.cons_append] at hhead ⊢
      have hlength : f.taken.length - 1 = line.length := by
        rw [htaken, List.length_cons, Nat.add_sub_cancel]
      rw [foundFrom_of_some hhead, hlength, hinside line.length (.inr rfl), hitem]
      exact congrArg (· :: _) hof

/-- The same for lines put together. -/
theorem itemsOf_foundFrom_joinWith (ls : List Text) (hls : ls ≠ []) (hlines : ∀ l ∈ ls, '\n' ∉ l)
    (previous : Option Char) (hopen : ∀ rest, (Cursor.mk previous rest).opensLine = true)
    (offset : Nat) :
    itemsOf (linePattern.foundFrom offset previous 0 (joinWith '\n' ls)) =
      (itemsFrom offset ls).map some := by
  induction ls generalizing offset previous with
  | nil => exact absurd rfl hls
  | cons line more ih =>
    have hline : '\n' ∉ line := hlines line List.mem_cons_self
    rw [itemsFrom, List.map_append]
    cases more with
    | nil =>
      have h := itemsOf_foundFrom hopen hline (.inl rfl) offset
      rw [List.append_nil] at h
      exact h
    | cons next more =>
      have hnext := ih (List.cons_ne_nil next more)
        (fun l hl => hlines l (List.mem_cons_of_mem line hl)) (some '\n')
        (fun rest => rfl) (offset + byteLength line + 1)
      rw [joinWith_cons_cons, itemsOf_foundFrom hopen hline (.inr rfl) offset, ← hnext]
      rfl

/-- **Searching for the pattern gives the items of a text**, line by line. -/
theorem itemsOf_found (t : Text) : itemsOf (linePattern.found t) = (items t).map some := by
  have h := itemsOf_foundFrom_joinWith (lines t) (pieces_ne_nil '\n' t)
    (fun l hl => not_mem_of_mem_pieces hl) none (fun rest => rfl) 0
  rwa [lines, joinWith_pieces] at h

end Directive

end ConditionalText
