import ConditionalText.Proofs.Directive.Pattern
import ConditionalText.Text.Location

/-!
# The directive lines of a text

`IsLine` says of a part of a text that it is a whole line of it, `HasForm` that a line is a
directive line. The directive lines of a text, in order and with their numbers, are
`directiveLines`.

* `IsLine.locate`: a line starts at column 1 of the line with its number.
* `splitLine?_eq_some_iff`: a line can be split exactly if it has the form.
* `mem_directiveLines_iff`: **the directive lines are the lines of the text that have the form.**
* `items_eq_directiveLines`: there is one item for each of them.
* `scan_line_by_line`: **scanning goes line by line**, the search for the pattern included.
-/

namespace ConditionalText

open ConditionalText.Text

/-! ## Lines -/

namespace Text

theorem pieces_append (separator : Char) (a b : Text) :
    pieces separator (a ++ separator :: b) = pieces separator a ++ pieces separator b := by
  induction a with
  | nil =>
    obtain ⟨piece, more, h⟩ := List.exists_cons_of_ne_nil (pieces_ne_nil separator b)
    simp [pieces, h]
  | cons c a ih =>
    obtain ⟨piece, more, h⟩ := List.exists_cons_of_ne_nil (pieces_ne_nil separator a)
    rw [List.cons_append, pieces, ih, pieces, h]
    by_cases hc : c = separator
    · simp [hc]
    · simp [hc]

theorem pieces_of_not_mem {separator : Char} {a : Text} (h : separator ∉ a) :
    pieces separator a = [a] := by
  induction a with
  | nil => rfl
  | cons c a ih =>
    have hc : ¬c = separator := fun hc => h (hc ▸ List.mem_cons_self)
    rw [pieces, ih fun ha => h (List.mem_cons_of_mem c ha)]
    exact if_neg hc

theorem length_pieces (separator : Char) (t : Text) :
    (pieces separator t).length = t.count separator + 1 := by
  induction t with
  | nil => rfl
  | cons c t ih =>
    obtain ⟨piece, more, h⟩ := List.exists_cons_of_ne_nil (pieces_ne_nil separator t)
    rw [h] at ih
    rw [pieces, h]
    by_cases hc : c = separator
    · subst hc
      simpa using ih
    · rw [List.count_cons_of_ne hc]
      simpa [hc] using ih

/-- The number of bytes of lines, each with a line feed behind it. -/
def endedLength : List Text → Nat
  | [] => 0
  | line :: more => byteLength line + 1 + endedLength more

theorem endedLength_lines (t : Text) : endedLength (lines t) = byteLength t + 1 := by
  unfold lines
  induction t with
  | nil => rfl
  | cons c t ih =>
    obtain ⟨piece, more, h⟩ := List.exists_cons_of_ne_nil (pieces_ne_nil '\n' t)
    rw [h] at ih
    rw [pieces, h]
    by_cases hc : c = '\n'
    · subst hc
      simp only [endedLength, if_true, byteLength_nil, byteLength_cons] at ih ⊢
      have hone : '\n'.utf8Size = 1 := rfl
      omega
    · simp only [endedLength, if_neg hc, byteLength_cons] at ih ⊢
      omega

/-- A line of a text, with what stands before and behind it. -/
structure IsLine (t before line behind : Text) : Prop where
  text_eq : t = before ++ (line ++ behind)
  opens : before = [] ∨ before.getLast? = some '\n'
  whole : '\n' ∉ line
  ends : behind = [] ∨ behind.head? = some '\n'

/-- A line of a text is one of its pieces. -/
theorem IsLine.exists_lines_eq {t before line behind : Text} (h : IsLine t before line behind) :
    ∃ earlier later, lines t = earlier ++ line :: later ∧ earlier.length = before.count '\n' ∧
      endedLength earlier = byteLength before := by
  -- the line and what follows it
  have hline : ∃ later, lines (line ++ behind) = line :: later := by
    rcases h.ends with rfl | hends
    · exact ⟨[], by rw [List.append_nil]; exact pieces_of_not_mem h.whole⟩
    · obtain ⟨rest, rfl⟩ := List.head?_eq_some_iff.mp hends
      refine ⟨lines rest, ?_⟩
      rw [lines, pieces_append, pieces_of_not_mem h.whole]
      rfl
  obtain ⟨later, hlater⟩ := hline
  rw [h.text_eq]
  rcases h.opens with rfl | hopens
  · exact ⟨[], later, hlater, rfl, rfl⟩
  · obtain ⟨body, rfl⟩ := List.getLast?_eq_some_iff.mp hopens
    have hbefore : body ++ ['\n'] ++ (line ++ behind) = body ++ '\n' :: (line ++ behind) := by
      rw [List.append_assoc]
      rfl
    refine ⟨lines body, later, ?_, ?_, ?_⟩
    · rw [hbefore, lines, pieces_append]
      exact congrArg _ hlater
    · rw [lines, length_pieces, List.count_append]
      rfl
    · rw [endedLength_lines, byteLength_append]
      rfl

/-- A piece of a text is one of its lines. -/
theorem exists_isLine_of_lines_eq {t line : Text} {earlier later : List Text}
    (h : lines t = earlier ++ line :: later) :
    ∃ before behind, IsLine t before line behind ∧ earlier.length = before.count '\n' ∧
      endedLength earlier = byteLength before := by
  have hfeed : ∀ l ∈ earlier ++ line :: later, '\n' ∉ l := fun l hl =>
    not_mem_of_mem_pieces (h ▸ hl)
  have ht : joinWith '\n' (earlier ++ line :: later) = t := by rw [← h, lines, joinWith_pieces]
  clear h
  induction earlier generalizing t with
  | nil =>
    have hline : '\n' ∉ line := hfeed line List.mem_cons_self
    cases later with
    | nil =>
      have htext : t = line := ht.symm
      exact ⟨[], [], ⟨by rw [htext]; simp, .inl rfl, hline, .inl rfl⟩, rfl, rfl⟩
    | cons next later =>
      exact ⟨[], '\n' :: joinWith '\n' (next :: later), ⟨ht.symm, .inl rfl, hline, .inr rfl⟩, rfl,
        rfl⟩
  | cons first earlier ih =>
    obtain ⟨before, behind, hline, hlength, hended⟩ :=
      ih (fun l hl => hfeed l (List.mem_cons_of_mem first hl)) rfl
    have hfirst : '\n' ∉ first := hfeed first List.mem_cons_self
    have htext : t = first ++ '\n' :: joinWith '\n' (earlier ++ line :: later) := by
      rw [← ht]
      cases earlier with
      | nil => rfl
      | cons next earlier => rfl
    refine ⟨first ++ '\n' :: before, behind, ⟨?_, .inr ?_, hline.whole, hline.ends⟩, ?_, ?_⟩
    · rw [htext, hline.text_eq, List.append_assoc]
      rfl
    · rcases hline.opens with rfl | hopens
      · exact List.getLast?_concat
      · obtain ⟨body, rfl⟩ := List.getLast?_eq_some_iff.mp hopens
        rw [← List.cons_append, ← List.append_assoc]
        exact List.getLast?_concat
    · rw [List.length_cons, hlength, List.count_append, List.count_eq_zero.mpr hfirst,
        List.count_cons_self, Nat.zero_add]
    · have hone : '\n'.utf8Size = 1 := rfl
      rw [byteLength_append, byteLength_cons, hone, ← hended]
      simp only [endedLength]
      omega

theorem Location.after_of_opens {before : Text}
    (h : before = [] ∨ before.getLast? = some '\n') :
    Location.after before = ⟨1 + before.count '\n', 1⟩ := by
  have hlast : lastLine before = [] := by
    rcases h with rfl | h
    · rfl
    · obtain ⟨body, rfl⟩ := List.getLast?_eq_some_iff.mp h
      simp [lastLine]
  rw [Location.after, hlast]
  rfl

/-- **A line starts at column 1 of the line with its number.** -/
theorem IsLine.locate {t before line behind : Text} (h : IsLine t before line behind) :
    locate t (byteLength before) = ⟨1 + before.count '\n', 1⟩ := by
  rw [h.text_eq, locate_byteLength_append, Location.after_of_opens h.opens]

end Text

/-! ## The form of a directive line -/

namespace Directive

/-- The form of a directive line: spaces and tabs, the marker and a keyword. Behind the keyword
there is nothing, nothing but a carriage return, or a space or tab and anything. -/
structure HasForm (line : Text) (tag : Tag) (rest : Text) : Prop where
  line_eq : ∃ blanks : Text, (∀ c ∈ blanks, c = ' ' ∨ c = '\t') ∧
    line = blanks ++ ("//#".toList ++ (tag.keyword.toList ++ rest))
  rest_ends : rest = [] ∨ rest = ['\r'] ∨ rest.head? = some ' ' ∨ rest.head? = some '\t'

theorem endsKeyword_iff_head? {rest : Text} :
    endsKeyword rest = true ↔
      rest = [] ∨ rest = ['\r'] ∨ rest.head? = some ' ' ∨ rest.head? = some '\t' := by
  rw [endsKeyword_iff]
  refine or_congr Iff.rfl (or_congr Iff.rfl ?_)
  constructor
  · rintro ⟨c, u, rfl, hc⟩
    exact (isSpaceOrTab_iff.mp hc).imp (congrArg some) (congrArg some)
  · rintro (h | h)
    · obtain ⟨u, rfl⟩ := List.head?_eq_some_iff.mp h
      exact ⟨' ', u, rfl, rfl⟩
    · obtain ⟨u, rfl⟩ := List.head?_eq_some_iff.mp h
      exact ⟨'\t', u, rfl, rfl⟩

/-- Skipping blanks ends at the marker exactly if nothing but blanks stands before it. -/
theorem skipSpaces_eq_marker_iff {line rest : Text} :
    skipSpaces line = "//#".toList ++ rest ↔
      ∃ blanks : Text, (∀ c ∈ blanks, c = ' ' ∨ c = '\t') ∧
        line = blanks ++ ("//#".toList ++ rest) := by
  constructor
  · intro h
    refine ⟨line.takeWhile isSpaceOrTab, fun c hc => ?_, ?_⟩
    · exact isSpaceOrTab_iff.mp (isSpaceOrTab_of_mem_takeWhile hc)
    · rw [← h, takeWhile_append_skipSpaces]
  · rintro ⟨blanks, hblanks, rfl⟩
    rw [skipSpaces, List.dropWhile_append_of_pos fun c hc => isSpaceOrTab_iff.mpr (hblanks c hc)]
    rfl

/-- **A line can be split exactly if it has the form of a directive line.** -/
theorem splitLine?_eq_some_iff {line rest : Text} {tag : Tag} :
    splitLine? line = some (tag, rest) ↔ HasForm line tag rest := by
  have hsplit : splitLine? line = some (tag, rest) ↔
      skipSpaces line = "//#".toList ++ (tag.keyword.toList ++ rest) ∧ endsKeyword rest = true := by
    unfold splitLine?
    split
    · next behind h =>
      rw [h, Option.filter_eq_some_iff, read?_eq_some_iff]
      have hmarker : '/' :: '/' :: '#' :: behind = "//#".toList ++ behind := rfl
      rw [hmarker, List.append_cancel_left_eq]
    · next hother =>
      constructor
      · intro h
        cases h
      · rintro ⟨h, -⟩
        exact absurd h (hother _)
  rw [hsplit, skipSpaces_eq_marker_iff, endsKeyword_iff_head?]
  exact ⟨fun h => ⟨h.1, h.2⟩, fun h => ⟨h.line_eq, h.rest_ends⟩⟩

/-- A text without the spaces and tabs before it and the blanks behind it. -/
structure Stripped (rest core : Text) : Prop where
  rest_eq : ∃ lead trail : Text, rest = lead ++ (core ++ trail) ∧
    (∀ c ∈ lead, c = ' ' ∨ c = '\t') ∧ ∀ c ∈ trail, isBlank c = true
  starts : ∀ c, core.head? = some c → c ≠ ' ' ∧ c ≠ '\t'
  ends : ∀ c, core.getLast? = some c → isBlank c = false

theorem stripped_trimEnd (rest : Text) : Stripped rest (trimEnd (skipSpaces rest)) := by
  obtain ⟨trail, htrail, hblank, hends⟩ := exists_trimEnd (skipSpaces rest)
  refine ⟨⟨rest.takeWhile isSpaceOrTab, trail, ?_, fun c hc => ?_, hblank⟩, fun c hc => ?_, hends⟩
  · rw [← htrail, takeWhile_append_skipSpaces]
  · exact isSpaceOrTab_iff.mp (isSpaceOrTab_of_mem_takeWhile hc)
  · obtain ⟨u, hu⟩ := List.head?_eq_some_iff.mp hc
    have hhead : (skipSpaces rest).head? = some c := by
      rw [htrail, hu]
      rfl
    have hnot : isSpaceOrTab c = false := eq_false_of_head?_dropWhile hhead
    simpa [isSpaceOrTab] using hnot

end Directive

/-! ## Directive lines -/

/-- A directive line of a text. -/
structure DirectiveLine where
  /-- The number of the line, from 1. -/
  number : Nat
  /-- Where the line starts. -/
  offset : Nat
  line : Text
  tag : Tag
  /-- What stands behind the keyword. -/
  rest : Text
  deriving DecidableEq, Repr

namespace DirectiveLine

/-- What stands behind the keyword, without the spaces and tabs before it and the blanks behind
it. -/
def predicate (l : DirectiveLine) : Option Text :=
  Directive.predicateOf? l.rest

/-- Where the line ends; a carriage return at its end does not belong to it. -/
def stop (l : DirectiveLine) : Nat :=
  l.offset + (byteLength l.line - if l.line.getLast? = some '\r' then 1 else 0)

/-- What a directive line comes to. -/
def item (l : DirectiveLine) : Directive.Item :=
  match l.tag.needsPredicate, l.predicate with
  | true, none => .error (.missingPredicate l.tag l.offset)
  | false, some text => .error (.unexpectedPredicate l.tag l.offset text)
  | _, predicate => .ok { tag := l.tag, predicate, span := ⟨l.offset, l.stop⟩ }

theorem stripped_predicate (l : DirectiveLine) :
    Directive.Stripped l.rest (l.predicate.getD []) ∧ l.predicate ≠ some [] := by
  have hstripped := Directive.stripped_trimEnd l.rest
  rw [predicate, Directive.predicateOf?]
  cases hcore : trimEnd (skipSpaces l.rest) with
  | nil =>
    rw [hcore] at hstripped
    exact ⟨hstripped, fun h => by cases h⟩
  | cons c core =>
    rw [hcore] at hstripped
    exact ⟨hstripped, fun h => List.cons_ne_nil c core (Option.some.inj h)⟩

/-- A directive line is a line of the text with its number and offset, and has the form. -/
def StandsIn (l : DirectiveLine) (t : Text) : Prop :=
  (∃ before behind, IsLine t before l.line behind ∧ l.offset = byteLength before ∧
    l.number = 1 + before.count '\n') ∧
  Directive.HasForm l.line l.tag l.rest

end DirectiveLine

namespace Directive

/-- The directive lines among lines, the first of which has the given number and offset. -/
def directiveLinesFrom (number offset : Nat) : List Text → List DirectiveLine
  | [] => []
  | line :: more =>
    ((splitLine? line).map fun (tag, rest) => ⟨number, offset, line, tag, rest⟩).toList ++
      directiveLinesFrom (number + 1) (offset + byteLength line + 1) more

/-- The directive lines of a text, in order. -/
def directiveLines (t : Text) : List DirectiveLine :=
  directiveLinesFrom 1 0 (lines t)

theorem itemsFrom_eq (number offset : Nat) (ls : List Text) :
    itemsFrom offset ls = (directiveLinesFrom number offset ls).map DirectiveLine.item := by
  induction ls generalizing number offset with
  | nil => rfl
  | cons line more ih =>
    rw [itemsFrom, directiveLinesFrom, List.map_append, ← ih]
    refine congrArg (· ++ _) ?_
    rw [ofLine?]
    cases splitLine? line with
    | none => rfl
    | some parts => rfl

/-- There is one item for each directive line. -/
theorem items_eq_directiveLines (t : Text) :
    items t = (directiveLines t).map DirectiveLine.item :=
  itemsFrom_eq 1 0 (lines t)

theorem mem_directiveLinesFrom_iff {number offset : Nat} {ls : List Text} {l : DirectiveLine} :
    l ∈ directiveLinesFrom number offset ls ↔
      (∃ earlier later, ls = earlier ++ l.line :: later ∧ l.number = number + earlier.length ∧
        l.offset = offset + endedLength earlier) ∧ HasForm l.line l.tag l.rest := by
  induction ls generalizing number offset with
  | nil => simp [directiveLinesFrom]
  | cons line more ih =>
    rw [directiveLinesFrom, List.mem_append, ih]
    constructor
    · rintro (h | ⟨⟨earlier, later, rfl, hnumber, hoffset⟩, hform⟩)
      · rw [Option.mem_toList, Option.map_eq_some_iff] at h
        obtain ⟨⟨tag, rest⟩, hsplit, rfl⟩ := h
        exact ⟨⟨[], more, rfl, rfl, rfl⟩, splitLine?_eq_some_iff.mp hsplit⟩
      · refine ⟨⟨line :: earlier, later, rfl, ?_, ?_⟩, hform⟩
        · rw [hnumber, List.length_cons]
          omega
        · rw [hoffset]
          simp only [endedLength]
          omega
    · rintro ⟨⟨earlier, later, hls, hnumber, hoffset⟩, hform⟩
      cases earlier with
      | nil =>
        obtain ⟨rfl, rfl⟩ := List.cons.inj hls
        refine .inl ?_
        rw [Option.mem_toList, Option.map_eq_some_iff]
        refine ⟨(l.tag, l.rest), splitLine?_eq_some_iff.mpr hform, ?_⟩
        obtain ⟨number', offset', line', tag', rest'⟩ := l
        obtain rfl : number' = number := hnumber
        obtain rfl : offset' = offset := hoffset
        rfl
      | cons first earlier =>
        obtain ⟨rfl, rfl⟩ := List.cons.inj hls
        refine .inr ⟨⟨earlier, later, rfl, ?_, ?_⟩, hform⟩
        · rw [hnumber, List.length_cons]
          omega
        · rw [hoffset]
          simp only [endedLength]
          omega

/-- **The directive lines of a text are its lines that have the form.** -/
theorem mem_directiveLines_iff {t : Text} {l : DirectiveLine} :
    l ∈ directiveLines t ↔ l.StandsIn t := by
  rw [directiveLines, mem_directiveLinesFrom_iff]
  refine and_congr ?_ Iff.rfl
  constructor
  · rintro ⟨earlier, later, hlines, hnumber, hoffset⟩
    obtain ⟨before, behind, hline, hlength, hended⟩ := exists_isLine_of_lines_eq hlines
    exact ⟨before, behind, hline, by rw [hoffset, hended, Nat.zero_add], by rw [hnumber, hlength]⟩
  · rintro ⟨before, behind, hline, hoffset, hnumber⟩
    obtain ⟨earlier, later, hlines, hlength, hended⟩ := hline.exists_lines_eq
    exact ⟨earlier, later, hlines, by rw [hnumber, hlength], by rw [hoffset, hended, Nat.zero_add]⟩

theorem pairwise_directiveLinesFrom (number offset : Nat) (ls : List Text) :
    (directiveLinesFrom number offset ls).Pairwise fun k l => k.number < l.number := by
  induction ls generalizing number offset with
  | nil => exact List.Pairwise.nil
  | cons line more ih =>
    rw [directiveLinesFrom, List.pairwise_append]
    refine ⟨?_, ih _ _, fun k hk l hl => ?_⟩
    · cases splitLine? line with
      | none => exact List.Pairwise.nil
      | some parts => exact List.pairwise_singleton _ _
    · rw [Option.mem_toList, Option.map_eq_some_iff] at hk
      obtain ⟨parts, -, rfl⟩ := hk
      obtain ⟨⟨earlier, later, -, hnumber, -⟩, -⟩ := mem_directiveLinesFrom_iff.mp hl
      change number < l.number
      omega

/-- Directive lines come in the order of the text, and each of them once. -/
theorem pairwise_directiveLines (t : Text) :
    (directiveLines t).Pairwise fun k l => k.number < l.number :=
  pairwise_directiveLinesFrom 1 0 (lines t)

/-! ## Scanning -/

/-- Items are all directives, or there is a first error. -/
theorem exists_first_error (l : List Item) :
    (∃ ds : List Directive, l = ds.map .ok) ∨
      ∃ (ds : List Directive) (e : MalformedDirective) (more : List Item),
        l = ds.map .ok ++ .error e :: more := by
  induction l with
  | nil => exact .inl ⟨[], rfl⟩
  | cons item l ih =>
    cases item with
    | error e => exact .inr ⟨[], e, l, rfl⟩
    | ok d =>
      rcases ih with ⟨ds, rfl⟩ | ⟨ds, e, more, rfl⟩
      · exact .inl ⟨d :: ds, rfl⟩
      · exact .inr ⟨d :: ds, e, more, rfl⟩

theorem mapM_ok (ds : List Directive) :
    List.mapM id (ds.map .ok : List Item) = .ok ds := by
  induction ds with
  | nil => rfl
  | cons d ds ih =>
    rw [List.map_cons, List.mapM_cons, ih]
    rfl

theorem mapM_error (ds : List Directive) (e : MalformedDirective) (more : List Item) :
    List.mapM id (ds.map .ok ++ .error e :: more) = .error e := by
  induction ds with
  | nil => rfl
  | cons d ds ih =>
    rw [List.map_cons, List.cons_append, List.mapM_cons, ih]
    rfl

theorem scan_eq_ok_iff {t : Text} {ds : List Directive} :
    scan t = .ok ds ↔ items t = ds.map .ok := by
  unfold scan
  constructor
  · intro h
    rcases exists_first_error (items t) with ⟨es, hes⟩ | ⟨es, e, more, hes⟩
    · rw [hes, mapM_ok] at h
      rw [hes, Except.ok.inj h]
    · rw [hes, mapM_error] at h
      cases h
  · intro h
    rw [h, mapM_ok]

theorem scan_eq_error_iff {t : Text} {e : MalformedDirective} :
    scan t = .error e ↔
      ∃ (ds : List Directive) (more : List Item), items t = ds.map .ok ++ .error e :: more := by
  unfold scan
  constructor
  · intro h
    rcases exists_first_error (items t) with ⟨es, hes⟩ | ⟨es, e', more, hes⟩
    · rw [hes, mapM_ok] at h
      cases h
    · rw [hes, mapM_error] at h
      exact ⟨es, more, by rw [hes, Except.error.inj h]⟩
  · rintro ⟨ds, more, h⟩
    rw [h, mapM_error]

/-- **Scanning goes line by line**, and so does the search for the pattern: there is one item for
each line of the text that has the form of a directive line, in order, and none for any other. All
directives are the result, or the first error. -/
theorem scan_line_by_line (t : Text) :
    itemsOf (linePattern.found t) = (items t).map some ∧
      items t = (directiveLines t).map DirectiveLine.item ∧
      (∀ l, l ∈ directiveLines t ↔ l.StandsIn t) ∧
      (directiveLines t).Pairwise (fun k l => k.number < l.number) ∧
      (∀ l ∈ directiveLines t, Stripped l.rest (l.predicate.getD []) ∧ l.predicate ≠ some []) ∧
      (∀ ds : List Directive, scan t = .ok ds ↔ items t = ds.map .ok) ∧
      ∀ e : MalformedDirective, scan t = .error e ↔
        ∃ (ds : List Directive) (more : List Item), items t = ds.map .ok ++ .error e :: more :=
  ⟨itemsOf_found t, items_eq_directiveLines t, fun _ => mem_directiveLines_iff,
    pairwise_directiveLines t, fun l _ => l.stripped_predicate, fun _ => scan_eq_ok_iff,
    fun _ => scan_eq_error_iff⟩

end Directive

end ConditionalText
