import ConditionalText.Directive.Basic

/-!
# How directives lie in a text

A text whose directive lines are all well formed is a head, then directive after directive, each
with the text that follows it: its line end and everything up to the next directive. Scanning gives
byte offsets; `Layout` ties them to the cut of the text.

`layout_cutLines`: **every text with well-formed directives has a layout**, got by cutting it line
by line, and its lines are the spans that scanning gives. So spans start and end between characters,
follow each other without overlap and are never empty.
-/

namespace ConditionalText

open ConditionalText.Text

/-- A directive with its own text and the text after it, up to the next directive. -/
structure Stretch where
  directive : Directive
  line : Text
  gap : Text
  deriving DecidableEq, Repr

/-- The text of stretches, one after another. -/
def Stretch.whole (ss : List Stretch) : Text :=
  ss.flatMap fun s => s.line ++ s.gap

/-- The span of each directive is where its line stands, the first one at the given offset. -/
def Placed : Nat → List Stretch → Prop
  | _, [] => True
  | offset, s :: more =>
    s.directive.span = ⟨offset, offset + byteLength s.line⟩ ∧ s.line ≠ [] ∧
      Placed (offset + byteLength s.line + byteLength s.gap) more

/-- A source is a head and stretches, and scanning gives the directives of these. -/
structure Layout (source head : Text) (ss : List Stretch) : Prop where
  source_eq : source = head ++ Stretch.whole ss
  items_eq : Directive.items source = ss.map fun s => .ok s.directive
  placed : Placed (byteLength head) ss

@[simp] theorem Stretch.whole_nil : Stretch.whole [] = [] := rfl

@[simp] theorem Stretch.whole_cons (s : Stretch) (ss : List Stretch) :
    Stretch.whole (s :: ss) = s.line ++ (s.gap ++ Stretch.whole ss) := by
  rw [whole, List.flatMap_cons, List.append_assoc]
  rfl

/-! ## One line -/

namespace Directive

/-- A line without a carriage return at its end. -/
def bare (line : Text) : Text :=
  if line.getLast? = some '\r' then line.dropLast else line

/-- The carriage return at the end of a line, if there is one. -/
def ending (line : Text) : Text :=
  if line.getLast? = some '\r' then ['\r'] else []

theorem bare_append_ending (line : Text) : bare line ++ ending line = line := by
  unfold bare ending
  split
  · next h =>
    obtain ⟨core, rfl⟩ := List.getLast?_eq_some_iff.mp h
    rw [List.dropLast_concat]
  · exact List.append_nil line

theorem byteLength_bare (line : Text) : byteLength (bare line) = bareLength line := by
  unfold bare bareLength
  split
  · next h =>
    obtain ⟨core, rfl⟩ := List.getLast?_eq_some_iff.mp h
    rw [List.dropLast_concat, byteLength_append]
    exact (Nat.add_sub_cancel ..).symm
  · rfl

/-- A directive takes its line up to a carriage return at the end, and that is never nothing. -/
theorem span_of_ofLine?_eq_ok {offset : Nat} {line : Text} {d : Directive}
    (h : ofLine? offset line = some (.ok d)) :
    d.span = ⟨offset, offset + byteLength (bare line)⟩ ∧ bare line ≠ [] := by
  unfold ofLine? at h
  obtain ⟨⟨tag, after⟩, hsplit, hitem⟩ := Option.map_eq_some_iff.mp h
  constructor
  · rw [byteLength_bare]
    simp only at hitem
    split at hitem
    · cases hitem
    · cases hitem
    · exact (Except.ok.inj hitem) ▸ rfl
  · intro hbare
    have hline : line = ending line := by simpa [hbare] using (bare_append_ending line).symm
    unfold ending at hline
    split at hline
    · rw [hline] at hsplit
      cases hsplit
    · rw [hline] at hsplit
      cases hsplit

/-! ## All lines -/

theorem joinWith_cons_cons (c : Char) (line next : Text) (more : List Text) :
    joinWith c (line :: next :: more) = line ++ c :: joinWith c (next :: more) := rfl

/-- What follows a line, up to the next directive, if `head` is what the lines `more` begin with:
the last line is not ended. -/
def gapBefore (more : List Text) (head : Text) : Text :=
  if more.isEmpty then [] else '\n' :: head

/-- Lines cut into a head and stretches, the first line starting at the given offset. -/
def cutLines (offset : Nat) : List Text → Text × List Stretch
  | [] => ([], [])
  | line :: more =>
    let rest := cutLines (offset + byteLength line + 1) more
    match ofLine? offset line with
    | some (.ok d) => ([], ⟨d, bare line, ending line ++ gapBefore more rest.1⟩ :: rest.2)
    | _ => (line ++ gapBefore more rest.1, rest.2)

theorem cutLines_cons_of_ok {offset : Nat} {line : Text} {d : Directive}
    (h : ofLine? offset line = some (.ok d)) (more : List Text) :
    cutLines offset (line :: more) =
      ([], ⟨d, bare line,
        ending line ++ gapBefore more (cutLines (offset + byteLength line + 1) more).1⟩ ::
        (cutLines (offset + byteLength line + 1) more).2) := by
  rw [cutLines, h]

theorem cutLines_cons_of_ne_ok {offset : Nat} {line : Text}
    (h : ∀ d, ofLine? offset line ≠ some (.ok d)) (more : List Text) :
    cutLines offset (line :: more) =
      (line ++ gapBefore more (cutLines (offset + byteLength line + 1) more).1,
        (cutLines (offset + byteLength line + 1) more).2) := by
  rw [cutLines]
  split
  · next d hd => exact absurd hd (h d)
  · rfl

/-- Cutting lines loses nothing. -/
theorem joinWith_eq_cutLines (ls : List Text) (offset : Nat) :
    joinWith '\n' ls = (cutLines offset ls).1 ++ Stretch.whole (cutLines offset ls).2 := by
  induction ls generalizing offset with
  | nil => rfl
  | cons line more ih =>
    have hgap : joinWith '\n' (line :: more) =
        line ++ (gapBefore more (cutLines (offset + byteLength line + 1) more).1 ++
          Stretch.whole (cutLines (offset + byteLength line + 1) more).2) := by
      cases more with
      | nil => exact (List.append_nil line).symm
      | cons next more =>
        rw [joinWith_cons_cons, ih (offset + byteLength line + 1)]
        rfl
    by_cases hline : ∃ d, ofLine? offset line = some (.ok d)
    · obtain ⟨d, hd⟩ := hline
      rw [hgap, cutLines_cons_of_ok hd, Stretch.whole_cons, List.nil_append, ← List.append_assoc,
        ← List.append_assoc, ← List.append_assoc, bare_append_ending]
    · rw [hgap, cutLines_cons_of_ne_ok (not_exists.mp hline), List.append_assoc]

/-- The stretches are those of the directives. -/
theorem directives_cutLines {ls : List Text} {offset : Nat} {ds : List Directive}
    (h : itemsFrom offset ls = ds.map .ok) :
    (cutLines offset ls).2.map Stretch.directive = ds := by
  induction ls generalizing offset ds with
  | nil => exact (List.map_eq_nil_iff.mp h.symm).symm
  | cons line more ih =>
    rw [itemsFrom] at h
    cases hline : ofLine? offset line with
    | none =>
      rw [hline] at h
      rw [cutLines_cons_of_ne_ok (by simp [hline])]
      exact ih h
    | some item =>
      rw [hline] at h
      obtain ⟨d, es, rfl, rfl, hes⟩ := List.map_eq_cons_iff.mp h.symm
      rw [cutLines_cons_of_ok hline, List.map_cons, ih hes.symm]

/-- The stretches stand where scanning says. -/
theorem placed_cutLines (ls : List Text) (offset : Nat) :
    Placed (offset + byteLength (cutLines offset ls).1) (cutLines offset ls).2 := by
  induction ls generalizing offset with
  | nil => trivial
  | cons line more ih =>
    have hgap : Placed (offset + byteLength line +
          byteLength (gapBefore more (cutLines (offset + byteLength line + 1) more).1))
        (cutLines (offset + byteLength line + 1) more).2 := by
      cases more with
      | nil => trivial
      | cons next more =>
        have hmore := ih (offset + byteLength line + 1)
        rwa [Nat.add_assoc _ 1] at hmore
    by_cases hline : ∃ d, ofLine? offset line = some (.ok d)
    · obtain ⟨d, hd⟩ := hline
      obtain ⟨hspan, hbare⟩ := span_of_ofLine?_eq_ok hd
      rw [cutLines_cons_of_ok hd]
      refine ⟨hspan, hbare, ?_⟩
      have hlength := congrArg byteLength (bare_append_ending line)
      rw [byteLength_append] at hlength
      rw [← hlength, ← Nat.add_assoc] at hgap
      rwa [byteLength_nil, Nat.add_zero, byteLength_append, ← Nat.add_assoc, ← hlength,
        ← Nat.add_assoc offset]
    · rw [cutLines_cons_of_ne_ok (not_exists.mp hline), byteLength_append, ← Nat.add_assoc]
      exact hgap

end Directive

/-- **A text with well-formed directives is laid out as its lines are cut.** -/
theorem layout_cutLines {source : Text} {ds : List Directive}
    (h : Directive.items source = ds.map .ok) :
    Layout source (Directive.cutLines 0 (lines source)).1
      (Directive.cutLines 0 (lines source)).2 where
  source_eq := by rw [← Directive.joinWith_eq_cutLines, lines, joinWith_pieces]
  items_eq := by
    rw [h, ← Directive.directives_cutLines h, List.map_map]
    rfl
  placed := by simpa only [Nat.zero_add] using Directive.placed_cutLines (lines source) 0

/-- Every text with well-formed directives has a layout. -/
theorem exists_layout {source : Text} {ds : List Directive}
    (h : Directive.items source = ds.map .ok) :
    ∃ head ss, Layout source head ss ∧ ds = ss.map Stretch.directive :=
  ⟨_, _, layout_cutLines h, (Directive.directives_cutLines h).symm⟩

end ConditionalText
