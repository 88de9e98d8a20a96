import ConditionalText.CommandLine.Options
import ConditionalText.Proofs.Table
import ConditionalText.Proofs.Text.Blank
import ConditionalText.Proofs.Text.Bytes
import Mathlib.Data.List.TakeWhile

/-!
# The environment of a run

What the environment of a run gives a name, told by the definitions of the command line as they were
written and by the variables of the process, both of which may name one thing several times.

* `isIdentifier_iff`: what an identifier is, character by character.
* `parseDefinition_eq_ok_iff`: a definition is accepted exactly if it defines something (`Defines`).
* `get?_ofProcess_eq_some_iff`: of the variables of a process those count that are named by an
  identifier and have a UTF-8 value, the last one of a name.
* `givenLast_setVars_iff`: where variables are set one after another, the value set last is the one
  that is looked at.
* `get?_environment_eq_some_iff`: what a run's environment gives, definition by definition.
* `environment_of_definitions`: **the last definition of a name counts, then the variable of the
  process; and the environment lists just these names, each once, in the order of their bytes.**
-/

namespace ConditionalText

open ConditionalText.Text

/-! ## Identifiers -/

namespace Text

/-- A letter or an underscore, then letters, digits and underscores, all of them ASCII. -/
def IsIdentifier (name : Text) : Prop :=
  ∃ c rest, name = c :: rest ∧ (c = '_' ∨ c.isAlpha = true) ∧
    ∀ d ∈ rest, d = '_' ∨ d.isAlphanum = true

theorem isLetter_eq (c : Char) : isLetter c = c.isAlpha := by
  have hupper : c.isUpper = ('A' ≤ c && c ≤ 'Z') := Bool.decide_and ..
  have hlower : c.isLower = ('a' ≤ c && c ≤ 'z') := rfl
  have halpha : c.isAlpha = (c.isUpper || c.isLower) := rfl
  rw [halpha, hupper, hlower, isLetter, Bool.or_comm]

theorem isWordStart_iff {c : Char} : isWordStart c = true ↔ c = '_' ∨ c.isAlpha = true := by
  simp only [isWordStart, isLetter_eq, Bool.or_eq_true, decide_eq_true_eq]

theorem isWordChar_iff {c : Char} : isWordChar c = true ↔ c = '_' ∨ c.isAlphanum = true := by
  have hdigit : isDigit c = c.isDigit := rfl
  rw [isWordChar, Bool.or_eq_true, isWordStart_iff, hdigit, Char.isAlphanum, Bool.or_eq_true,
    or_assoc]

theorem isIdentifier_iff {name : Text} : isIdentifier name = true ↔ IsIdentifier name := by
  cases name with
  | nil => simp [isIdentifier, IsIdentifier]
  | cons c rest =>
    simp [isIdentifier, IsIdentifier, isWordStart_iff, isWordChar_iff]

/-- An identifier has no blank. -/
theorem isBlank_eq_false_of_mem_identifier {name : Text} (h : isIdentifier name = true) {c : Char}
    (hc : c ∈ name) : isBlank c = false := by
  cases name with
  | nil => cases hc
  | cons d rest =>
    rw [isIdentifier, Bool.and_eq_true, List.all_eq_true] at h
    apply isBlank_eq_false_of_isWordChar
    rcases List.mem_cons.mp hc with rfl | hc
    · rw [isWordChar, h.1, Bool.true_or]
    · exact h.2 c hc

end Text

/-! ## Definitions -/

namespace Environment

/-- A definition is a name, which is an identifier and may stand between blanks, and `=` with the
value behind it, blanks included; or it is a name alone, and the value is `true`. -/
structure Defines (definition name value : Text) : Prop where
  identifier : IsIdentifier name
  spelled : ∃ lead trail, (∀ c ∈ lead, isBlank c = true) ∧ (∀ c ∈ trail, isBlank c = true) ∧
    '=' ∉ lead ++ name ++ trail ∧
    (definition = lead ++ name ++ trail ++ '=' :: value ∨
      definition = lead ++ name ++ trail ∧ value = "true".toList)

theorem splitDefinition_equals {before : Text} (h : '=' ∉ before) (value : Text) :
    splitDefinition (before ++ '=' :: value) = (before, some value) := by
  have hbefore : ∀ c ∈ before, decide (c ≠ '=') = true := by
    intro c hc
    rw [decide_eq_true_eq]
    rintro rfl
    exact h hc
  rw [splitDefinition, List.takeWhile_append_of_pos hbefore, List.dropWhile_append_of_pos hbefore]
  simp

theorem splitDefinition_bare {definition : Text} (h : '=' ∉ definition) :
    splitDefinition definition = (definition, none) := by
  have hall : ∀ c ∈ definition, decide (c ≠ '=') = true := by
    intro c hc
    rw [decide_eq_true_eq]
    rintro rfl
    exact h hc
  rw [splitDefinition, List.takeWhile_eq_self_iff.mpr hall, List.dropWhile_eq_nil_iff.mpr hall]
  rfl

/-- What is left of a text without the blanks around it is this identifier. -/
theorem trim_identifier_iff {t name : Text} :
    isIdentifier (trim t) = true ∧ trim t = name ↔
      IsIdentifier name ∧ ∃ lead trail, (∀ c ∈ lead, isBlank c = true) ∧
        (∀ c ∈ trail, isBlank c = true) ∧ t = lead ++ name ++ trail := by
  constructor
  · rintro ⟨hname, rfl⟩
    obtain ⟨lead, trail, ht, hlead, htrail⟩ := exists_trim t
    exact ⟨isIdentifier_iff.mp hname, lead, trail, hlead, htrail, ht⟩
  · rintro ⟨hname, lead, trail, hlead, htrail, rfl⟩
    have hidentifier := isIdentifier_iff.mpr hname
    have hne : name ≠ [] := by
      rintro rfl
      cases hidentifier
    have htrim : trim (lead ++ name ++ trail) = name := by
      apply trim_eq_of_blanks hlead htrail hne
      · intro c hc
        exact isBlank_eq_false_of_mem_identifier hidentifier (List.mem_of_mem_head? hc)
      · intro c hc
        exact isBlank_eq_false_of_mem_identifier hidentifier (List.mem_of_mem_getLast? hc)
    rw [htrim]
    exact ⟨hidentifier, rfl⟩

theorem parseDefinition_eq_ok_iff {definition name value : Text} :
    parseDefinition definition = .ok (name, value) ↔ Defines definition name value := by
  have hparse {before : Text} {given : Option Text}
      (hsplit : splitDefinition definition = (before, given)) :
      parseDefinition definition = .ok (name, value) ↔
        (isIdentifier (trim before) = true ∧ trim before = name) ∧
          given.getD "true".toList = value := by
    rw [parseDefinition, hsplit]
    by_cases hname : isIdentifier (trim before) = true
    · simp [hname]
    · simp [hname]
  by_cases hequals : '=' ∈ definition
  · obtain ⟨before, given, rfl, hbefore⟩ := List.eq_append_cons_of_mem hequals
    rw [hparse (splitDefinition_equals hbefore given), trim_identifier_iff]
    constructor
    · rintro ⟨⟨hname, lead, trail, hlead, htrail, rfl⟩, rfl⟩
      exact ⟨hname, lead, trail, hlead, htrail, hbefore, .inl rfl⟩
    · rintro ⟨hname, lead, trail, hlead, htrail, hnot, hparts | ⟨hparts, -⟩⟩
      · have hsplit := splitDefinition_equals hbefore given
        rw [hparts, splitDefinition_equals hnot value] at hsplit
        obtain ⟨rfl, hgiven⟩ := Prod.mk.inj hsplit
        obtain rfl := Option.some.inj hgiven
        exact ⟨⟨hname, lead, trail, hlead, htrail, rfl⟩, rfl⟩
      · rw [hparts] at hequals
        exact absurd hequals hnot
  · rw [hparse (splitDefinition_bare hequals), trim_identifier_iff]
    constructor
    · rintro ⟨⟨hname, lead, trail, hlead, htrail, rfl⟩, rfl⟩
      exact ⟨hname, lead, trail, hlead, htrail, hequals, .inr ⟨rfl, rfl⟩⟩
    · rintro ⟨hname, lead, trail, hlead, htrail, hnot, rfl | ⟨rfl, rfl⟩⟩
      · exact absurd (by simp) hequals
      · exact ⟨⟨hname, lead, trail, hlead, htrail, rfl⟩, rfl⟩

/-! ## The variables of a process -/

/-- The bytes of a text. -/
def utf8 (t : Text) : ByteArray :=
  (bytes t).toByteArray

theorem fromUTF8?_eq_some_iff {b : ByteArray} {t : Text} :
    (String.fromUTF8? b).map String.toList = some t ↔ b = utf8 t := by
  unfold String.fromUTF8?
  constructor
  · intro h
    split at h
    · next hvalid =>
      have ht : (String.fromUTF8 b hvalid).toList = t := by simpa using h
      rw [utf8, ← toUTF8_ofList, ← ht, String.ofList_toList]
      rfl
    · cases h
  · rintro rfl
    have hvalid : (utf8 t).IsValidUTF8 := (String.ofList t).isValidUTF8
    have hstring : String.fromUTF8 (utf8 t) hvalid = String.ofList t := rfl
    rw [dif_pos hvalid, hstring, Option.map_some, String.toList_ofList]

/-- A variable of a process gives a name a value: it holds the bytes of both. -/
def GivesText (var : ByteArray × ByteArray) (name value : Text) : Prop :=
  var = (utf8 name, utf8 value)

/-- What a variable of a process adds. -/
def textVar? (var : ByteArray × ByteArray) : Option (Text × Text) :=
  ((String.fromUTF8? var.1).map String.toList).bind fun name =>
    ((String.fromUTF8? var.2).map String.toList).bind fun value =>
      if isIdentifier name then some (name, value) else none

theorem ofProcess_eq (vars : List (ByteArray × ByteArray)) :
    ofProcess vars = .ofList (vars.filterMap textVar?) := by
  unfold ofProcess
  congr 2
  funext ⟨name, value⟩
  simp only [textVar?, Option.bind_eq_bind, Option.bind_map, Function.comp_def]

/-- A variable that counts is named by an identifier. -/
theorem gives_textVar?_iff {var : ByteArray × ByteArray} {name value : Text} :
    (∃ entry, textVar? var = some entry ∧ Table.Gives entry name value) ↔
      IsIdentifier name ∧ GivesText var name value := by
  obtain ⟨key, given⟩ := var
  simp only [textVar?, Table.Gives, GivesText, exists_eq_right, Option.bind_eq_some_iff,
    fromUTF8?_eq_some_iff, Prod.mk.injEq, ← isIdentifier_iff]
  constructor
  · rintro ⟨name', rfl, value', rfl, h⟩
    by_cases hname : isIdentifier name' = true
    · simp only [hname, if_true, Option.some.injEq, Prod.mk.injEq] at h
      obtain ⟨rfl, rfl⟩ := h
      exact ⟨hname, rfl, rfl⟩
    · simp [hname] at h
  · rintro ⟨hname, rfl, rfl⟩
    exact ⟨name, rfl, value, rfl, by simp [hname]⟩

/-- **Of the variables of a process those count that are named by an identifier and have a UTF-8
value**; of several for one name, the last of these. -/
theorem get?_ofProcess_eq_some_iff {vars : List (ByteArray × ByteArray)} {name value : Text} :
    (ofProcess vars).get? name = some value ↔
      IsIdentifier name ∧ GivenLast GivesText vars name value := by
  rw [ofProcess_eq, Table.get?_ofList_eq_some_iff, givenLast_filterMap_iff]
  by_cases hname : IsIdentifier name
  · simp only [hname, true_and]
    refine givenLast_congr (List.forall₂_same.mpr fun var _ given => ?_) value
    exact gives_textVar?_iff.trans (and_iff_right hname)
  · simp only [hname, false_and, iff_false]
    rintro ⟨before, var, after, -, hgives, -⟩
    exact hname (gives_textVar?_iff.mp hgives).1

theorem mem_of_mem_setVars {vars : List (ByteArray × ByteArray)} {var : ByteArray × ByteArray}
    (h : var ∈ setVars vars) : var ∈ vars := by
  induction vars with
  | nil => cases h
  | cons first later ih =>
    obtain ⟨name, value⟩ := first
    rw [setVars] at h
    split at h
    · exact List.mem_cons_of_mem _ (ih h)
    · rcases List.mem_cons.mp h with rfl | h
      · exact List.mem_cons_self
      · exact List.mem_cons_of_mem _ (ih h)

/-- **Where variables are set one after another, the last value of a name is the one that counts or
does not**: an earlier one stays hidden even if the last one is not UTF-8. -/
theorem givenLast_setVars_iff {vars : List (ByteArray × ByteArray)} {name value : Text} :
    GivenLast GivesText (setVars vars) name value ↔
      GivenLast Table.Gives vars (utf8 name) (utf8 value) := by
  induction vars with
  | nil => simp only [setVars, not_givenLast_nil]
  | cons var later ih =>
    obtain ⟨key, given⟩ := var
    rw [setVars, givenLast_cons_iff]
    split
    · next hlater =>
      -- the first value is never seen again
      rw [ih]
      refine (or_iff_left ?_).symm
      rintro ⟨hgives, hnone⟩
      obtain ⟨rfl, -⟩ := Prod.mk.inj hgives
      obtain ⟨⟨key', other⟩, hmem, hkey⟩ := List.any_eq_true.mp hlater
      rw [decide_eq_true_eq] at hkey
      exact hnone _ hmem other (Prod.ext hkey rfl)
    · next hlater =>
      rw [givenLast_cons_iff, ih]
      have hnone : ∀ y ∈ later, ∀ other, y ≠ (key, other) := by
        rintro y hy other rfl
        exact hlater (List.any_eq_true.mpr ⟨_, hy, decide_eq_true rfl⟩)
      refine or_congr Iff.rfl (and_congr_right fun hgives => ?_)
      obtain ⟨rfl, -⟩ := Prod.mk.inj hgives
      constructor
      · exact fun _ y hy other => hnone y hy other
      · exact fun _ y hy other => hnone y (mem_of_mem_setVars hy) (utf8 other)

/-- A block with one name twice, and what is left of it where the second value was set later. -/
example :
    (ofProcess [("N".toUTF8, "ok".toUTF8), ("N".toUTF8, ⟨#[255]⟩)]).get? "N".toList =
        some "ok".toList ∧
      (ofProcess (setVars [("N".toUTF8, "ok".toUTF8), ("N".toUTF8, ⟨#[255]⟩)])).get? "N".toList =
        none := by
  decide +kernel

end Environment

/-! ## The whole environment -/

namespace CommandLine.Options

open Environment

theorem forall₂_of_mapM {definitions : List Text} {pairs : List (Text × Text)}
    (h : definitions.mapM parseDefinition = .ok pairs) :
    List.Forall₂ (fun definition pair => parseDefinition definition = .ok pair)
      definitions pairs := by
  induction definitions generalizing pairs with
  | nil =>
    cases h
    exact .nil
  | cons definition definitions ih =>
    rw [List.mapM_cons] at h
    cases hfirst : parseDefinition definition with
    | error e => simp [hfirst, bind, Except.bind] at h
    | ok pair =>
      cases hrest : definitions.mapM parseDefinition with
      | error e => simp [hfirst, hrest, bind, Except.bind] at h
      | ok rest =>
        simp only [hfirst, hrest, bind, Except.bind, pure, Except.pure, Except.ok.injEq] at h
        subst h
        exact .cons hfirst (ih hrest)

theorem forall₂_gives {definitions : List Text} {pairs : List (Text × Text)}
    (h : definitions.mapM parseDefinition = .ok pairs) (name : Text) :
    List.Forall₂ (fun pair definition => ∀ value,
      Table.Gives pair name value ↔ Defines definition name value) pairs definitions := by
  refine (forall₂_of_mapM h).flip.imp fun pair definition hparse value => ?_
  rw [← parseDefinition_eq_ok_iff, hparse, Except.ok.injEq]
  exact Iff.rfl

theorem definitions_of_ofArguments {a : Arguments} {o : Options} (h : ofArguments a = .ok o) :
    a.definitions.mapM parseDefinition = .ok o.definitions ∧
      o.useProcessVars = !a.has .noProcessEnv := by
  unfold ofArguments at h
  split at h
  · cases h
  · next definitions hdefinitions =>
    split at h
    · cases h
    · cases h
      exact ⟨hdefinitions, rfl⟩

theorem get?_environment_eq_some_iff {o : Options} {definitions : List Text}
    (h : definitions.mapM parseDefinition = .ok o.definitions)
    (vars : List (ByteArray × ByteArray)) (name value : Text) :
    (o.environment vars).get? name = some value ↔
      GivenLast Defines definitions name value ∨
        (∀ definition ∈ definitions, ∀ other, ¬Defines definition name other) ∧
          o.useProcessVars = true ∧ IsIdentifier name ∧ GivenLast GivesText vars name value := by
  have hgives := forall₂_gives h name
  have hprocess :
      (if o.useProcessVars = true then ofProcess vars else Table.empty).get? name = some value ↔
        o.useProcessVars = true ∧ IsIdentifier name ∧ GivenLast GivesText vars name value := by
    by_cases huse : o.useProcessVars = true
    · rw [if_pos huse, get?_ofProcess_eq_some_iff, and_iff_right huse]
    · rw [if_neg huse]
      simp [huse, Table.get?, Table.empty, Table.find?]
  unfold environment
  rw [Table.get?_merge, Option.or_eq_some_iff, Table.get?_ofList_eq_some_iff,
    Table.get?_ofList_eq_none_iff, givenLast_congr hgives, gives_nothing_congr hgives, hprocess]

/-- **The environment of a run.** A name has the value of its last definition. One without
definitions has, unless the variables of the process are not wanted, the value of its variable, if it
is an identifier and the value is UTF-8. Where variables have been set several times this is the value
that was set last. In a block that lists one name several times, as a process can be started with,
it is the last one that is UTF-8. Every name that has a value is an identifier; they are listed with
their values, in increasing order of their bytes, and the size is their number. A definition is
accepted exactly if it defines something, and the arguments of the program leave theirs in its
options. -/
theorem environment_of_definitions {o : Options} {definitions : List Text}
    (h : definitions.mapM parseDefinition = .ok o.definitions)
    (vars : List (ByteArray × ByteArray)) :
    (∀ name value, (o.environment (setVars vars)).get? name = some value ↔
      GivenLast Defines definitions name value ∨
        (∀ definition ∈ definitions, ∀ other, ¬Defines definition name other) ∧
          o.useProcessVars = true ∧ IsIdentifier name ∧
            GivenLast Table.Gives vars (utf8 name) (utf8 value)) ∧
    (∀ name value, (o.environment vars).get? name = some value ↔
      GivenLast Defines definitions name value ∨
        (∀ definition ∈ definitions, ∀ other, ¬Defines definition name other) ∧
          o.useProcessVars = true ∧ IsIdentifier name ∧ GivenLast GivesText vars name value) ∧
    (∀ name value, (o.environment vars).get? name = some value → IsIdentifier name) ∧
    (∀ name value, (name, value) ∈ (o.environment vars).entries ↔
      (o.environment vars).get? name = some value) ∧
    (o.environment vars).entries.Pairwise (fun a b => bytes a.1 < bytes b.1) ∧
    {name | ∃ value, (o.environment vars).get? name = some value}.ncard = (o.environment vars).size ∧
    (∀ definition name value,
      parseDefinition definition = .ok (name, value) ↔ Defines definition name value) ∧
    (∀ a, ofArguments a = .ok o → a.definitions.mapM parseDefinition = .ok o.definitions ∧
      o.useProcessVars = !a.has .noProcessEnv) := by
  have hget := get?_environment_eq_some_iff h vars
  refine ⟨fun name value => ?_, hget, ?_, fun name value => Table.mem_entries_iff _, ?_,
    Table.ncard_keys _, fun definition name value => parseDefinition_eq_ok_iff,
    fun a => definitions_of_ofArguments⟩
  · rw [get?_environment_eq_some_iff h (setVars vars), givenLast_setVars_iff]
  · intro name value hvalue
    rcases (hget name value).mp hvalue with ⟨_, definition, _, -, hdefines, -⟩ | ⟨-, -, hname, -⟩
    · exact hdefines.identifier
    · exact hname
  · exact (o.environment vars).ordered.imp bytes_lt_bytes

/-- Options with a name that is defined twice, the second time with blanks and a second `=`. -/
def sampleOptions : Options where
  inputs := ["in.js".toList]
  definitions := [("A".toList, "1".toList), ("A".toList, " x=y".toList), ("B".toList, "true".toList)]
  useProcessVars := true
  outDir := none
  sourceMap := false
  sourcesContent := false
  extensions := []
  flatten := false
  debug := false

/-- The definitions they come from. -/
def sampleDefinitions : List Text := ["A=1".toList, " A = x=y".toList, "B".toList]

/-- The second definition counts, not the first one and not the variable of the process. -/
theorem environment_of_definitions_twice :
    sampleDefinitions.mapM parseDefinition = .ok sampleOptions.definitions ∧
      (sampleOptions.environment [(utf8 "A".toList, utf8 "process".toList)]).get? "A".toList =
        some " x=y".toList := by
  have hdefinitions : sampleDefinitions.mapM parseDefinition = .ok sampleOptions.definitions := by
    decide +kernel
  refine ⟨hdefinitions, ((environment_of_definitions hdefinitions _).2.1 _ _).mpr (.inl ?_)⟩
  have hsecond : parseDefinition " A = x=y".toList = .ok ("A".toList, " x=y".toList) := by
    decide +kernel
  have hlast : parseDefinition "B".toList = .ok ("B".toList, "true".toList) := by decide +kernel
  refine ⟨["A=1".toList], " A = x=y".toList, ["B".toList], rfl,
    parseDefinition_eq_ok_iff.mp hsecond, fun definition hmem other hdefines => ?_⟩
  rw [List.mem_singleton] at hmem
  subst hmem
  have hother := hlast.symm.trans (parseDefinition_eq_ok_iff.mpr hdefines)
  simp at hother

end CommandLine.Options

end ConditionalText
