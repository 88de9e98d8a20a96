import ConditionalText.SourceMap.Basic
import ConditionalText.Proofs.Json.Reader

/-!
# The JSON text of a source map

What is written is valid JSON, and whoever reads it finds the source map again.

* `charSpelling_escapeChar`: an escaped character is a spelling of the character, whichever it is.
* `writes_string`, `writes_toDigits`, `writes_strings`, `writes_object`: what is written for a value
  may stand wherever the value may.
* `DescribedBy`: what an object says of a source map, member by member.
* `SourceMap.toJson_reads_back`: **the JSON text of a source map is valid for one object only, and
  this object describes the map**; two maps with the same text are equal.
-/

namespace ConditionalText.Json

open ConditionalText.Text

/-! ## Strings -/

theorem codeUnit?_hexDigit :
    ∀ n < 0x20, codeUnit? '0' '0' (hexDigit (n / 16)) (hexDigit (n % 16)) = some n := by
  decide

/-- An escaped character is a spelling of the character. -/
theorem charSpelling_escapeChar (c : Char) : CharSpelling c (escapeChar c) := by
  unfold escapeChar
  split_ifs with hquote hbackslash hb hf hn hr ht hcontrol
  · exact hquote ▸ .short rfl
  · exact hbackslash ▸ .short rfl
  · exact hb ▸ .short rfl
  · exact hf ▸ .short rfl
  · exact hn ▸ .short rfl
  · exact hr ▸ .short rfl
  · exact ht ▸ .short rfl
  · exact .code (codeUnit?_hexDigit c.toNat hcontrol)
  · exact .plain (by simp [isPlain, hquote, hbackslash, Nat.le_of_not_lt hcontrol])

theorem charsSpelling_escaped (t : Text) : CharsSpelling t (t.flatMap escapeChar) := by
  induction t with
  | nil => exact .nil
  | cons c t ih => exact .cons (charSpelling_escapeChar c) ih

/-! ## Numbers -/

/-- A number that is written with a leading zero is zero. -/
theorem eq_zero_of_head?_toDigits {n : Nat} (h : (Nat.toDigits 10 n).head? = some '0') : n = 0 := by
  induction n using Nat.strongRecOn with
  | ind n ih =>
    rcases Nat.lt_or_ge n 10 with hn | hn
    · have hdigit : ∀ n < 10, n.digitChar = '0' → n = 0 := by decide
      rw [Nat.toDigits_of_lt_base hn] at h
      exact hdigit n hn (Option.some.inj h)
    · rw [Nat.toDigits_of_base_le (by decide) hn,
        List.head?_append_of_ne_nil _ Nat.toDigits_ne_nil] at h
      have := ih (n / 10) (by omega) h
      omega

theorem isDigit_of_mem_toDigits {n : Nat} {c : Char} (hc : c ∈ Nat.toDigits 10 n) :
    isDigit c = true := by
  have h := Nat.isDigit_of_mem_toDigits (by decide) (by decide) hc
  simpa [isDigit, Char.isDigit, Char.le_def] using h

/-- The decimal digits of a number. -/
def decimal (n : Nat) : Numeral where
  negative := false
  whole :=
    { text := Nat.toDigits 10 n
      ne_nil := Nat.toDigits_ne_nil
      isDigit_of_mem := fun c hc => isDigit_of_mem_toDigits hc }
  whole_eq_of_zero h := by
    rw [eq_zero_of_head?_toDigits h]
    rfl
  fraction := none
  exponent := none

theorem value_decimal (n : Nat) : (decimal n).value = n := by
  have hdigits : Number.digitsValue (Nat.toDigits 10 n) = n := Nat.ofDigitChars_ten_toDigits
  simp [decimal, Numeral.value, Numeral.places, hdigits]

/-! ## Values -/

/-- A text stands for a row of tokens, whatever follows it but a digit. -/
def Writes (s : Text) (row : List Token) : Prop :=
  ∀ rest ts, StopsDigits rest → Spells rest ts → Spells (s ++ rest) (row ++ ts)

theorem writes_string (t : Text) : Writes (string t) (Value.ofText t).tokens :=
  fun _ _ _ hrest => .token (.string (charsSpelling_escaped t)) trivial hrest

theorem writes_toDigits (n : Nat) :
    Writes (Nat.toDigits 10 n) (Value.scalar (.number n)).tokens := by
  intro rest ts hstops hrest
  have hnumber := TokenSpelling.number (decimal n)
  rw [value_decimal] at hnumber
  have hspelling : (decimal n).spelling = Nat.toDigits 10 n := List.append_nil _
  rw [hspelling] at hnumber
  exact .token hnumber hstops hrest

theorem stopsDigits_mark (m : Mark) (t : Text) : StopsDigits (m.char :: t) := by
  intro c hc
  cases hc
  cases m <;> decide

theorem writes_commaSeparated {ss : List Text} {rows : List (List Token)}
    (h : List.Forall₂ Writes ss rows) : Writes (commaSeparated ss) (commaJoined rows) := by
  induction h with
  | nil => exact fun _ _ _ hrest => hrest
  | @cons s row ss rows hs htail ih =>
    cases htail with
    | nil => exact hs
    | cons hs' htail =>
      intro rest ts hstops hrest
      simp only [commaSeparated, commaJoined, List.append_assoc, List.cons_append]
      exact hs _ _ (stopsDigits_mark .comma _) (.token (.mark .comma) trivial (ih _ _ hstops hrest))

/-- What stands between brackets. -/
theorem Writes.between {s : Text} {row : List Token} (h : Writes s row) (first last : Mark) :
    Writes (first.char :: s ++ [last.char]) (.mark first :: row ++ [.mark last]) := by
  intro rest ts _ hrest
  simp only [List.cons_append, List.append_assoc, List.nil_append]
  exact .token (.mark first) trivial
    (h _ _ (stopsDigits_mark last rest) (.token (.mark last) trivial hrest))

theorem writes_strings (ts : List Text) : Writes (strings ts) (Value.ofTexts ts).tokens := by
  have hrows : List.Forall₂ Writes (ts.map string) (elementRows (ts.map Value.ofText)) := by
    induction ts with
    | nil => exact .nil
    | cons t ts ih => exact .cons (writes_string t) ih
  exact (writes_commaSeparated hrows).between .openArray .closeArray

theorem writes_object {fields : List (Text × Text)} {members : List (Text × Value)}
    (h : List.Forall₂ (fun f m => f.1 = m.1 ∧ Writes f.2 m.2.tokens) fields members) :
    Writes (object fields) (Value.object members).tokens := by
  have hrows : List.Forall₂ Writes (fields.map fun f => string f.1 ++ ':' :: f.2)
      (memberRows members) := by
    induction h with
    | nil => exact .nil
    | @cons f m fields members hfirst _ ih =>
      obtain ⟨name, value⟩ := f
      obtain ⟨name', v⟩ := m
      obtain ⟨rfl, hvalue⟩ := hfirst
      refine .cons (fun rest ts hstops hrest => ?_) ih
      have hcolon : Spells (':' :: (value ++ rest)) (.mark .colon :: (v.tokens ++ ts)) :=
        .token (.mark .colon) trivial (hvalue rest ts hstops hrest)
      rw [List.append_assoc]
      exact writes_string name _ _ (stopsDigits_mark .colon _) hcolon
  exact (writes_commaSeparated hrows).between .openObject .closeObject

theorem ofText_injective : Function.Injective Value.ofText := by
  intro t u h
  simpa [Value.ofText] using h

theorem ofTexts_injective : Function.Injective Value.ofTexts := by
  intro ts us h
  exact ofText_injective.list_map (Value.array.inj h)

/-- A text that is written so is valid by itself. -/
theorem Writes.denotes {s : Text} {v : Value} (h : Writes s v.tokens) : Denotes s v := by
  have hend := h [] [] nofun .nil
  rwa [List.append_nil, List.append_nil] at hend

end ConditionalText.Json

namespace ConditionalText.SourceMap

open ConditionalText.Json (Value)

/-! ## Source maps -/

/-- The members of the JSON object of a source map. -/
def members (m : SourceMap) : List (Text × Value) :=
  [("version".toList, .scalar (.number m.version))] ++
  (m.file.map fun file => ("file".toList, .ofText file)).toList ++
  [("sources".toList, .ofTexts m.sources)] ++
  (m.sourcesContent.map fun texts => ("sourcesContent".toList, .ofTexts texts)).toList ++
  [("names".toList, .ofTexts m.names), ("mappings".toList, .ofText m.mappings)]

/-- What the members of an object say of a source map: what is absent from the map is absent from
the object. -/
structure DescribedBy (m : SourceMap) (members : List (Text × Value)) : Prop where
  version : members.lookup "version".toList = some (.scalar (.number m.version))
  file : members.lookup "file".toList = m.file.map .ofText
  sources : members.lookup "sources".toList = some (.ofTexts m.sources)
  sourcesContent : members.lookup "sourcesContent".toList = m.sourcesContent.map .ofTexts
  names : members.lookup "names".toList = some (.ofTexts m.names)
  mappings : members.lookup "mappings".toList = some (.ofText m.mappings)

theorem toJson_denotes (m : SourceMap) : Json.Denotes m.toJson (.object m.members) := by
  refine (Json.writes_object ?_).denotes
  unfold members
  cases m.file <;> cases m.sourcesContent <;>
    simp [Json.writes_string, Json.writes_strings, Json.writes_toDigits]

theorem describedBy_members (m : SourceMap) : m.DescribedBy m.members := by
  obtain ⟨version, file, sources, sourcesContent, names, mappings⟩ := m
  cases file <;> cases sourcesContent <;> constructor <;> rfl

/-- Members describe one source map at most. -/
theorem DescribedBy.eq {m n : SourceMap} {members : List (Text × Value)}
    (hm : m.DescribedBy members) (hn : n.DescribedBy members) : m = n := by
  have hversion : m.version = n.version := by simpa using hm.version.symm.trans hn.version
  have hfile : m.file = n.file :=
    Option.map_injective Json.ofText_injective (hm.file.symm.trans hn.file)
  have hsources : m.sources = n.sources :=
    Json.ofTexts_injective (Option.some.inj (hm.sources.symm.trans hn.sources))
  have hcontent : m.sourcesContent = n.sourcesContent :=
    Option.map_injective Json.ofTexts_injective (hm.sourcesContent.symm.trans hn.sourcesContent)
  have hnames : m.names = n.names :=
    Json.ofTexts_injective (Option.some.inj (hm.names.symm.trans hn.names))
  have hmappings : m.mappings = n.mappings :=
    Json.ofText_injective (Option.some.inj (hm.mappings.symm.trans hn.mappings))
  cases m
  cases n
  simp_all only

theorem nodup_members (m : SourceMap) : (m.members.map Prod.fst).Nodup := by
  obtain ⟨version, file, sources, sourcesContent, names, mappings⟩ := m
  cases file <;> cases sourcesContent <;> simp [members]

/-- **Reading the JSON text of a source map gives the source map back.** The text is valid for one
object only, no two members of which have the same name, so that it does not matter which of them a
reader would prefer. -/
theorem toJson_reads_back (m : SourceMap) :
    ∃ members, Json.read? m.toJson = some (.object members) ∧
      (∀ v, Json.Denotes m.toJson v ↔ v = .object members) ∧
      (members.map Prod.fst).Nodup ∧ m.DescribedBy members ∧
      ∀ n : SourceMap, n.toJson = m.toJson → n = m := by
  have hdenotes := toJson_denotes m
  refine ⟨m.members, Json.read?_eq_some_iff.mpr hdenotes, fun v => ?_, nodup_members m,
    describedBy_members m, fun n hn => ?_⟩
  · exact ⟨fun hv => Json.eq_of_denotes hv hdenotes, fun hv => hv ▸ hdenotes⟩
  · have hvalue : Value.object n.members = .object m.members :=
      Json.eq_of_denotes (hn ▸ toJson_denotes n) hdenotes
    rw [Value.object.injEq] at hvalue
    exact (hvalue ▸ describedBy_members n).eq (describedBy_members m)

end ConditionalText.SourceMap
