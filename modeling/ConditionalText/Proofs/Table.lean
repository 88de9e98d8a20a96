import ConditionalText.Table
import Mathlib.Data.List.Forall2
import Mathlib.Data.Set.Card

/-!
# What a table lists and where it comes from

A table lists its look-ups, each key once. In a table made of entries in any order, a key has the
value of the last entry for it. `GivenLast` says that of any things that give values to keys, so that
it can be told of the entries and of what they were read from.

* `mem_entries_iff`, `mem_keys_iff`, `pairwise_keys`: a table lists exactly its look-ups, in order.
* `ncard_keys`: its size is the number of keys that have a value.
* `get?_ofList_eq_some_iff`: **of the entries for one key the last one counts.**
-/

namespace ConditionalText

/-! ## The last of several -/

section GivenLast

variable {α β κ ν : Type}

/-- The last of some things that give a key a value gives it this one. -/
def GivenLast (gives : α → κ → ν → Prop) (xs : List α) (key : κ) (value : ν) : Prop :=
  ∃ before x after, xs = before ++ x :: after ∧ gives x key value ∧
    ∀ y ∈ after, ∀ other, ¬gives y key other

theorem not_givenLast_nil {gives : α → κ → ν → Prop} {key : κ} {value : ν} :
    ¬GivenLast gives [] key value := by
  rintro ⟨before, x, after, hnil, -⟩
  simp at hnil

theorem givenLast_cons_iff {gives : α → κ → ν → Prop} {x : α} {xs : List α} {key : κ} {value : ν} :
    GivenLast gives (x :: xs) key value ↔
      GivenLast gives xs key value ∨ gives x key value ∧ ∀ y ∈ xs, ∀ other, ¬gives y key other := by
  constructor
  · rintro ⟨before, y, after, hxs, hgives, hafter⟩
    cases before with
    | nil =>
      obtain ⟨rfl, rfl⟩ := List.cons.inj hxs
      exact .inr ⟨hgives, hafter⟩
    | cons first before =>
      obtain ⟨rfl, rfl⟩ := List.cons.inj hxs
      exact .inl ⟨before, y, after, rfl, hgives, hafter⟩
  · rintro (⟨before, y, after, rfl, hgives, hafter⟩ | ⟨hgives, hafter⟩)
    · exact ⟨x :: before, y, after, rfl, hgives, hafter⟩
    · exact ⟨[], x, xs, rfl, hgives, hafter⟩

variable {κ' : Type} {gives : α → κ → ν → Prop} {gives' : β → κ' → ν → Prop} {xs : List α}
  {ys : List β} {key : κ} {key' : κ'}

theorem gives_nothing_congr
    (h : List.Forall₂ (fun x y => ∀ value, gives x key value ↔ gives' y key' value) xs ys) :
    (∀ x ∈ xs, ∀ value, ¬gives x key value) ↔ ∀ y ∈ ys, ∀ value, ¬gives' y key' value := by
  induction h with
  | nil => simp
  | cons hxy _ ih =>
    rw [List.forall_mem_cons, List.forall_mem_cons]
    exact and_congr (forall_congr' fun value => not_congr (hxy value)) ih

/-- What gives the same values, thing by thing, gives the same last ones. -/
theorem givenLast_congr
    (h : List.Forall₂ (fun x y => ∀ value, gives x key value ↔ gives' y key' value) xs ys)
    (value : ν) : GivenLast gives xs key value ↔ GivenLast gives' ys key' value := by
  induction h with
  | nil => simp only [not_givenLast_nil]
  | cons hxy hrest ih =>
    rw [givenLast_cons_iff, givenLast_cons_iff]
    exact or_congr ih (and_congr (hxy value) (gives_nothing_congr hrest))

/-- Things that come from others give what those give through them. -/
theorem givenLast_filterMap_iff {gives : β → κ → ν → Prop} {f : α → Option β} {xs : List α} {key : κ}
    {value : ν} :
    GivenLast gives (xs.filterMap f) key value ↔
      GivenLast (fun x key value => ∃ y, f x = some y ∧ gives y key value) xs key value := by
  induction xs with
  | nil => simp only [List.filterMap_nil, not_givenLast_nil]
  | cons x xs ih =>
    have hnone : (∀ y ∈ xs.filterMap f, ∀ other, ¬gives y key other) ↔
        ∀ x ∈ xs, ∀ other, ¬∃ y, f x = some y ∧ gives y key other := by
      simp only [List.mem_filterMap]
      constructor
      · rintro h x hx other ⟨y, hy, hgives⟩
        exact h y ⟨x, hx, hy⟩ other hgives
      · rintro h y ⟨x, hx, hy⟩ other hgives
        exact h x hx other ⟨y, hy, hgives⟩
    rw [givenLast_cons_iff, ← ih, ← hnone]
    cases hf : f x with
    | none => simp [List.filterMap_cons_none hf]
    | some y => simp [List.filterMap_cons_some hf, givenLast_cons_iff]

end GivenLast

namespace Table

variable {κ ν : Type} [LT κ] [DecidableEq κ]

/-! ## Listing -/

/-- A key is listed exactly if it has a value. -/
theorem mem_keys_iff (t : Table κ ν) (key : κ) : key ∈ t.keys ↔ (t.get? key).isSome := by
  unfold keys get?
  induction t.entries with
  | nil => simp [find?]
  | cons e rest ih =>
    obtain ⟨k, v⟩ := e
    rw [List.map_cons, List.mem_cons, ih, find?]
    by_cases hk : k = key
    · simp [hk]
    · simp [hk, Ne.symm hk]

omit [DecidableEq κ] in
/-- Keys are listed in order. -/
theorem pairwise_keys (t : Table κ ν) : t.keys.Pairwise (· < ·) :=
  List.pairwise_map.mpr t.ordered

variable [KeyOrder κ]

/-- A table lists its look-ups. -/
theorem mem_entries_iff (t : Table κ ν) {key : κ} {value : ν} :
    (key, value) ∈ t.entries ↔ t.get? key = some value := by
  obtain ⟨entries, hordered⟩ := t
  unfold get?
  induction entries with
  | nil => simp [find?]
  | cons e rest ih =>
    obtain ⟨k, v⟩ := e
    obtain ⟨hlt, hrest⟩ := List.pairwise_cons.mp hordered
    rw [List.mem_cons, ih hrest, find?, Prod.mk.injEq]
    by_cases hk : k = key
    · subst hk
      simp [find?_eq_none_of_lt hlt, eq_comm]
    · simp [hk, Ne.symm hk]

omit [DecidableEq κ] in
theorem nodup_keys (t : Table κ ν) : t.keys.Nodup := by
  refine List.Pairwise.imp ?_ t.pairwise_keys
  rintro a b hlt rfl
  exact KeyOrder.irrefl a hlt

/-- The size of a table is the number of keys that have a value. -/
theorem ncard_keys (t : Table κ ν) : {key | ∃ value, t.get? key = some value}.ncard = t.size := by
  have hkeys : {key | ∃ value, t.get? key = some value} = (t.keys.toFinset : Set κ) := by
    ext key
    rw [Set.mem_ofPred_eq, ← Option.isSome_iff_exists, ← mem_keys_iff, Finset.mem_coe,
      List.mem_toFinset]
  rw [hkeys, Set.ncard_coe_finset, List.toFinset_card_of_nodup t.nodup_keys]
  exact List.length_map Prod.fst

/-! ## Tables of entries -/

/-- An entry gives its key its value. -/
def Gives (entry : κ × ν) (key : κ) (value : ν) : Prop :=
  entry = (key, value)

omit [LT κ] [KeyOrder κ] in
theorem find?_eq_none_iff {key : κ} {entries : List (κ × ν)} :
    find? key entries = none ↔ ∀ e ∈ entries, ∀ value, ¬Gives e key value := by
  induction entries with
  | nil => simp [find?]
  | cons e rest ih =>
    obtain ⟨k, v⟩ := e
    rw [find?, List.forall_mem_cons, ← ih]
    by_cases hk : k = key
    · simp [hk, Gives]
    · simp [hk, Gives]

omit [LT κ] [KeyOrder κ] in
theorem find?_reverse_eq_some_iff {key : κ} {value : ν} {entries : List (κ × ν)} :
    find? key entries.reverse = some value ↔ GivenLast Gives entries key value := by
  induction entries with
  | nil => simp [find?, not_givenLast_nil]
  | cons e rest ih =>
    have hnone : find? key rest.reverse = none ↔ ∀ e ∈ rest, ∀ value, ¬Gives e key value := by
      rw [find?_eq_none_iff]
      simp only [List.mem_reverse]
    obtain ⟨k, v⟩ := e
    rw [List.reverse_cons, find?_append, Option.or_eq_some_iff, givenLast_cons_iff, ih, hnone,
      and_comm]
    by_cases hk : k = key
    · simp [find?, hk, Gives]
    · simp [find?, hk, Gives]

variable [DecidableLT κ]

theorem get?_ofList (key : κ) (entries : List (κ × ν)) :
    (ofList entries).get? key = find? key entries.reverse := by
  rw [ofList, get?_insertAll]
  exact Option.or_none

/-- **Of the entries for one key the last one counts.** -/
theorem get?_ofList_eq_some_iff {key : κ} {value : ν} {entries : List (κ × ν)} :
    (ofList entries).get? key = some value ↔ GivenLast Gives entries key value := by
  rw [get?_ofList, find?_reverse_eq_some_iff]

theorem get?_ofList_eq_none_iff {key : κ} {entries : List (κ × ν)} :
    (ofList entries).get? key = none ↔ ∀ e ∈ entries, ∀ value, ¬Gives e key value := by
  rw [get?_ofList, find?_eq_none_iff]
  simp only [List.mem_reverse]

end Table

end ConditionalText
