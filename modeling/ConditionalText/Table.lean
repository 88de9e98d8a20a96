/-!
# Tables

A table gives values to keys. Its entries are kept in strictly increasing order of their keys, so
that a key has one entry, listing needs no sorting, and two tables with the same look-ups are equal.

* `get?_insert`: inserting sets one key and leaves the others.
* `get?_insertAll`: of several entries for one key the last one counts.
* `get?_merge`: of two tables together the second one is asked first.
* `ext`: **a table is determined by its look-ups.**
-/

namespace ConditionalText

/-- Keys with a strict total order. -/
class KeyOrder (κ : Type) [LT κ] : Prop where
  irrefl (a : κ) : ¬ a < a
  trans {a b c : κ} : a < b → b < c → a < c
  lt_of_not_lt {a b : κ} : ¬ a < b → b ≠ a → b < a

instance : KeyOrder Char where
  irrefl := Char.lt_irrefl
  trans := Char.lt_trans
  lt_of_not_lt h hne := Char.not_le.1 fun hle => hne (Char.le_antisymm (Char.not_lt.1 h) hle)

/-- Lists are ordered by their first difference. -/
instance {κ : Type} [LT κ] [DecidableLT κ] [DecidableEq κ] [KeyOrder κ] : KeyOrder (List κ) where
  irrefl a := by
    induction a with
    | nil => simp
    | cons x a ih =>
      rw [List.cons_lt_cons_iff]
      rintro (h | h)
      · exact KeyOrder.irrefl x h
      · exact ih h.2
  trans {a b c} hab hbc := by
    induction a generalizing b c with
    | nil =>
      cases b with
      | nil => simp at hab
      | cons y b => cases c with
        | nil => simp at hbc
        | cons z c => simp
    | cons x a ih =>
      cases b with
      | nil => simp at hab
      | cons y b =>
        cases c with
        | nil => simp at hbc
        | cons z c =>
          rw [List.cons_lt_cons_iff] at hab hbc ⊢
          rcases hab with hab | ⟨rfl, hab⟩
          · rcases hbc with hbc | ⟨rfl, -⟩
            · exact .inl (KeyOrder.trans hab hbc)
            · exact .inl hab
          · rcases hbc with hbc | ⟨rfl, hbc⟩
            · exact .inl hbc
            · exact .inr ⟨rfl, ih hab hbc⟩
  lt_of_not_lt {a b} h hne := by
    induction a generalizing b with
    | nil =>
      cases b with
      | nil => exact absurd rfl hne
      | cons y b => exact absurd (List.nil_lt_cons y b) h
    | cons x a ih =>
      cases b with
      | nil => exact List.nil_lt_cons x a
      | cons y b =>
        rw [List.cons_lt_cons_iff] at h ⊢
        by_cases hxy : y = x
        · subst hxy
          exact .inr ⟨rfl, ih (fun hab => h (.inr ⟨rfl, hab⟩)) fun hab => hne (by rw [hab])⟩
        · exact .inl (KeyOrder.lt_of_not_lt (fun hlt => h (.inl hlt)) hxy)

/-- Entries in strictly increasing order of their keys. -/
def Ordered {κ ν : Type} [LT κ] (entries : List (κ × ν)) : Prop :=
  entries.Pairwise fun a b => a.1 < b.1

/-- Keys with their values, in the order of the keys. -/
structure Table (κ ν : Type) [LT κ] where
  entries : List (κ × ν)
  ordered : Ordered entries
  deriving DecidableEq

namespace Table

variable {κ ν : Type} [LT κ]

/-! ## Entries -/

section Entries

variable [DecidableEq κ]

/-- The value of a key among entries. -/
def find? (key : κ) : List (κ × ν) → Option ν
  | [] => none
  | (k, v) :: rest => if k = key then some v else find? key rest

variable [DecidableLT κ]

/-- Sets a key among ordered entries. -/
def insertEntry (key : κ) (value : ν) : List (κ × ν) → List (κ × ν)
  | [] => [(key, value)]
  | (k, v) :: rest =>
    if key < k then (key, value) :: (k, v) :: rest
    else if k = key then (key, value) :: rest
    else (k, v) :: insertEntry key value rest

theorem mem_insertEntry {key : κ} {value : ν} {entries : List (κ × ν)} {entry : κ × ν}
    (h : entry ∈ insertEntry key value entries) : entry = (key, value) ∨ entry ∈ entries := by
  induction entries with
  | nil => simpa [insertEntry] using h
  | cons e rest ih =>
    rw [insertEntry] at h
    split at h
    · exact List.mem_cons.1 h
    split at h
    · exact (List.mem_cons.1 h).imp_right (List.mem_cons_of_mem _)
    · rcases List.mem_cons.1 h with rfl | h
      · exact .inr List.mem_cons_self
      · exact (ih h).imp_right (List.mem_cons_of_mem _)

/-- Setting a key keeps the order. -/
theorem ordered_insertEntry [KeyOrder κ] (key : κ) (value : ν) {entries : List (κ × ν)}
    (h : Ordered entries) : Ordered (insertEntry key value entries) := by
  induction entries with
  | nil => exact List.pairwise_singleton _ _
  | cons entry rest ih =>
    obtain ⟨k, v⟩ := entry
    obtain ⟨hk, hr⟩ := List.pairwise_cons.1 h
    rw [insertEntry]
    split
    · next hlt =>
      refine List.pairwise_cons.2 ⟨fun e he => ?_, h⟩
      rcases List.mem_cons.1 he with rfl | he
      · exact hlt
      · exact KeyOrder.trans hlt (hk e he)
    · next hlt =>
      split
      · next heq => exact List.pairwise_cons.2 ⟨heq ▸ hk, hr⟩
      · next hne =>
        refine List.pairwise_cons.2 ⟨fun e he => ?_, ih hr⟩
        rcases mem_insertEntry he with rfl | he
        · exact KeyOrder.lt_of_not_lt hlt hne
        · exact hk e he

theorem find?_insertEntry (key : κ) (value : ν) (other : κ) (entries : List (κ × ν)) :
    find? other (insertEntry key value entries) =
      if key = other then some value else find? other entries := by
  induction entries with
  | nil => rfl
  | cons entry rest ih =>
    obtain ⟨k, v⟩ := entry
    rw [insertEntry]
    split
    · rfl
    split
    · next h => subst h; by_cases ho : k = other <;> simp [find?, ho]
    · next h =>
      rw [find?, ih, find?]
      by_cases ho : k = other
      · subst ho; simp [Ne.symm h]
      · simp [ho]

end Entries

/-! ## Tables -/

def empty : Table κ ν := ⟨[], .nil⟩

def keys (t : Table κ ν) : List κ :=
  t.entries.map Prod.fst

def size (t : Table κ ν) : Nat :=
  t.entries.length

def isEmpty (t : Table κ ν) : Bool :=
  t.entries.isEmpty

variable [DecidableEq κ]

def get? (t : Table κ ν) (key : κ) : Option ν :=
  find? key t.entries

def contains (t : Table κ ν) (key : κ) : Bool :=
  (t.get? key).isSome

variable [DecidableLT κ] [KeyOrder κ]

/-- Sets one key. -/
def insert (t : Table κ ν) (key : κ) (value : ν) : Table κ ν :=
  ⟨insertEntry key value t.entries, ordered_insertEntry key value t.ordered⟩

/-- Sets keys one after another. -/
def insertAll (t : Table κ ν) : List (κ × ν) → Table κ ν
  | [] => t
  | (key, value) :: more => (t.insert key value).insertAll more

def ofList (entries : List (κ × ν)) : Table κ ν :=
  empty.insertAll entries

/-- Both tables together; `other` wins where both have a key. -/
def merge (t other : Table κ ν) : Table κ ν :=
  t.insertAll other.entries

/-- Inserting sets one key and leaves the others. -/
@[simp] theorem get?_insert (t : Table κ ν) (key : κ) (value : ν) (other : κ) :
    (t.insert key value).get? other = if key = other then some value else t.get? other :=
  find?_insertEntry key value other t.entries

omit [LT κ] [DecidableLT κ] [KeyOrder κ] in
theorem find?_append (key : κ) (xs ys : List (κ × ν)) :
    find? key (xs ++ ys) = (find? key xs).or (find? key ys) := by
  induction xs with
  | nil => simp [find?]
  | cons x xs ih => simp only [List.cons_append, find?, ih]; split <;> simp

/-- Of several entries for one key the last one counts. -/
theorem get?_insertAll (t : Table κ ν) (entries : List (κ × ν)) (key : κ) :
    (t.insertAll entries).get? key = (find? key entries.reverse).or (t.get? key) := by
  induction entries generalizing t with
  | nil => rfl
  | cons entry more ih =>
    obtain ⟨k, v⟩ := entry
    rw [insertAll, ih, get?_insert, List.reverse_cons, find?_append, Option.or_assoc]
    simp only [find?]
    split <;> simp

omit [DecidableLT κ] in
theorem find?_eq_none_of_lt {key : κ} {entries : List (κ × ν)}
    (h : ∀ e ∈ entries, key < e.1) : find? key entries = none := by
  induction entries with
  | nil => rfl
  | cons e rest ih =>
    have hne : e.1 ≠ key := fun he => KeyOrder.irrefl key (he ▸ h e List.mem_cons_self)
    simp only [find?, hne, if_false]
    exact ih fun e he => h e (List.mem_cons_of_mem _ he)

omit [DecidableLT κ] in
/-- In ordered entries a key has one value, from whichever end it is looked for. -/
theorem find?_reverse {entries : List (κ × ν)} (h : Ordered entries) (key : κ) :
    find? key entries.reverse = find? key entries := by
  induction entries with
  | nil => rfl
  | cons e rest ih =>
    obtain ⟨k, v⟩ := e
    obtain ⟨hlt, hrest⟩ := List.pairwise_cons.1 h
    rw [List.reverse_cons, find?_append, ih hrest]
    by_cases hk : k = key
    · subst hk
      simp [find?, find?_eq_none_of_lt hlt]
    · simp [find?, hk]

/-- Of two tables together the second one is asked first. -/
theorem get?_merge (t other : Table κ ν) (key : κ) :
    (t.merge other).get? key = (other.get? key).or (t.get? key) := by
  rw [merge, get?_insertAll, find?_reverse other.ordered]
  rfl

omit [DecidableLT κ] in
theorem eq_of_find?_eq {xs ys : List (κ × ν)} (hx : Ordered xs) (hy : Ordered ys)
    (h : ∀ key, find? key xs = find? key ys) : xs = ys := by
  induction xs generalizing ys with
  | nil =>
    cases ys with
    | nil => rfl
    | cons y ys => simpa [find?] using h y.1
  | cons x xs ih =>
    cases ys with
    | nil => simpa [find?] using h x.1
    | cons y ys =>
      obtain ⟨hx1, hxs⟩ := List.pairwise_cons.1 hx
      obtain ⟨hy1, hys⟩ := List.pairwise_cons.1 hy
      have hkey : x.1 = y.1 := by
        have hlt {a b : κ × ν} {as bs : List (κ × ν)} (hb : ∀ e ∈ bs, b.1 < e.1)
            (hf : find? a.1 (a :: as) = find? a.1 (b :: bs)) : ¬ a.1 < b.1 := by
          intro hab
          have hnone : find? a.1 (b :: bs) = none := find?_eq_none_of_lt fun e he => by
            rcases List.mem_cons.1 he with rfl | he
            · exact hab
            · exact KeyOrder.trans hab (hb e he)
          rw [hnone] at hf
          simp [find?] at hf
        by_cases he : x.1 = y.1
        · exact he
        · exact absurd (KeyOrder.lt_of_not_lt (hlt hy1 (h x.1)) (Ne.symm he)) (hlt hx1 (h y.1).symm)
      have hvalue : x.2 = y.2 := by simpa [find?, hkey] using h x.1
      have hrest : xs = ys := ih hxs hys fun key => by
        by_cases hk : x.1 = key
        · rw [find?_eq_none_of_lt fun e he => hk ▸ hx1 e he,
            find?_eq_none_of_lt fun e he => hk ▸ hkey ▸ hy1 e he]
        · simpa [find?, hk, hkey ▸ hk] using h key
      rw [hrest, Prod.ext hkey hvalue]

omit [DecidableLT κ] in
/-- **A table is determined by its look-ups.** -/
theorem ext {t u : Table κ ν} (h : ∀ key, t.get? key = u.get? key) : t = u := by
  have he := eq_of_find?_eq t.ordered u.ordered h
  cases t
  cases u
  simpa using he

end Table

end ConditionalText
