import ConditionalText.Text.Span
import Mathlib.Tactic.SplitIfs

/-!
# The bytes of a text

Offsets count the bytes of the UTF-8 form. `bytes` is that form, `Span.offsets` the offsets of a
span, so that what stands at an offset can be said: `(bytes t)[j]?`. A part of a text holds its
bytes at the offsets from its start on (`map_getElem?_bytes`). `IsBoundary` are the offsets at which
a text can be cut. Texts are ordered as their bytes are (`bytes_lt_bytes`).
-/

namespace ConditionalText.Text

/-- The UTF-8 form of a text. -/
def bytes (t : Text) : List UInt8 :=
  t.flatMap String.utf8EncodeChar

/-- It is the form in which texts are written. -/
theorem toUTF8_ofList (t : Text) : (String.ofList t).toUTF8 = (bytes t).toByteArray :=
  rfl

@[simp] theorem length_bytes (t : Text) : (bytes t).length = byteLength t := by
  induction t with
  | nil => rfl
  | cons c t ih =>
    rw [bytes, List.flatMap_cons, List.length_append, String.length_utf8EncodeChar, byteLength_cons,
      ← ih]
    rfl

theorem bytes_append (a b : Text) : bytes (a ++ b) = bytes a ++ bytes b :=
  List.flatMap_append

theorem byteLength_eq_zero_iff {t : Text} : byteLength t = 0 ↔ t = [] := by
  cases t with
  | nil => simp
  | cons c t =>
    have := c.utf8Size_pos
    simp only [byteLength_cons, reduceCtorEq, iff_false]
    omega

theorem byteLength_pos {t : Text} (h : t ≠ []) : 0 < byteLength t :=
  Nat.pos_of_ne_zero (mt byteLength_eq_zero_iff.mp h)

/-- The text of a span whose ends lie between characters. -/
theorem slice_append (a b c : Text) :
    slice (byteLength a) (byteLength a + byteLength b) (a ++ (b ++ c)) = b := by
  rw [slice, dropBytes_append, Nat.add_sub_cancel_left, takeBytes_append]

/-- Whether an offset lies at an end of a text or between two of its characters. -/
def IsBoundary (t : Text) (offset : Nat) : Prop :=
  ∃ a b, t = a ++ b ∧ byteLength a = offset

theorem isBoundary_iff {t : Text} {offset : Nat} :
    IsBoundary t offset ↔ byteLength (takeBytes offset t) = offset := by
  constructor
  · rintro ⟨a, b, rfl, rfl⟩
    rw [takeBytes_append]
  · intro h
    exact ⟨takeBytes offset t, dropBytes offset t, (takeBytes_append_dropBytes offset t).symm, h⟩

instance (t : Text) (offset : Nat) : Decidable (IsBoundary t offset) :=
  decidable_of_iff _ isBoundary_iff.symm

/-- Two boundaries cut a text into three parts. -/
theorem exists_parts_of_isBoundary {t : Text} {start stop : Nat} (hstart : IsBoundary t start)
    (hstop : IsBoundary t stop) (hle : start ≤ stop) :
    ∃ a b c, t = a ++ (b ++ c) ∧ start = byteLength a ∧ stop = byteLength a + byteLength b := by
  obtain ⟨a, rest, rfl, rfl⟩ := hstart
  obtain ⟨a', rest', htext, rfl⟩ := hstop
  rcases List.append_eq_append_iff.mp htext with ⟨m, rfl, rfl⟩ | ⟨m, rfl, rfl⟩
  · exact ⟨a, m, rest', rfl, rfl, byteLength_append a m⟩
  · -- the second cut lies at the first one
    have hm : m = [] := by
      rw [byteLength_append] at hle
      exact byteLength_eq_zero_iff.mp (by omega)
    subst hm
    exact ⟨a', [], rest, by simp, by simp, by simp⟩

namespace Span

theorem isEmpty_iff {s : Span} : s.isEmpty = true ↔ s.stop ≤ s.start := decide_eq_true_iff

/-- Whether an offset lies in a span. -/
def contains (s : Span) (j : Nat) : Bool :=
  s.start ≤ j && j < s.stop

@[simp] theorem contains_iff {s : Span} {j : Nat} :
    s.contains j = true ↔ s.start ≤ j ∧ j < s.stop := by
  simp only [contains, Bool.and_eq_true, decide_eq_true_eq]

theorem contains_eq_false_iff {s : Span} {j : Nat} :
    s.contains j = false ↔ j < s.start ∨ s.stop ≤ j := by
  rw [Bool.eq_false_iff, ne_eq, contains_iff]
  omega

/-- The offsets of a span, in order. -/
def offsets (s : Span) : List Nat :=
  List.range' s.start s.length

theorem offsets_of_isEmpty (s : Span) (h : s.isEmpty = true) : s.offsets = [] := by
  rw [offsets, (length_eq_zero_iff s).mpr h, List.range'_zero]

theorem extract_of_isEmpty (t : Text) (s : Span) (h : s.isEmpty = true) : s.extract t = [] := by
  have hlength : s.stop - s.start = 0 := (length_eq_zero_iff s).mpr h
  rw [extract, slice, hlength, takeBytes_zero]

theorem length_flatMap_offsets (spans : List Span) :
    (spans.flatMap offsets).length = total spans := by
  induction spans with
  | nil => rfl
  | cons s spans ih =>
    rw [List.flatMap_cons, List.length_append, ih, offsets, List.length_range', total]

end Span

/-- The bytes at the offsets of a part of a text are those of the part. -/
theorem map_getElem?_bytes (a b c : Text) :
    (List.range' (byteLength a) (byteLength b)).map (fun j => (bytes (a ++ (b ++ c)))[j]?) =
      (bytes b).map some := by
  refine List.ext_getElem (by simp) fun i hi hi' => ?_
  have hb : i < (bytes b).length := by simpa using hi'
  rw [List.getElem_map, List.getElem_map, List.getElem_range', bytes_append, bytes_append,
    List.getElem?_append_right (by simp), List.getElem?_append_left (by simp at hb ⊢; omega)]
  simp

/-! ## The order of bytes -/

/-- The bytes of an earlier character come first, whatever follows: a longer form starts with a
larger byte, and forms of one length are read as numbers. -/
theorem utf8EncodeChar_append_lt {c d : Char} (h : c < d) (u v : List UInt8) :
    String.utf8EncodeChar c ++ u < String.utf8EncodeChar d ++ v := by
  have hlt : c.val.toNat < d.val.toNat := h
  have hmax : d.val.toNat < 0x110000 := by
    rcases d.valid with hsmall | hlarge
    · exact Nat.lt_trans hsmall (by decide)
    · exact hlarge.2
  have htwo (k : Nat) : k / 4096 = k / 64 / 64 := (Nat.div_div_eq_div_mul k 64 64).symm
  have hthree (k : Nat) : k / 262144 = k / 64 / 64 / 64 := by
    rw [Nat.div_div_eq_div_mul, Nat.div_div_eq_div_mul]
  simp only [String.utf8EncodeChar]
  split_ifs
  all_goals
    simp (disch := omega) only [List.cons_append, List.nil_append, List.cons_lt_cons_iff,
      UInt8.lt_iff_toNat_lt, ← UInt8.toNat_inj, UInt8.toNat_ofNat', htwo, hthree, Nat.mod_eq_of_lt]
    omega

/-- **The order of texts by code points is that of their bytes.** -/
theorem bytes_lt_bytes {a b : Text} (h : a < b) : bytes a < bytes b := by
  induction a generalizing b with
  | nil =>
    cases b with
    | nil => exact absurd h (List.not_lt_nil [])
    | cons d b =>
      have hne : bytes (d :: b) ≠ [] := by
        intro hnil
        have hlength := congrArg List.length hnil
        rw [length_bytes] at hlength
        exact absurd (byteLength_eq_zero_iff.mp hlength) (List.cons_ne_nil d b)
      obtain ⟨x, xs, hx⟩ := List.exists_cons_of_ne_nil hne
      rw [hx]
      exact List.nil_lt_cons x xs
  | cons c a ih =>
    cases b with
    | nil => exact absurd h (List.not_lt_nil _)
    | cons d b =>
      have hcons (e : Char) (t : Text) : bytes (e :: t) = String.utf8EncodeChar e ++ bytes t := rfl
      rw [hcons, hcons]
      rcases List.cons_lt_cons_iff.mp h with hlt | ⟨rfl, hrest⟩
      · exact utf8EncodeChar_append_lt hlt (bytes a) (bytes b)
      · exact List.append_left_lt (ih hrest)

end ConditionalText.Text
