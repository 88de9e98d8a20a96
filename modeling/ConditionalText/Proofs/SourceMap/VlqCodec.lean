import ConditionalText.Proofs.SourceMap.Vlq

/-!
# Variable-length quantities of 64-bit words

A writer of quantities works on 64-bit words: the sign is shifted in from below, and digits are
shifted out until nothing is left (`appendVlq`). It writes the quantities of the integers, but for
the least one, whose magnitude has no room beside the sign.

A quantity ends at its first digit without the mark, so that quantities need nothing between them.

* `toNat_foldSign64`, `appendDigits_eq`, `appendVlq_eq`: on words the same text is written as on
  integers.
* `exists_vlqDigits`: all digits but the last are marked.
* `eq_of_encodeVlq_isPrefix`: no quantity is the beginning of another one.
* `readAll?_flatMap`: quantities written one after another are read one after another.
* `vlq_uniquely_decodable`: **the quantities of 64-bit integers are a code without separators.**
-/

namespace ConditionalText.SourceMap

/-! ## Writing words -/

/-- The sign of a word in its lowest bit, the magnitude above it. -/
def foldSign64 (value : Int64) : UInt64 :=
  if value < 0 then (-value).toUInt64 <<< 1 ||| 1 else value.toUInt64 <<< 1

theorem toNat_shiftRight_five (n : UInt64) : (n >>> 5).toNat = n.toNat / 32 := by
  rw [UInt64.toNat_shiftRight]
  exact Nat.shiftRight_eq_div_pow n.toNat 5

theorem toNat_and_low (n : UInt64) : (n &&& 0x1F).toNat = n.toNat % 32 := by
  rw [UInt64.toNat_and]
  exact Nat.and_two_pow_sub_one_eq_mod n.toNat 5

theorem shiftRight_five_eq_zero_iff {n : UInt64} : n >>> 5 = 0 ↔ n.toNat < 32 := by
  rw [← UInt64.toNat_inj, toNat_shiftRight_five]
  show n.toNat / 32 = 0 ↔ n.toNat < 32
  omega

/-- Appends the digits of a word, five bits each, and marks those that another follows. -/
def appendDigits (out : Text) (n : UInt64) : Text :=
  if n >>> 5 = 0 then out ++ [base64 (n &&& 0x1F).toNat]
  else appendDigits (out ++ [base64 ((n &&& 0x1F) ||| 0x20).toNat]) (n >>> 5)
termination_by n.toNat
decreasing_by
  have hlarge := mt shiftRight_five_eq_zero_iff.mpr ‹_›
  rw [toNat_shiftRight_five]
  omega

/-- Appends a word as a variable-length quantity. -/
def appendVlq (out : Text) (value : Int64) : Text :=
  appendDigits out (foldSign64 value)

/-! ## Words and integers -/

theorem toNat_mark (n : UInt64) : ((n &&& 0x1F) ||| 0x20).toNat = 32 + n.toNat % 32 := by
  have hlow : n.toNat % 32 < 2 ^ 5 := Nat.mod_lt _ (by decide)
  have hor := Nat.two_pow_add_eq_or_of_lt hlow 1
  rw [UInt64.toNat_or, toNat_and_low, Nat.or_comm]
  exact hor.symm

/-- The digits of a word are those of its number. -/
theorem appendDigits_eq (out : Text) (n : UInt64) :
    appendDigits out n = out ++ (vlqDigits n.toNat).map base64 := by
  fun_induction appendDigits out n with
  | case1 out n hzero =>
    have hsmall := shiftRight_five_eq_zero_iff.mp hzero
    rw [vlqDigits, if_pos hsmall, toNat_and_low, Nat.mod_eq_of_lt hsmall]
    rfl
  | case2 out n hzero ih =>
    have hlarge := mt shiftRight_five_eq_zero_iff.mpr hzero
    rw [ih, vlqDigits.eq_def n.toNat, if_neg hlarge, toNat_mark, toNat_shiftRight_five,
      List.append_assoc]
    rfl

theorem foldSign_eq (value : Int) :
    foldSign value = if value < 0 then 2 * value.natAbs + 1 else 2 * value.natAbs := by
  cases value with
  | ofNat n =>
    have hsign : ¬Int.ofNat n < 0 := by simp
    rw [if_neg hsign]
    rfl
  | negSucc n =>
    rw [if_pos (Int.negSucc_lt_zero n)]
    rfl

/-- Above the least one, the negative of a word is that of its integer. -/
theorem toInt_neg_of_ne {value : Int64} (h : value ≠ Int64.minValue) :
    (-value).toInt = -value.toInt := by
  have hle := value.le_toInt
  have hlt := value.toInt_lt
  have hne : value.toInt ≠ -2 ^ 63 := by
    intro hmin
    exact h (Int64.toInt_inj.mp (hmin.trans Int64.toInt_minValue.symm))
  rw [Int64.toInt_neg, Int.bmod_eq_of_le]
  · omega
  · omega

/-- The sign finds room beside every magnitude but the largest. -/
theorem toNat_foldSign64 {value : Int64} (h : value ≠ Int64.minValue) :
    (foldSign64 value).toNat = foldSign value.toInt := by
  have hshift {w : Int64} (hw : 0 ≤ w.toInt) : (w.toUInt64 <<< 1).toNat = 2 * w.toInt.natAbs := by
    have hword : w.toUInt64.toNat = w.toInt.toNat :=
      Int64.toNat_toUInt64_of_le (Int64.le_iff_toInt_le.mpr hw)
    have hlt := w.toInt_lt
    rw [UInt64.toNat_shiftLeft, hword]
    show w.toInt.toNat <<< 1 % 2 ^ 64 = 2 * w.toInt.natAbs
    rw [Nat.shiftLeft_eq]
    omega
  have hsign : value < 0 ↔ value.toInt < 0 := Int64.lt_iff_toInt_lt
  rw [foldSign_eq]
  unfold foldSign64
  by_cases hneg : value.toInt < 0
  · have hopposite := toInt_neg_of_ne h
    have heven := hshift (w := -value) (by omega)
    rw [if_pos (hsign.mpr hneg), if_pos hneg, UInt64.toNat_or, heven, hopposite, Int.natAbs_neg]
    exact (Nat.two_pow_add_eq_or_of_lt (i := 1) (b := 1) (by decide) value.toInt.natAbs).symm
  · rw [if_neg (mt hsign.mp hneg), if_neg hneg, hshift (by omega)]

/-- **On words the same text is written as on integers.** -/
theorem appendVlq_eq {value : Int64} (h : value ≠ Int64.minValue) (out : Text) :
    appendVlq out value = out ++ encodeVlq value.toInt := by
  rw [appendVlq, appendDigits_eq, toNat_foldSign64 h]
  rfl

/-- The least integer loses its magnitude: what is written is the negative of zero. -/
example : foldSign64 Int64.minValue = 1 := by decide

/-! ## The digits of a quantity -/

/-- All digits but the last are marked. -/
theorem exists_vlqDigits (n : Nat) :
    ∃ marked last, vlqDigits n = marked ++ [last] ∧ (∀ d ∈ marked, 32 ≤ d ∧ d < 64) ∧ last < 32 := by
  induction n using Nat.strongRecOn with
  | ind n ih =>
    rw [vlqDigits]
    split
    · next hsmall => exact ⟨[], n, rfl, by simp, hsmall⟩
    · next hlarge =>
      obtain ⟨marked, last, hdigits, hmarked, hlast⟩ := ih (n / 32) (by omega)
      refine ⟨(32 + n % 32) :: marked, last, by rw [hdigits, List.cons_append], ?_, hlast⟩
      intro d hd
      rcases List.mem_cons.mp hd with rfl | hd
      · omega
      · exact hmarked d hd

/-- No quantity is the beginning of another one. -/
theorem eq_of_encodeVlq_isPrefix {value other : Int} (h : encodeVlq value <+: encodeVlq other) :
    value = other := by
  obtain ⟨more, hmore⟩ := h
  have hvalue := readVlq?_encodeVlq value more
  have hother := readVlq?_encodeVlq other []
  rw [hmore] at hvalue
  rw [List.append_nil, hvalue] at hother
  simpa using congrArg (Option.map Prod.fst) hother

/-! ## Quantities one after another -/

theorem length_lt_of_readDigits? {t rest : Text} {n : Nat} (h : readDigits? t = some (n, rest)) :
    rest.length < t.length := by
  induction t generalizing n rest with
  | nil => cases h
  | cons c t ih =>
    rw [readDigits?] at h
    obtain ⟨digit, -, h⟩ := Option.bind_eq_some_iff.mp h
    split at h
    · cases h
      exact Nat.lt_succ_self _
    · obtain ⟨⟨high, after⟩, hhigh, h⟩ := Option.map_eq_some_iff.mp h
      cases h
      exact Nat.lt_succ_of_lt (ih hhigh)

theorem length_lt_of_readVlq? {t rest : Text} {value : Int} (h : readVlq? t = some (value, rest)) :
    rest.length < t.length := by
  obtain ⟨⟨n, after⟩, hdigits, h⟩ := Option.map_eq_some_iff.mp h
  cases h
  exact length_lt_of_readDigits? hdigits

/-- The integers of which a text is made up. -/
def readAll? (t : Text) : Option (List Int) :=
  if t = [] then some []
  else
    match _h : readVlq? t with
    | none => none
    | some (value, rest) => (readAll? rest).map fun more => value :: more
termination_by t.length
decreasing_by exact length_lt_of_readVlq? ‹_›

theorem readAll?_encodeVlq_append (value : Int) (rest : Text) :
    readAll? (encodeVlq value ++ rest) = (readAll? rest).map fun more => value :: more := by
  have hne : encodeVlq value ++ rest ≠ [] := fun h =>
    encodeVlq_ne_nil value (List.append_eq_nil_iff.mp h).1
  rw [readAll?, if_neg hne]
  split
  · next hnone =>
    rw [readVlq?_encodeVlq] at hnone
    cases hnone
  · next hsome =>
    rw [readVlq?_encodeVlq] at hsome
    cases hsome
    rfl

/-- Quantities written one after another are read one after another. -/
theorem readAll?_flatMap (values : List Int) :
    readAll? (values.flatMap encodeVlq) = some values := by
  induction values with
  | nil =>
    rw [List.flatMap_nil, readAll?, if_pos rfl]
  | cons value values ih =>
    rw [List.flatMap_cons, readAll?_encodeVlq_append, ih]
    rfl

theorem foldl_appendVlq {values : List Int64} (h : ∀ value ∈ values, value ≠ Int64.minValue)
    (out : Text) :
    values.foldl appendVlq out = out ++ (values.map Int64.toInt).flatMap encodeVlq := by
  induction values generalizing out with
  | nil => simp
  | cons value values ih =>
    have hvalue := h value List.mem_cons_self
    have hmore := ih fun other hother => h other (List.mem_cons_of_mem value hother)
    rw [List.foldl_cons, appendVlq_eq hvalue, hmore, List.append_assoc, List.map_cons,
      List.flatMap_cons]

/-! ## The code -/

/-- **The quantities of 64-bit integers are a code without separators.** Of any integers but the least
one, each is written, on words as on integers, as Base64 digits, all marked but the last, which read
back as that integer; none is the beginning of another; and written one after another they read back
in order. -/
theorem vlq_uniquely_decodable {values : List Int64}
    (h : ∀ value ∈ values, value ≠ Int64.minValue) :
    (∀ value ∈ values,
      (∀ out, appendVlq out value = out ++ encodeVlq value.toInt) ∧
      (∃ marked last, encodeVlq value.toInt = (marked ++ [last]).map base64 ∧
        (∀ d ∈ marked, 32 ≤ d ∧ d < 64) ∧ last < 32) ∧
      readVlq? (encodeVlq value.toInt) = some (value.toInt, [])) ∧
    (∀ value ∈ values, ∀ other ∈ values,
      encodeVlq value.toInt <+: encodeVlq other.toInt → value = other) ∧
    values.foldl appendVlq [] = (values.map Int64.toInt).flatMap encodeVlq ∧
    readAll? (values.foldl appendVlq []) = some (values.map Int64.toInt) := by
  have hwritten := foldl_appendVlq h []
  rw [List.nil_append] at hwritten
  refine ⟨?_, ?_, hwritten, ?_⟩
  · intro value hvalue
    obtain ⟨marked, last, hdigits, hmarked, hlast⟩ := exists_vlqDigits (foldSign value.toInt)
    have hread := readVlq?_encodeVlq value.toInt []
    rw [List.append_nil] at hread
    refine ⟨appendVlq_eq (h value hvalue), ⟨marked, last, ?_, hmarked, hlast⟩, hread⟩
    rw [encodeVlq, hdigits]
  · intro value _ other _ hprefix
    exact Int64.toInt_inj.mp (eq_of_encodeVlq_isPrefix hprefix)
  · rw [hwritten, readAll?_flatMap]

/-- Integers of one digit, of two digits and of thirteen. -/
def sampleWords : List Int64 := [0, -1, 15, 16, -17, Int64.maxValue, -Int64.maxValue]

theorem vlq_uniquely_decodable_sampleWords :
    (∀ value ∈ sampleWords, value ≠ Int64.minValue) ∧
      readAll? (sampleWords.foldl appendVlq []) =
        some [0, -1, 15, 16, -17, 0x7fffffffffffffff, -0x7fffffffffffffff] := by
  have hmin : Int64.minValue ∉ sampleWords := by decide
  have hwords : ∀ value ∈ sampleWords, value ≠ Int64.minValue :=
    fun value hmem hvalue => hmin (hvalue ▸ hmem)
  exact ⟨hwords, (vlq_uniquely_decodable hwords).2.2.2⟩

end ConditionalText.SourceMap
