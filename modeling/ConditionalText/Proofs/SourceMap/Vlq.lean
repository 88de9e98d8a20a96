import ConditionalText.SourceMap.Vlq

/-!
# Reading variable-length quantities

The reverse of `encodeVlq`: a Base64 digit gives five bits, the least significant digit first, until
one without the sixth bit; the lowest bit of the whole is the sign. A reader returns what follows
the number, so that numbers written one after another can be read one after another.

* `digitValue?_base64`: a digit is found at its place in the alphabet.
* `readDigits?_vlqDigits`: the digits of a number read back as that number.
* `readVlq?_encodeVlq`: **an integer is read back, whatever follows it.**
* `mem_alphabet_of_mem_encodeVlq`: a number is made of Base64 digits.
-/

namespace ConditionalText.SourceMap

/-! ## The reader -/

/-- The value of a Base64 digit: its place in the alphabet. -/
def digitValue? (c : Char) : Option Nat :=
  alphabet.idxOf? c

/-- The natural number at the start of a text, and what follows it. -/
def readDigits? : Text → Option (Nat × Text)
  | [] => none
  | c :: rest =>
    (digitValue? c).bind fun digit =>
      if digit < 32 then some (digit, rest)
      else (readDigits? rest).map fun (high, after) => (digit - 32 + 32 * high, after)

/-- The integer that has its sign in the lowest bit. -/
def unfoldSign (n : Nat) : Int :=
  if n % 2 = 0 then (n / 2 : Nat) else -(n / 2 : Nat)

/-- The integer at the start of a text, and what follows it. -/
def readVlq? (t : Text) : Option (Int × Text) :=
  (readDigits? t).map fun (n, after) => (unfoldSign n, after)

/-! ## Digits -/

theorem digitValue?_base64 {value : Nat} (h : value < 64) :
    digitValue? (base64 value) = some value := by
  have hall : ∀ i : Fin 64, digitValue? (base64 i) = some i.val := by decide +kernel
  exact hall ⟨value, h⟩

theorem base64_mem_alphabet {value : Nat} (h : value < 64) : base64 value ∈ alphabet := by
  have hlength : alphabet.length = 64 := by decide +kernel
  have hlt : value < alphabet.length := hlength ▸ h
  rw [base64, List.getD_eq_getElem?_getD, List.getElem?_eq_getElem hlt, Option.getD_some]
  exact List.getElem_mem hlt

theorem lt_of_mem_vlqDigits {n digit : Nat} (h : digit ∈ vlqDigits n) : digit < 64 := by
  induction n using Nat.strongRecOn with
  | ind n ih =>
    rw [vlqDigits] at h
    split at h
    · next hsmall =>
      rw [List.mem_singleton] at h
      omega
    · next hlarge =>
      rcases List.mem_cons.mp h with rfl | hrest
      · have := Nat.mod_lt n (show 0 < 32 by decide)
        omega
      · exact ih (n / 32) (by omega) hrest

/-! ## Numbers -/

/-- The digits of a number read back as that number. -/
theorem readDigits?_vlqDigits (n : Nat) (rest : Text) :
    readDigits? ((vlqDigits n).map base64 ++ rest) = some (n, rest) := by
  induction n using Nat.strongRecOn with
  | ind n ih =>
    rw [vlqDigits]
    split
    · next hsmall =>
      have hdigit := digitValue?_base64 (show n < 64 by omega)
      simp only [List.map_cons, List.map_nil, List.cons_append, List.nil_append, readDigits?,
        hdigit, Option.bind_some, if_pos hsmall]
    · next hlarge =>
      have hlow := Nat.mod_lt n (show 0 < 32 by decide)
      have hdigit := digitValue?_base64 (show 32 + n % 32 < 64 by omega)
      have hmarked : ¬32 + n % 32 < 32 := by omega
      have hvalue : 32 + n % 32 - 32 + 32 * (n / 32) = n := by omega
      simp only [List.map_cons, List.cons_append, readDigits?, hdigit, Option.bind_some,
        if_neg hmarked, ih (n / 32) (by omega), Option.map_some, hvalue]

theorem unfoldSign_foldSign (value : Int) : unfoldSign (foldSign value) = value := by
  cases value with
  | ofNat n =>
    have heven : 2 * n % 2 = 0 := by omega
    have hhalf : 2 * n / 2 = n := by omega
    rw [foldSign, unfoldSign, if_pos heven, hhalf]
    rfl
  | negSucc n =>
    have hodd : ¬(2 * (n + 1) + 1) % 2 = 0 := by omega
    have hhalf : (2 * (n + 1) + 1) / 2 = n + 1 := by omega
    rw [foldSign, unfoldSign, if_neg hodd, hhalf]
    rfl

/-- **An integer is read back, whatever follows it.** -/
theorem readVlq?_encodeVlq (value : Int) (rest : Text) :
    readVlq? (encodeVlq value ++ rest) = some (value, rest) := by
  have hdigits := readDigits?_vlqDigits (foldSign value) rest
  simp only [readVlq?, encodeVlq, hdigits, Option.map_some, unfoldSign_foldSign]

/-- A number is made of Base64 digits. -/
theorem mem_alphabet_of_mem_encodeVlq {value : Int} {c : Char} (h : c ∈ encodeVlq value) :
    c ∈ alphabet := by
  obtain ⟨digit, hdigit, rfl⟩ := List.mem_map.mp h
  exact base64_mem_alphabet (lt_of_mem_vlqDigits hdigit)

theorem encodeVlq_ne_nil (value : Int) : encodeVlq value ≠ [] := by
  intro h
  have hdigits : vlqDigits (foldSign value) = [] := List.map_eq_nil_iff.mp h
  rw [vlqDigits] at hdigits
  split at hdigits
  · cases hdigits
  · cases hdigits

end ConditionalText.SourceMap
