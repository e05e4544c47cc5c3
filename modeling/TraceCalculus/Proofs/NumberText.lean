import Mathlib
import TraceCalculus.Decimal.Text

/-! # Numbers as they are written

`positional` writes a numeral (`isNumeral_positional`), and what is read from it are the digits and
the power of ten it was given (`ofChars_positional`).
-/

set_option autoImplicit false

namespace TraceCalculus.Decimal

/-- The characters of a numeral: digits, and perhaps a point and more digits. -/
inductive IsNumeral : List Char → Prop where
  | whole {ds : List Char} : ds ≠ [] → (∀ c ∈ ds, c.isDigit = true) → IsNumeral ds
  | point {ds fs : List Char} : ds ≠ [] → (∀ c ∈ ds, c.isDigit = true) → fs ≠ [] →
    (∀ c ∈ fs, c.isDigit = true) → IsNumeral (ds ++ '.' :: fs)

theorem IsNumeral.ne_nil {cs : List Char} (h : IsNumeral cs) : cs ≠ [] := by
  cases h <;> simp_all

theorem IsNumeral.isDigit_head {c : Char} {cs : List Char} (h : IsNumeral (c :: cs)) :
    c.isDigit = true := by
  generalize hl : c :: cs = l at h
  cases h with
  | whole _ hds => exact hds c (hl ▸ .head _)
  | point hne hds _ _ =>
    obtain ⟨d, ds, rfl⟩ := List.exists_cons_of_ne_nil hne
    rw [List.cons_append, List.cons.injEq] at hl
    rw [hl.1]
    exact hds d (.head _)

theorem ne_point_of_digits {ds : List Char} (h : ∀ c ∈ ds, c.isDigit = true) :
    ∀ c ∈ ds, decide (c ≠ '.') = true := by
  intro c hc
  have hdigit := h c hc
  rw [decide_eq_true_eq]
  rintro rfl
  cases hdigit

namespace Numeral

variable {ds fs : List Char}

theorem ofChars_whole (hds : ∀ c ∈ ds, c.isDigit = true) : ofChars ds = ⟨digitsValue ds, 0⟩ := by
  have htake : ds.takeWhile (· ≠ '.') = ds :=
    List.takeWhile_eq_self_iff.2 (ne_point_of_digits hds)
  have hdrop : ds.dropWhile (· ≠ '.') = [] :=
    List.dropWhile_eq_nil_iff.2 (ne_point_of_digits hds)
  unfold ofChars
  rw [htake, hdrop]
  simp

theorem ofChars_point (hds : ∀ c ∈ ds, c.isDigit = true) :
    ofChars (ds ++ '.' :: fs) = ⟨digitsValue (ds ++ fs), fs.length⟩ := by
  unfold ofChars
  rw [List.takeWhile_append_of_pos (ne_point_of_digits hds),
    List.dropWhile_append_of_pos (ne_point_of_digits hds)]
  simp

theorem digitsValue_toDigits (n : Nat) : digitsValue (Nat.toDigits 10 n) = n :=
  Nat.ofDigitChars_ten_toDigits

theorem digitsValue_append_zeros (k : Nat) :
    digitsValue (ds ++ List.replicate k '0') = digitsValue ds * 10 ^ k := by
  have happend := Nat.ofDigitChars_append (b := 10) (l := ds) (m := List.replicate k '0') 0
  rw [Nat.ofDigitChars_replicate_zero, Nat.mul_comm] at happend
  exact happend

theorem digitsValue_zeros_append (k : Nat) :
    digitsValue (List.replicate k '0' ++ ds) = digitsValue ds := by
  have happend := Nat.ofDigitChars_append (b := 10) (l := List.replicate k '0') (m := ds) 0
  rw [Nat.ofDigitChars_replicate_zero, Nat.mul_zero] at happend
  exact happend

end Numeral

theorem isDigit_of_mem_zeros {k : Nat} : ∀ c ∈ List.replicate k '0', c.isDigit = true := by
  intro c hc
  rw [List.eq_of_mem_replicate hc]
  rfl

theorem isDigit_of_mem_digits {n : Nat} : ∀ c ∈ Nat.toDigits 10 n, c.isDigit = true :=
  fun _ hc => Nat.isDigit_of_mem_toDigits (by decide) (by decide) hc

theorem isDigit_of_mem_padded {ds fs : List Char} {k n : Nat}
    (h : ds ++ fs = List.replicate k '0' ++ Nat.toDigits 10 n) :
    (∀ c ∈ ds, c.isDigit = true) ∧ ∀ c ∈ fs, c.isDigit = true := by
  rw [← List.forall_mem_append, h]
  exact List.forall_mem_append.2 ⟨isDigit_of_mem_zeros, isDigit_of_mem_digits⟩

/-- The digits and the point of a number with places, leading zeros included. -/
theorem positional_places (digits : Nat) {power : Int} (h : ¬ 0 ≤ power) :
    ∃ ds fs, (positional digits power).toList = ds ++ '.' :: fs ∧ ds ≠ [] ∧
      fs.length = (-power).toNat ∧ ds ++ fs =
        List.replicate ((-power).toNat + 1 - (Nat.toDigits 10 digits).length) '0' ++
          Nat.toDigits 10 digits := by
  unfold positional
  simp only [if_neg h, String.toList_ofList]
  have hlength : (-power).toNat + 1 ≤ (List.replicate ((-power).toNat + 1 -
      (Nat.toDigits 10 digits).length) '0' ++ Nat.toDigits 10 digits).length := by
    simp only [List.length_append, List.length_replicate]
    omega
  generalize (-power).toNat = places at hlength ⊢
  generalize List.replicate (places + 1 - (Nat.toDigits 10 digits).length) '0' ++
    Nat.toDigits 10 digits = padded at hlength ⊢
  refine ⟨_, _, rfl, ?_, ?_, List.take_append_drop _ _⟩
  · rw [ne_eq, List.take_eq_nil_iff]
    rintro (h | h)
    · omega
    · rw [h] at hlength
      simp at hlength
  · rw [List.length_drop]
    omega

theorem positional_whole (digits : Nat) {power : Int} (h : 0 ≤ power) :
    ∃ k, (positional digits power).toList = Nat.toDigits 10 digits ++ List.replicate k '0' ∧
      digits * 10 ^ k = digits * 10 ^ power.toNat := by
  unfold positional
  simp only [if_pos h, String.toList_ofList]
  split
  case isTrue hzero => exact ⟨0, by simp, by simp [hzero]⟩
  case isFalse => exact ⟨_, rfl, rfl⟩

/-- A number is written as a numeral. -/
theorem isNumeral_positional (digits : Nat) (power : Int) :
    IsNumeral (positional digits power).toList := by
  by_cases h : 0 ≤ power
  · obtain ⟨k, hchars, -⟩ := positional_whole digits h
    rw [hchars]
    exact .whole (by simp) (List.forall_mem_append.2 ⟨isDigit_of_mem_digits, isDigit_of_mem_zeros⟩)
  · obtain ⟨ds, fs, hchars, hne, hplaces, hpadded⟩ := positional_places digits h
    obtain ⟨hds, hfs⟩ := isDigit_of_mem_padded hpadded
    have hne' : fs ≠ [] := by
      rintro rfl
      simp only [List.length_nil] at hplaces
      omega
    rw [hchars]
    exact .point hne hds hne' hfs

/-- What is read are the digits and the power of ten that were written. -/
theorem ofChars_positional (digits : Nat) (power : Int) :
    Numeral.ofChars (positional digits power).toList =
      ⟨digits * 10 ^ power.toNat, (-power).toNat⟩ := by
  by_cases h : 0 ≤ power
  · obtain ⟨k, hchars, hvalue⟩ := positional_whole digits h
    have hplaces : (-power).toNat = 0 := by omega
    rw [hchars, Numeral.ofChars_whole
        (List.forall_mem_append.2 ⟨isDigit_of_mem_digits, isDigit_of_mem_zeros⟩),
      Numeral.digitsValue_append_zeros, Numeral.digitsValue_toDigits, hvalue, hplaces]
  · obtain ⟨ds, fs, hchars, -, hplaces, hpadded⟩ := positional_places digits h
    have hpower : power.toNat = 0 := by omega
    rw [hchars, Numeral.ofChars_point (isDigit_of_mem_padded hpadded).1, hpadded,
      Numeral.digitsValue_zeros_append, Numeral.digitsValue_toDigits, hplaces, hpower,
      Nat.pow_zero, Nat.mul_one]

end TraceCalculus.Decimal
