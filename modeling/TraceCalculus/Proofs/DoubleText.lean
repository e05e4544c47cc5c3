import Mathlib
import TraceCalculus.Proofs.NumberText
import TraceCalculus.Proofs.ShortestDecimal
import TraceCalculus.Scalar.Basic

/-! # Doubles as they are written and read

A finite double is written as a numeral, perhaps with a sign (`text_of_isFinite`), and a numeral that
stands for a finite double is read from its text again (`toFloat_ofChars_text`).
-/

set_option autoImplicit false

namespace TraceCalculus.Decimal

open Float.Model (UnpackedFloat Format)

/-! ## The fields of a double -/

theorem toNat_unpackExponent (b : BitVec 64) :
    (@UnpackedFloat.unpackExponent Format.binary64 b).toNat =
      b.toNat / 2 ^ 52 % 2 ^ 11 := by
  simp only [UnpackedFloat.unpackExponent, BitVec.toNat_cast, BitVec.extractLsb,
    BitVec.extractLsb'_toNat]
  rw [Nat.shiftRight_eq_div_pow]

theorem toNat_unpackMantissa (b : BitVec 64) :
    (@UnpackedFloat.unpackMantissa Format.binary64 b).toNat = b.toNat % 2 ^ 52 := by
  simp only [UnpackedFloat.unpackMantissa, BitVec.toNat_cast, BitVec.extractLsb,
    BitVec.extractLsb'_toNat]
  rw [Nat.shiftRight_zero]

theorem field_of_isFinite {x : Float} (h : x.isFinite = true) :
    x.toBits.toNat / 2 ^ 52 % 2 ^ 11 ≠ 2 ^ 11 - 1 := by
  intro hfield
  have hexponent :
      @UnpackedFloat.unpackExponent Format.binary64 x.toModel.toBits.toBitVec = -1#11 := by
    apply BitVec.eq_of_toNat_eq
    rw [toNat_unpackExponent]
    exact hfield
  unfold Float.isFinite Float.Model.isFinite Float.Model.unpack UnpackedFloat.unpack at h
  simp only at h
  rw [if_pos hexponent] at h
  split at h <;> cases h

/-- The bits up to those of infinity are the bits of a double. -/
theorem toBits_ofBits {b : UInt64} (h : b.toNat ≤ Binary64.infinityBits) :
    (Float.ofBits b).toBits = b := by
  have hnumber : @UnpackedFloat.isNaNBits Format.binary64 b.toBitVec = false := by
    rw [UnpackedFloat.isNaNBits, decide_eq_false_iff_not]
    rintro ⟨hexponent, hmantissa⟩
    have hfield := congrArg BitVec.toNat hexponent
    have hfraction : b.toNat % 2 ^ 52 ≠ 0 := fun hzero =>
      hmantissa (BitVec.eq_of_toNat_eq ((toNat_unpackMantissa b.toBitVec).trans hzero))
    rw [toNat_unpackExponent] at hfield
    change b.toNat / 2 ^ 52 % 2 ^ 11 = 2047 at hfield
    change b.toNat ≤ 2047 * 2 ^ 52 at h
    omega
  apply UInt64.toBitVec_inj.1
  refine (@UnpackedFloat.pack_unpack Format.binary64 b.toBitVec (by decide)).trans ?_
  rw [hnumber]
  rfl

/-- What the bits of a double stand for. -/
theorem ofBits_of_field {b : UInt64} (h : b.toNat / 2 ^ 52 % 2 ^ 11 ≠ 2 ^ 11 - 1) :
    ∃ negative m e, Binary64.ofBits b = .finite negative m e := by
  unfold Binary64.ofBits
  simp only [Nat.pow_eq]
  rw [if_neg h]
  split
  · exact ⟨_, _, _, rfl⟩
  · exact ⟨_, _, _, rfl⟩

/-- The parts of a positive double from its bits. -/
theorem ofBits_eq_finite {b : UInt64} (hpos : 0 < b.toNat) (h : b.toNat < Binary64.infinityBits) :
    ∃ m E, IsDouble m E ∧ E * 2 ^ 52 + m = b.toNat ∧
      Binary64.ofBits b = .finite false m ((E : Int) - 1074) := by
  change b.toNat < 2047 * 2 ^ 52 at h
  have hsign : (b.toNat / 2 ^ 63 == 1) = false := by
    rw [beq_eq_false_iff_ne]
    omega
  have hfield : ¬ b.toNat / 2 ^ 52 % 2 ^ 11 = 2 ^ 11 - 1 := by omega
  unfold Binary64.ofBits
  simp only [Nat.pow_eq]
  rw [hsign, if_neg hfield]
  split
  case isTrue hzero =>
    exact ⟨b.toNat % 2 ^ 52, 0, ⟨by omega, by omega, by omega, by omega⟩, by omega, rfl⟩
  case isFalse hnormal =>
    refine ⟨2 ^ 52 + b.toNat % 2 ^ 52, b.toNat / 2 ^ 52 % 2 ^ 11 - 1,
      ⟨by omega, by omega, by omega, by omega⟩, by omega, ?_⟩
    congr 1
    omega

/-! ## Text and numbers -/

/-- A finite double is written as a numeral, perhaps with a sign. -/
theorem text_of_isFinite {x : Float} (h : x.isFinite = true) :
    ∃ ds, IsNumeral ds ∧
      ((Scalar.text x).toList = ds ∨ (Scalar.text x).toList = '-' :: ds) := by
  obtain ⟨negative, m, e, hx⟩ := ofBits_of_field (field_of_isFinite h)
  refine ⟨_, isNumeral_positional (shortest m e).1 (shortest m e).2, ?_⟩
  change (Binary64.ofBits x.toBits).plain.toList = _ ∨ (Binary64.ofBits x.toBits).plain.toList = _
  rw [hx]
  cases negative
  · exact .inl rfl
  · exact .inr (by simp [Binary64.plain, signed])

/-- The text of a double that is not negative is a numeral from which its bits are read. -/
theorem plain_ofBits {b : UInt64} (h : b.toNat < Binary64.infinityBits) :
    ∃ n, IsNumeral (Binary64.ofBits b).plain.toList ∧
      Numeral.ofChars (Binary64.ofBits b).plain.toList = n ∧
        Binary64.nearestBits n.digits (Nat.pow 10 n.places) = b.toNat := by
  rcases Nat.eq_zero_or_pos b.toNat with hzero | hpos
  · have hb : b = 0 := UInt64.toNat_inj.1 hzero
    subst hb
    refine ⟨⟨0, 0⟩, ?_, by decide +kernel, by decide +kernel⟩
    exact isNumeral_positional 0 0
  · obtain ⟨m, E, hm, hbits, hparts⟩ := ofBits_eq_finite hpos h
    rw [hparts]
    refine ⟨_, isNumeral_positional _ _, ofChars_positional _ _, ?_⟩
    exact (nearestBits_shortest hm).trans hbits

theorem toNat_toUInt64_le (n : Nat) : n.toUInt64.toNat ≤ n := by
  rw [Nat.toUInt64_eq, UInt64.toNat_ofNat']
  exact Nat.mod_le _ _

/-- The bits that round to a finite double are read from the text of the double again. -/
theorem ofBits_ofChars_text {b : UInt64} (hle : b.toNat ≤ Binary64.infinityBits)
    (h : (Float.ofBits b).isFinite = true) :
    IsNumeral (Scalar.text (Float.ofBits b)).toList ∧
      (Numeral.ofChars (Scalar.text (Float.ofBits b)).toList).toFloat = Float.ofBits b := by
  have hfield := field_of_isFinite h
  rw [toBits_ofBits hle] at hfield
  have hlt : b.toNat < Binary64.infinityBits := by
    change b.toNat ≤ 2047 * 2 ^ 52 at hle
    change b.toNat < 2047 * 2 ^ 52
    omega
  have htext : Scalar.text (Float.ofBits b) = (Binary64.ofBits b).plain :=
    congrArg (fun bits => (Binary64.ofBits bits).plain) (toBits_ofBits hle)
  obtain ⟨n, hnumeral, hread, hbits⟩ := plain_ofBits hlt
  rw [htext, hread, Numeral.toFloat, hbits, Nat.toUInt64_eq, UInt64.ofNat_toNat]
  exact ⟨hnumeral, rfl⟩

/-- A numeral that stands for a finite double is read from the text of the double again. -/
theorem toFloat_ofChars_text {n : Numeral} (h : n.toFloat.isFinite = true) :
    IsNumeral (Scalar.text n.toFloat).toList ∧
      (Numeral.ofChars (Scalar.text n.toFloat).toList).toFloat = n.toFloat :=
  ofBits_ofChars_text ((toNat_toUInt64_le _).trans (Nat.min_le_right _ _)) h

end TraceCalculus.Decimal
