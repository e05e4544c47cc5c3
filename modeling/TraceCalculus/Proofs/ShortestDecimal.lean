import Mathlib.Tactic.Linarith
import Mathlib.Tactic.Positivity
import Mathlib.Tactic.Ring
import TraceCalculus.Decimal.Binary64
import TraceCalculus.Decimal.Shortest

/-! # The shortest decimal reads back

The decimal that `shortest` finds for a double is read as that double (`nearestBits_shortest`).

A decimal of the interval is rounded to the double (`nearestBits_of_contains`): in units of the
smallest double the shift is that of the double, but for a decimal below a power of two, where the
doubles lie twice as dense and the mantissa is rounded up to one of 54 bits. And the search hits the
interval at the latest on the twentieth grid (`search_contains`), which is finer than half the gap to
the next double (`gridFits`).
-/

set_option autoImplicit false

namespace TraceCalculus.Decimal

/-- The parts of a positive double, `mantissa * 2 ^ (place - 1074)`: the mantissa has 53 bits, but for
the lowest place, where it may have fewer. -/
structure IsDouble (mantissa place : Nat) : Prop where
  pos : 0 < mantissa
  lt : mantissa < 2 ^ 53
  full : place ≠ 0 → 2 ^ 52 ≤ mantissa
  place_le : place ≤ 2045

/-- The bits of the double are those of the mantissa, with the place in the exponent field. -/
theorem IsDouble.bits_lt {m E : Nat} (h : IsDouble m E) :
    E * 2 ^ 52 + m < Binary64.infinityBits := by
  have hm := h.lt
  have hE := h.place_le
  unfold Binary64.infinityBits
  simp only [Nat.pow_eq]
  omega

/-! ## Rounding -/

theorem roundHalfEven_eq {m num den : Nat} (hden : 0 < den)
    (hlow : 2 * m * den ≤ 2 * num + den) (hhigh : 2 * num ≤ 2 * m * den + den)
    (hodd : m % 2 = 1 → 2 * m * den < 2 * num + den ∧ 2 * num < 2 * m * den + den) :
    roundHalfEven num den = m := by
  have hnum : den * (num / den) + num % den = num := Nat.div_add_mod num den
  have hmod : num % den < den := Nat.mod_lt _ hden
  unfold roundHalfEven
  simp only
  generalize num / den = q at hnum ⊢
  generalize num % den = r at hnum hmod ⊢
  -- the quotient is the integer itself or the one below it
  have hle : q ≤ m := by
    by_contra hgt
    have hfar : den * (m + 1) ≤ den * q := Nat.mul_le_mul_left den (by omega)
    linarith
  have hge : m ≤ q + 1 := by
    by_contra hlt
    have hfar : den * (q + 2) ≤ den * m := Nat.mul_le_mul_left den (by omega)
    linarith
  obtain rfl | rfl : m = q ∨ m = q + 1 := by omega
  · have hhalf : 2 * r ≤ den := by linarith
    have hodd' : m % 2 = 1 → 2 * r < den := fun h => by linarith [(hodd h).2]
    split
    · rfl
    · rw [if_neg (by omega)]
      omega
  · have hhalf : den ≤ 2 * r := by linarith
    have hodd' : (q + 1) % 2 = 1 → den < 2 * r := fun h => by linarith [(hodd h).1]
    rw [if_neg (by omega)]
    split
    · rfl
    · omega

/-- The shift cuts the quotient to 53 bits. -/
theorem shift_eq {s num den : Nat} (hden : 0 < den) (hlt : num < 2 ^ (53 + s) * den)
    (hle : s ≠ 0 → 2 ^ (52 + s) * den ≤ num) : Nat.log2 (num / den) - 52 = s := by
  have hlt' : num / den < 2 ^ (53 + s) := (Nat.div_lt_iff_lt_mul hden).2 hlt
  rcases Nat.eq_zero_or_pos s with rfl | hs
  · rcases Nat.eq_zero_or_pos (num / den) with h | h
    · rw [h]
      rfl
    · have := (Nat.log2_lt h.ne').2 hlt'
      omega
  · have hle' : 2 ^ (52 + s) ≤ num / den := (Nat.le_div_iff_mul_le hden).2 (hle hs.ne')
    have hne : num / den ≠ 0 := (Nat.lt_of_lt_of_le (Nat.two_pow_pos _) hle').ne'
    have hge := (Nat.le_log2 hne).2 hle'
    have := (Nat.log2_lt hne).2 hlt'
    omega

/-- The nearest double, with the quotient in units of the smallest one. -/
theorem nearestBits_of_scaled {num den scaled : Nat} (h : num * 2 ^ 1074 = scaled) :
    Binary64.nearestBits num den =
      min ((Nat.log2 (scaled / den) - 52) * 2 ^ 52 +
        roundHalfEven scaled (den * 2 ^ (Nat.log2 (scaled / den) - 52))) Binary64.infinityBits := by
  have hpow (n : Nat) : Nat.pow 2 n = 2 ^ n := rfl
  simp only [Binary64.nearestBits, hpow, h]

theorem two_pow_regroup {a b c d e : Nat} (h : a + b = c + (d + e)) :
    2 ^ a * 2 ^ b = 2 ^ c * (2 ^ d * 2 ^ e) := by
  rw [← Nat.pow_add, ← Nat.pow_add, ← Nat.pow_add, h]

/-! ## What lies in the interval -/

namespace Interval

/-- The interval of a double. -/
def ofDouble (m E : Nat) : Interval := ofParts m ((E : Int) - 1074)

section Double

variable {m E : Nat}

theorem scale_ofDouble : (ofDouble m E).scale = 2 ^ (E - 1076) := by
  have hexponent : ((E : Int) - 1074 - 2).toNat = E - 1076 := by omega
  rw [← hexponent]
  rfl

theorem unit_ofDouble : (ofDouble m E).unit = 2 ^ (1076 - E) := by
  have hexponent : (2 - ((E : Int) - 1074)).toNat = 1076 - E := by omega
  rw [← hexponent]
  rfl

/-- Bounds and decimals are compared in quarters of the smallest double. -/
theorem compare_ofDouble (a digits : Nat) (power : Int) :
    (a * (ofDouble m E).boundFactor power ≤ digits * (ofDouble m E).pointFactor power ↔
      a * (10 ^ (-power).toNat * 2 ^ E) ≤ 4 * (digits * 10 ^ power.toNat * 2 ^ 1074)) ∧
    (digits * (ofDouble m E).pointFactor power ≤ a * (ofDouble m E).boundFactor power ↔
      4 * (digits * 10 ^ power.toNat * 2 ^ 1074) ≤ a * (10 ^ (-power).toNat * 2 ^ E)) := by
  have hscale : 0 < 2 ^ (E - 1076) := Nat.two_pow_pos _
  have hunit : 2 ^ (1076 - E) * 2 ^ E = 2 ^ (E - 1076) * (2 ^ 1074 * 2 ^ 2) :=
    two_pow_regroup (by omega)
  generalize 2 ^ 1074 = smallest at hunit ⊢
  have hbound : a * (ofDouble m E).boundFactor power * 2 ^ E =
      2 ^ (E - 1076) * (a * (10 ^ (-power).toNat * 2 ^ E)) := by
    simp only [boundFactor, scale_ofDouble, Nat.pow_eq]
    ring
  have hpoint : digits * (ofDouble m E).pointFactor power * 2 ^ E =
      2 ^ (E - 1076) * (4 * (digits * 10 ^ power.toNat * smallest)) := by
    calc digits * (ofDouble m E).pointFactor power * 2 ^ E
        = digits * 10 ^ power.toNat * (2 ^ (1076 - E) * 2 ^ E) := by
          simp only [pointFactor, unit_ofDouble, Nat.pow_eq]
          ring
      _ = _ := by
          rw [hunit]
          ring
  have hE : 0 < 2 ^ E := Nat.two_pow_pos _
  constructor
  · rw [← Nat.mul_le_mul_right_iff hE, hbound, hpoint, Nat.mul_le_mul_left_iff hscale]
  · rw [← Nat.mul_le_mul_right_iff hE, hbound, hpoint, Nat.mul_le_mul_left_iff hscale]

/-- A decimal of the interval is no farther away than half the gap, and at an odd mantissa it is
nearer. -/
theorem bounds_of_contains {digits : Nat} {power : Int}
    (h : (ofDouble m E).contains digits power = true) :
    let num := digits * 10 ^ power.toNat * 2 ^ 1074
    let den := 10 ^ (-power).toNat * 2 ^ E
    (ofDouble m E).low * den ≤ 4 * num ∧ 4 * num ≤ (4 * m + 2) * den ∧
      (m % 2 = 1 → (ofDouble m E).low * den < 4 * num ∧ 4 * num < (4 * m + 2) * den) := by
  intro num den
  obtain ⟨hle, hge⟩ := compare_ofDouble (m := m) (E := E) (ofDouble m E).low digits power
  obtain ⟨hle', hge'⟩ := compare_ofDouble (m := m) (E := E) (4 * m + 2) digits power
  have hhigh : (ofDouble m E).high = 4 * m + 2 := rfl
  have hclosed : (ofDouble m E).closed = (m % 2 == 0) := rfl
  unfold contains at h
  rw [hhigh, hclosed] at h
  split at h
  case isTrue heven =>
    simp only [beq_iff_eq] at heven
    simp only [Bool.and_eq_true, decide_eq_true_eq] at h
    exact ⟨hle.1 h.1, hge'.1 h.2, fun hodd => by omega⟩
  case isFalse hodd =>
    simp only [Bool.and_eq_true, decide_eq_true_eq] at h
    have hlow : (ofDouble m E).low * den < 4 * num :=
      Nat.lt_of_not_le fun hnot => Nat.not_le_of_lt h.1 (hge.2 hnot)
    have hup : 4 * num < (4 * m + 2) * den :=
      Nat.lt_of_not_le fun hnot => Nat.not_le_of_lt h.2 (hle'.2 hnot)
    exact ⟨hlow.le, hup.le, fun _ => ⟨hlow, hup⟩⟩

theorem four_mul_le_low (m E : Nat) : 4 * m ≤ (ofDouble m E).low + 2 := by
  simp only [ofDouble, ofParts]
  split <;> omega

theorem low_of_power (hE : E ≠ 0) : (ofDouble (2 ^ 52) E).low + 1 = 4 * 2 ^ 52 := by
  have hexponent : (E : Int) - 1074 ≠ -1074 := by omega
  simp only [ofDouble, ofParts]
  rw [if_pos ⟨rfl, hexponent⟩]
  rfl

/-- Where the decimal has as many bits as the double, it is rounded at the same place. -/
theorem round_same {num den : Nat} (hlow : (ofDouble m E).low * den ≤ 4 * num)
    (hhigh : 4 * num ≤ (4 * m + 2) * den)
    (hodd : m % 2 = 1 → (ofDouble m E).low * den < 4 * num ∧ 4 * num < (4 * m + 2) * den)
    (hden : 0 < den) : roundHalfEven num den = m := by
  have hnear : 4 * m * den ≤ ((ofDouble m E).low + 2) * den :=
    Nat.mul_le_mul_right den (four_mul_le_low m E)
  refine roundHalfEven_eq hden (by linarith) (by linarith) fun h => ?_
  obtain ⟨hlow', hhigh'⟩ := hodd h
  constructor <;> linarith

/-- A decimal of the interval is rounded to the double. -/
theorem nearestBits_of_contains (hm : IsDouble m E) {digits : Nat} {power : Int}
    (h : (ofDouble m E).contains digits power = true) :
    Binary64.nearestBits (digits * 10 ^ power.toNat) (10 ^ (-power).toNat) = E * 2 ^ 52 + m := by
  have hbounds := bounds_of_contains h
  have hpos : 0 < 10 ^ (-power).toNat := Nat.pow_pos (by decide)
  generalize hnum : digits * 10 ^ power.toNat * 2 ^ 1074 = num at hbounds
  rw [nearestBits_of_scaled hnum]
  -- the arithmetic below would evaluate the power in it
  clear hnum
  generalize 10 ^ (-power).toNat = den at hpos hbounds ⊢
  obtain ⟨hlow, hhigh, hodd⟩ := hbounds
  have hden : 0 < den * 2 ^ E := Nat.mul_pos hpos (Nat.two_pow_pos E)
  suffices hbits : (Nat.log2 (num / den) - 52) * 2 ^ 52 +
      roundHalfEven num (den * 2 ^ (Nat.log2 (num / den) - 52)) = E * 2 ^ 52 + m by
    rw [hbits, Nat.min_eq_left hm.bits_lt.le]
  by_cases hfull : E ≠ 0 → 2 ^ (52 + E) * den ≤ num
  · have hlt : num < 2 ^ (53 + E) * den := by
      have hmax : 4 * (m + 1) * (den * 2 ^ E) ≤ 4 * 2 ^ 53 * (den * 2 ^ E) :=
        Nat.mul_le_mul_right _ (Nat.mul_le_mul_left 4 hm.lt)
      rw [Nat.pow_add]
      linarith
    rw [shift_eq hpos hlt hfull, round_same hlow hhigh hodd hden]
  -- below a power of two the mantissa is rounded up to one of 54 bits, at the place below
  · simp only [Classical.not_imp, Nat.not_le] at hfull
    obtain ⟨hE, hlt⟩ := hfull
    have hm52 : m = 2 ^ 52 := by
      refine Nat.le_antisymm (Nat.le_of_not_lt fun hgt => ?_) (hm.full hE)
      have hfar : 4 * (2 ^ 52 + 1) * (den * 2 ^ E) ≤ ((ofDouble m E).low + 2) * (den * 2 ^ E) :=
        Nat.mul_le_mul_right _ ((Nat.mul_le_mul_left 4 hgt).trans (four_mul_le_low m E))
      rw [Nat.pow_add] at hlt
      linarith
    subst hm52
    have hquarter := congrArg (· * (den * 2 ^ E)) (low_of_power hE)
    simp only [Nat.add_mul, -Nat.reducePow] at hquarter
    obtain ⟨s, rfl⟩ := Nat.exists_eq_add_one.2 (Nat.pos_of_ne_zero hE)
    rw [Nat.pow_succ 2 s] at hlow hquarter
    have hplace : 2 ^ (53 + s) = 2 ^ (52 + (s + 1)) := by
      congr 1
      omega
    have hs : 0 < den * 2 ^ s := Nat.mul_pos hpos (Nat.two_pow_pos s)
    have hge : 2 ^ (52 + s) * den ≤ num := by
      rw [Nat.pow_add]
      linarith
    have hround : roundHalfEven num (den * 2 ^ s) = 2 ^ 53 := by
      rw [← hplace, Nat.pow_add] at hlt
      exact roundHalfEven_eq hs (by linarith) (by linarith) (by simp)
    rw [shift_eq hpos (hplace ▸ hlt) fun _ => hge, hround]
    omega

end Double

/-! ## The grids -/

variable {i : Interval} {power : Int}

theorem contains_of_neighbour {digits : Nat} (h : i.neighbour? power = some digits) :
    i.contains digits power = true := by
  simp only [neighbour?] at h
  split at h
  case h_1 hfloor hnext =>
    cases h
    split <;> assumption
  case h_2 hfloor _ => cases h; exact hfloor
  case h_3 _ hnext => cases h; exact hnext
  case h_4 => cases h

/-- The search ends in the interval if one of the grids it may try has a neighbour there. -/
theorem search_contains {steps k : Nat} (hk : k < steps)
    (h : (i.neighbour? (power - k)).isSome = true) :
    i.contains (i.search steps power).1 (i.search steps power).2 = true := by
  induction steps generalizing power k with
  | zero => cases hk
  | succ steps ih =>
    simp only [search]
    cases hn : i.neighbour? power with
    | some digits => exact contains_of_neighbour hn
    | none =>
      cases k with
      | zero =>
        rw [Int.natCast_zero, Int.sub_zero, hn] at h
        cases h
      | succ k =>
        refine ih (Nat.lt_of_succ_lt_succ hk) ?_
        have hpower : power - 1 - (k : Int) = power - ((k + 1 : Nat) : Int) := by omega
        rwa [hpower]

/-- A grid finer than half a gap has a neighbour in the interval. -/
theorem neighbour_of_fits (hlow : i.low ≤ i.value) (hhigh : i.value + 2 ≤ i.high)
    (hpos : 0 < i.pointFactor power) (hfits : i.pointFactor power < 2 * i.boundFactor power) :
    (i.neighbour? power).isSome = true := by
  have hcontains : i.contains (i.floor power + 1) power = true := by
    have hfloor : i.floor power * i.pointFactor power ≤ i.value * i.boundFactor power :=
      Nat.div_mul_le_self _ _
    have hnext : i.value * i.boundFactor power < (i.floor power + 1) * i.pointFactor power :=
      (Nat.div_lt_iff_lt_mul hpos).1 (Nat.lt_succ_self _)
    have hbelow : i.low * i.boundFactor power ≤ i.value * i.boundFactor power :=
      Nat.mul_le_mul_right _ hlow
    have habove : (i.value + 2) * i.boundFactor power ≤ i.high * i.boundFactor power :=
      Nat.mul_le_mul_right _ hhigh
    have hlt : i.low * i.boundFactor power < (i.floor power + 1) * i.pointFactor power :=
      Nat.lt_of_le_of_lt hbelow hnext
    have hgt : (i.floor power + 1) * i.pointFactor power < i.high * i.boundFactor power := by
      linarith
    unfold contains
    split <;> simp [hlt, hgt, hlt.le, hgt.le]
  simp only [neighbour?, hcontains]
  split <;> simp_all

end Interval

/-- The twentieth grid of a double is finer than half the gap to the next double. -/
theorem gridFits : (List.range 2046).all (fun E =>
    let power := (E * 30103 + 64837) / 100000
    Nat.blt (Nat.pow 2 (1076 - E) * Nat.pow 10 (power - 326))
      (2 * (Nat.pow 2 (E - 1076) * Nat.pow 10 (326 - power)))) = true := by
  decide +kernel

/-- The mantissa has at most 53 bits, so no search starts above the grid of a full one. -/
theorem powerAbove_le {m E : Nat} (hm : IsDouble m E) :
    powerAbove m ((E : Int) - 1074) - 19 ≤ ((E * 30103 + 64837) / 100000 : Nat) - 326 := by
  have hlog : Nat.log2 m < 53 := (Nat.log2_lt hm.pos.ne').2 hm.lt
  unfold powerAbove
  rw [Int.fdiv_eq_ediv_of_nonneg _ (by decide)]
  omega

/-- The shortest decimal of a double is rounded to the double. -/
theorem nearestBits_shortest {m E : Nat} (hm : IsDouble m E) :
    Binary64.nearestBits
      ((shortest m ((E : Int) - 1074)).1 * 10 ^ (shortest m ((E : Int) - 1074)).2.toNat)
      (10 ^ (-(shortest m ((E : Int) - 1074)).2).toNat) = E * 2 ^ 52 + m := by
  have hsearch : shortest m ((E : Int) - 1074) =
      (Interval.ofDouble m E).search 20 (powerAbove m ((E : Int) - 1074)) :=
    if_neg hm.pos.ne'
  rw [hsearch]
  refine Interval.nearestBits_of_contains hm (Interval.search_contains (k := 19) (by decide) ?_)
  have hpower := powerAbove_le hm
  generalize powerAbove m ((E : Int) - 1074) - (19 : Nat) = power at hpower ⊢
  have hE : E ∈ List.range 2046 := List.mem_range.2 (Nat.lt_succ_of_le hm.place_le)
  have hfits := Nat.blt_eq.mp (List.all_eq_true.1 gridFits E hE)
  simp only [Nat.pow_eq] at hfits
  generalize (E * 30103 + 64837) / 100000 = top at hpower hfits
  have hpoint : 10 ^ power.toNat ≤ 10 ^ (top - 326) := Nat.pow_le_pow_right (by decide) (by omega)
  have hbound : 10 ^ (326 - top) ≤ 10 ^ (-power).toNat :=
    Nat.pow_le_pow_right (by decide) (by omega)
  refine Interval.neighbour_of_fits ?_ (Nat.le_refl _) ?_ ?_
  · simp only [Interval.ofDouble, Interval.ofParts]
    split <;> omega
  · simp only [Interval.pointFactor, Interval.unit_ofDouble, Nat.pow_eq]
    positivity
  · simp only [Interval.pointFactor, Interval.boundFactor, Interval.unit_ofDouble,
      Interval.scale_ofDouble, Nat.pow_eq]
    calc 2 ^ (1076 - E) * 10 ^ power.toNat
        ≤ 2 ^ (1076 - E) * 10 ^ (top - 326) := Nat.mul_le_mul_left _ hpoint
      _ < 2 * (2 ^ (E - 1076) * 10 ^ (326 - top)) := hfits
      _ ≤ 2 * (2 ^ (E - 1076) * 10 ^ (-power).toNat) :=
        Nat.mul_le_mul_left _ (Nat.mul_le_mul_left _ hbound)

end TraceCalculus.Decimal
