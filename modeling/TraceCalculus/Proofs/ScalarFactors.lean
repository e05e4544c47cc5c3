import Mathlib
import TraceCalculus.Proofs.Simplified

/-! # Scalar factors

A product has one outcome (`Expr.Product.unique`): every depth that is large enough computes it.
Over exact scalars it does not matter in which order scalar factors come to stand before an
expression (`Expr.times_times_of_isScalar`): they end up in one factor, with the literals folded at
its front. And a term added to itself is twice the term (`Expr.plus_self`).
-/

set_option autoImplicit false

namespace TraceCalculus.Expr

section Unique

variable {S : Type} {a b c c' : Expr S}

theorem isNull_literal (x : S) : (literal x).isNull = false := rfl

theorem value?_literal (x : S) : (literal x).value? = some x := rfl

theorem scaled?_scale (s r : Expr S) : (scale s r).scaled? = some (s, r) := rfl

variable [Scalar S]

theorem eventually_productWithin
    (h : ∀ᶠ depth in Filter.atTop, productStep (productWithin depth) a b = c) :
    ∀ᶠ depth in Filter.atTop, productWithin depth a b = c := by
  rw [← Filter.map_add_atTop_eq_nat 1]
  exact h

/-- Every depth that is large enough computes the product. -/
theorem Product.eventually (h : Product a b c) :
    ∀ᶠ depth in Filter.atTop, productWithin depth a b = c := by
  induction h with
  | nullLeft | nullRight | fold =>
    exact eventually_productWithin (.of_forall fun _ => by simp [productStep, isNull, value?])
  | oneLeft hx hb hv =>
    exact eventually_productWithin (.of_forall fun _ => by
      simp [productStep, isNull_literal, value?_literal, hx, hb, hv])
  | oneRight ha hv hy =>
    exact eventually_productWithin (.of_forall fun _ => by
      simp [productStep, isNull_literal, value?_literal, ha, hv, hy])
  | swap ha hv hy _ ih =>
    refine eventually_productWithin ?_
    filter_upwards [ih] with depth hc
    simp [productStep, isNull_literal, value?_literal, ha, hv, hy, hc]
  | mergeLeft hp ha _ _ iht ihc =>
    refine eventually_productWithin ?_
    filter_upwards [iht, ihc] with depth ht hc
    simp [productStep_of_proper _ hp, combine, scaled?_scale, ha, ht, hc]
  | scaleLeft hp ha hb =>
    exact eventually_productWithin (.of_forall fun _ => by
      simp [productStep_of_proper _ hp, combine, ha, hb])
  | mergeRight hp ha hb _ _ iht ihc =>
    refine eventually_productWithin ?_
    filter_upwards [iht, ihc] with depth ht hc
    simp [productStep_of_proper _ hp, combine, scaled?_scale, ha, hb, ht, hc]
  | scaleRight hp ha hb hs =>
    exact eventually_productWithin (.of_forall fun _ => by
      simp [productStep_of_proper _ hp, combine, ha, hb, hs])
  | mergeBoth hp ha hb _ _ _ iht ihm ihc =>
    refine eventually_productWithin ?_
    filter_upwards [iht, ihm, ihc] with depth ht hm hc
    simp [productStep_of_proper _ hp, combine, scaled?_scale, ha, hb, ht, hm, hc]
  | hoistLeft hp ha hb hs _ _ ihm ihc | hoistRight hp ha hb hs _ _ ihm ihc =>
    refine eventually_productWithin ?_
    filter_upwards [ihm, ihc] with depth hm hc
    simp [productStep_of_proper _ hp, combine, scaled?_scale, ha, hb, hs, hm, hc]
  | matMul hp ha hb hl hr =>
    exact eventually_productWithin (.of_forall fun _ => by
      simp [productStep_of_proper _ hp, combine, ha, hb, hl, hr])

/-- A product has one outcome. -/
theorem Product.unique (h : Product a b c) (h' : Product a b c') : c = c' := by
  obtain ⟨depth, hc, hc'⟩ := (h.eventually.and h'.eventually).exists
  exact hc.symm.trans hc'

theorem Product.eq (h : Product a b c) : a * b = c := (product_times a b).unique h

end Unique

variable {S : Type} [ExactScalar S] {e k s u v z : Expr S}

theorem literal_times_literal (x y : S) : (literal x * literal y : Expr S) = literal (x * y) :=
  (Product.fold x y).eq

theorem one_times (e : Expr S) : literal 1 * e = e := by
  have hone : ((1 : S) == 1) = true := (ExactScalar.beq_iff 1 1).2 rfl
  cases e with
  | null => exact times_null _
  | literal x => rw [literal_times_literal, one_mul]
  | _ => exact (Product.oneLeft hone rfl rfl).eq

theorem two_eq : (Scalar.two : S) = 1 + 1 := rfl

/-- A term added to itself is twice the term. -/
theorem plus_self (e : Expr S) : e + e = literal Scalar.two * e := by
  have hself : (e == e) = true := (beq_iff e e).2 rfl
  rw [plus_eq_ite]
  cases e with
  | null => exact (times_null _).symm
  | literal x => rw [literal_times_literal, two_eq, add_mul, one_mul]; rfl
  | _ => exact if_pos hself

/-- A literal on the right of a scalar moves to the left. -/
theorem times_literal (hs : s.isScalar = true) (y : S) : s * literal y = literal y * s := by
  cases hv : s.value? with
  | some x =>
    obtain rfl := value?_eq_some.1 hv
    rw [literal_times_literal, literal_times_literal, mul_comm]
  | none =>
    have hn := isNull_eq_false_of_isScalar hs
    by_cases hy : (y == 1) = true
    · rw [(ExactScalar.beq_iff y 1).1 hy, one_times]
      exact (Product.oneRight hn hv ((ExactScalar.beq_iff _ _).2 rfl)).eq
    · exact (Product.swap hn hv (by simpa using hy) (product_times _ _)).eq

/-- Any scalar but one is proper before an expression that is no literal. -/
theorem proper_of_isScalar (hs : s.isScalar = true) (hone : s ≠ literal 1) (hz : z.isNull = false)
    (hv : z.value? = none) : Proper s z := by
  refine ⟨isNull_eq_false_of_isScalar hs, hz, hv, fun x hx => ?_⟩
  obtain rfl := value?_eq_some.1 hx
  rw [← Bool.not_eq_true, ExactScalar.beq_iff]
  rintro rfl
  exact hone rfl

/-- A factor merges with that of a scaled expression. -/
theorem times_scale (hs : s.isScalar = true) (h : (scale u z).Neat) :
    s * scale u z = s * u * z := by
  by_cases hone : s = literal 1
  · rw [hone, one_times, one_times]
    exact h.tidied.symm
  · exact (Product.mergeLeft (proper_of_isScalar hs hone rfl rfl) hs (product_times s u)
      (product_times _ z)).eq

/-- An expression that is neither scaled nor a literal. -/
structure Unscaled (v : Expr S) : Prop where
  neat : v.Neat
  present : v.isNull = false
  literal : v.value? = none
  unscaled : v.scaled? = none

theorem Unscaled.scaling (h : Unscaled v) (hs : s.isScalar = true) (hone : s ≠ .literal 1) :
    s.Scaling v :=
  ⟨proper_of_isScalar hs hone h.present h.literal, hs, h.unscaled⟩

theorem Unscaled.times_times (h : Unscaled v) (hs : s.isScalar = true) (hu : u.isScalar = true)
    (hnu : u.Neat) : s * (u * v) = s * u * v := by
  by_cases hone : u = .literal 1
  · rw [hone, one_times, times_literal hs, one_times]
  · have hscaling := h.scaling hu hone
    rw [times_of_scaling hscaling, asOperand_exact, times_scale hs ⟨hnu, h.neat, hscaling⟩]

/-- The induction over a neat expression that only takes its factors apart. -/
theorem neat_induction {P : (z : Expr S) → z.Neat → Prop} (null : P null trivial)
    (literal : ∀ x, P (literal x) trivial) (unscaled : ∀ v (h : Unscaled v), P v h.neat)
    (scale : ∀ u v (h : (scale u v).Neat), Unscaled v → P u h.1 → P (scale u v) h) (z : Expr S)
    (hz : z.Neat) : P z hz := by
  induction z with
  | null => exact null
  | literal x => exact literal x
  | scale u v ihu =>
    have hscaling := hz.2.2
    exact scale u v hz ⟨hz.2.1, hscaling.right, hscaling.literal, hscaling.unscaled⟩ (ihu hz.1)
  | _ => exact unscaled _ ⟨hz, rfl, rfl, rfl⟩

theorem literal_times_literal_times (x y : S) (hz : z.Neat) :
    literal x * (literal y * z) = literal (x * y) * z := by
  induction z, hz using neat_induction with
  | null => rw [times_null, times_null, times_null]
  | literal w => simp only [literal_times_literal, mul_assoc]
  | unscaled v hv => rw [hv.times_times (u := .literal y) rfl rfl trivial, literal_times_literal]
  | scale u v h hv ih =>
    have hk : (literal y * u).isScalar = true := isScalar_times rfl h.2.2.scalar
    rw [times_scale rfl h, times_scale rfl h, hv.times_times rfl hk (Neat.times trivial h.1), ih]

/-- A literal passes by a scalar. -/
theorem times_literal_times (hs : s.isScalar = true) (hns : s.Neat) (x : S)
    (hu : u.isScalar = true) (hnu : u.Neat) : s * (literal x * u) = literal x * (s * u) := by
  induction u, hnu using neat_induction with
  | null => cases hu
  | literal y =>
    rw [literal_times_literal, times_literal hs, times_literal hs,
      literal_times_literal_times x y hns]
  | unscaled v hv =>
    rw [hv.times_times (u := .literal x) hs rfl trivial, hv.times_times rfl hs hns,
      times_literal hs]
  | scale w v h hv ih =>
    have hw : w.isScalar = true := h.2.2.scalar
    have hxw : (.literal x * w : Expr S).isScalar = true := isScalar_times rfl hw
    have hnxw : (.literal x * w : Expr S).Neat := Neat.times trivial h.1
    rw [times_scale rfl h, times_scale hs h, hv.times_times hs hxw hnxw,
      hv.times_times rfl (isScalar_times hs hw) (hns.times h.1), ih hw]

/-- Scalar factors come together. -/
theorem times_times_of_isScalar (hs : s.isScalar = true) (hns : s.Neat) (hu : u.isScalar = true)
    (hnu : u.Neat) (hz : z.Neat) : s * u * z = s * (u * z) := by
  induction z, hz using neat_induction with
  | null => rw [times_null, times_null, times_null]
  | literal x =>
    rw [times_literal (isScalar_times hs hu), times_literal hu, times_literal_times hs hns x hu hnu]
  | unscaled v hv => exact (hv.times_times hs hu hnu).symm
  | scale w v h hv ih =>
    rw [times_scale (isScalar_times hs hu) h, times_scale hu h,
      hv.times_times hs (isScalar_times hu h.2.2.scalar) (hnu.times h.1), ih]

end TraceCalculus.Expr
