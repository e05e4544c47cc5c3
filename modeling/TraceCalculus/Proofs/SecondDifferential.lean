import TraceCalculus.Proofs.Instances
import TraceCalculus.Proofs.Perturbation
import TraceCalculus.Proofs.Relabelling

/-! # The second differential

Over the dual numbers of the dual numbers a variable can move in two directions at once. With the
same direction `H` for both, the value of an expression has in its last part what the second
differential stands for, with `d(X)` for `H` (`Expr.secondDifferential_eval`).

The second differential is the differential of the first one, which is held: `d(X)` has become a
variable. So the argument is that of the first differential, made twice:

* a differential can be differentiated again once it is held: what stands in it for `d(X)` and for
  factors is as it should be (`Expr.isSlope_differentiate`);
* held or not, an expression has the same value (`Expr.Means.hold`);
* the differential is the same over the dual numbers (`Expr.overDual_differentiate`), so that the
  first differential moves as the direction of the expression over the dual numbers does.
-/

set_option autoImplicit false

namespace TraceCalculus

open TrivSqZeroExt

variable {S : Type}

namespace Expr

/-! ## The form of a differential -/

/-- As `Differentiable`, with the differential of the variable `wrt` besides. -/
def Slotted (wrt : String) : Expr S → Prop
  | .var _ | .literal _ | .null => True
  | .scalarVar _ => False
  | .differential a => a = .var wrt
  | .scale s b => s.IsFactor wrt ∧ b.Slotted wrt
  | .add a b | .sub a b | .matMul a b => a.Slotted wrt ∧ b.Slotted wrt
  | .trace a | .transpose a => a.Slotted wrt

/-- A factor, or an expression that is no scalar and is `Slotted`. -/
def IsOperand (wrt : String) (e : Expr S) : Prop :=
  e.IsFactor wrt ∨ e.isScalar = false ∧ e.Slotted wrt

/-- Nothing, or an expression in which `d(X)` occurs and which is `Slotted`. -/
def IsSlope (wrt : String) (e : Expr S) : Prop :=
  e = .null ∨ e.hasDifferential = true ∧ e.Slotted wrt

variable {wrt : String} {a b c e s : Expr S}

theorem IsFactor.isScalar (h : s.IsFactor wrt) : s.isScalar = true := by
  induction s with
  | literal | scalarVar => rfl
  | scale a b iha ihb => rw [Expr.isScalar, iha h.1, ihb h.2, Bool.and_self]
  | _ => cases h

theorem Differentiable.slotted (h : e.Differentiable wrt) : e.Slotted wrt := by
  induction e with
  | var | literal | null => trivial
  | scalarVar | differential => cases h
  | scale s b _ ihb => exact ⟨h.1, ihb h.2⟩
  | add a b iha ihb | sub a b iha ihb | matMul a b iha ihb => exact ⟨iha h.1, ihb h.2⟩
  | trace a ih | transpose a ih => exact ih h

theorem IsOperand.scale (hs : s.IsFactor wrt) (hb : b.IsOperand wrt) :
    (scale s b).IsOperand wrt := by
  rcases hb with hb | ⟨hk, hb⟩
  · exact .inl ⟨hs, hb⟩
  · exact .inr ⟨by rw [Expr.isScalar, hk, Bool.and_false], hs, hb⟩

theorem Slotted.isOperand (h : e.Slotted wrt) : e.IsOperand wrt := by
  induction e with
  | literal => exact .inl trivial
  | scalarVar => cases h
  | scale s b _ ihb => exact .scale h.1 (ihb h.2)
  | _ => exact .inr ⟨rfl, h⟩

theorem IsOperand.isFactor (h : e.IsOperand wrt) (hk : e.isScalar = true) : e.IsFactor wrt := by
  rcases h with h | ⟨hn, -⟩
  · exact h
  · rw [hk] at hn
    cases hn

theorem IsOperand.slotted (h : e.IsOperand wrt) (hk : e.isScalar = false) : e.Slotted wrt := by
  rcases h with h | ⟨-, h⟩
  · rw [h.isScalar] at hk
    cases hk
  · exact h

/-- A scaled operand has a factor and an operand. -/
theorem IsOperand.of_scale (h : (Expr.scale s b).IsOperand wrt) :
    s.IsFactor wrt ∧ b.IsOperand wrt := by
  rcases h with h | ⟨-, h⟩
  · exact ⟨h.1, .inl h.2⟩
  · exact ⟨h.1, h.2.isOperand⟩

theorem IsSlope.slotted (h : e.IsSlope wrt) : e.Slotted wrt := by
  rcases h with rfl | ⟨-, h⟩
  · trivial
  · exact h

theorem IsSlope.not_isScalar (h : e.IsSlope wrt) : e.isScalar = false := by
  rcases h with rfl | ⟨h, -⟩
  · rfl
  · by_contra hk
    rw [Bool.not_eq_false] at hk
    simp [hasDifferential_of_isScalar hk] at h

/-- An operand with a differential is no factor. -/
theorem IsOperand.isSlope (h : e.IsOperand wrt) (hd : e = .null ∨ e.hasDifferential = true) :
    e.IsSlope wrt := by
  rcases hd with rfl | hd
  · exact .inl rfl
  · refine .inr ⟨hd, h.slotted ?_⟩
    by_contra hk
    rw [Bool.not_eq_false] at hk
    simp [hasDifferential_of_isScalar hk] at hd

theorem Transposition.isSlope (h : Transposition a c) (ha : a.IsSlope wrt) : c.IsSlope wrt := by
  cases h with
  | null | trace | scalar => exact ha
  | turnBack => exact .inr (ha.resolve_left nofun)
  | transpose => exact .inr (ha.resolve_left (by rintro rfl; contradiction))

theorem Tracing.isSlope (h : Tracing a c) (ha : a.IsSlope wrt) : c.IsSlope wrt := by
  cases h with
  | null | scalar => exact ha
  | trace ht => exact .inr (ha.resolve_left (by rintro rfl; contradiction))

variable [ExactScalar S]

theorem Product.isOperand (h : Product a b c) (ha : a.IsOperand wrt) (hb : b.IsOperand wrt) :
    c.IsOperand wrt := by
  induction h with
  | nullLeft | nullRight => exact .inr ⟨rfl, trivial⟩
  | fold => exact .inl trivial
  | oneLeft => exact hb
  | oneRight => exact ha
  | swap _ _ _ _ ih => exact ih hb ha
  | mergeLeft _ _ _ _ iht ihc =>
    obtain ⟨hs, hr⟩ := hb.of_scale
    exact ihc (iht ha (.inl hs)) hr
  | scaleLeft _ hk _ =>
    rw [asOperand_exact]
    exact .scale (ha.isFactor hk) hb
  | mergeRight _ _ _ _ _ iht ihc =>
    obtain ⟨hs, hl⟩ := ha.of_scale
    exact ihc (iht (.inl hs) hb) hl
  | scaleRight _ _ hk _ => exact .scale (hb.isFactor hk) ha
  | mergeBoth _ _ _ _ _ _ iht ihm ihc =>
    obtain ⟨hs, hl⟩ := ha.of_scale
    obtain ⟨hu, hr⟩ := hb.of_scale
    exact ihc (iht (.inl hs) (.inl hu)) (ihm hl hr)
  | hoistLeft _ _ _ _ _ _ ihm ihc =>
    obtain ⟨hs, hl⟩ := ha.of_scale
    exact ihc (.inl hs) (ihm hl hb)
  | hoistRight _ _ _ _ _ _ ihm ihc =>
    obtain ⟨hs, hr⟩ := hb.of_scale
    exact ihc (.inl hs) (ihm ha hr)
  | matMul _ hka hkb => exact .inr ⟨rfl, ha.slotted hka, hb.slotted hkb⟩

/-- A product with one slope is a slope. -/
theorem Product.isSlope (h : Product a b c) (ha : a.IsOperand wrt) (hb : b.IsOperand wrt)
    (hs : a.IsSlope wrt ∨ b.IsSlope wrt) : c.IsSlope wrt := by
  refine (h.isOperand ha hb).isSlope ?_
  rcases h.hasDifferential with hc | hc
  · exact .inl hc
  · rcases hs with (rfl | ⟨hd, -⟩) | (rfl | ⟨hd, -⟩)
    · exact .inl h.eq_null_left
    · exact .inr (by rw [hc, hd, Bool.true_or])
    · exact .inl h.eq_null_right
    · exact .inr (by rw [hc, hd, Bool.or_true])

theorem Plus.isSlope (h : Plus a b c) (ha : a.IsSlope wrt) (hb : b.IsSlope wrt) :
    c.IsSlope wrt := by
  cases h with
  | nullLeft => exact hb
  | nullRight => exact ha
  | fold => cases ha.not_isScalar
  | double _ _ hc => exact hc.isSlope (.inl trivial) ha.slotted.isOperand (.inr ha)
  | add h =>
    rw [asOperand_exact, asOperand_exact]
    obtain ⟨hd, hs⟩ := ha.resolve_left (by rintro rfl; cases h.left)
    exact .inr ⟨by simp [hasDifferential, contains, hd], hs, hb.slotted⟩

theorem Minus.isSlope (h : Minus a b c) (ha : a.IsSlope wrt) (hb : b.IsSlope wrt) :
    c.IsSlope wrt := by
  cases h with
  | nullRight => exact ha
  | nullLeft _ hc => exact hc.isSlope (.inl trivial) hb.slotted.isOperand (.inr hb)
  | cancel => exact .inl rfl
  | fold => cases ha.not_isScalar
  | sub h =>
    rw [asOperand_exact, asOperand_exact]
    obtain ⟨hd, hs⟩ := ha.resolve_left (by rintro rfl; cases h.left)
    exact .inr ⟨by simp [hasDifferential, contains, hd], hs, hb.slotted⟩

/-- A differential is nothing, or it has a `d(X)` and nothing else that cannot be differentiated. -/
theorem isSlope_differentiate (h : e.Differentiable wrt) : (e.differentiate wrt).IsSlope wrt := by
  induction e with
  | var name =>
    rw [differentiate]
    split
    case isTrue heq => exact .inr ⟨rfl, congrArg var heq⟩
    case isFalse => exact .inl rfl
  | literal | null => exact .inl rfl
  | scalarVar | differential => cases h
  | scale s b _ ihb =>
    have hb := ihb h.2
    exact (product_times s _).isSlope (.inl h.1) hb.slotted.isOperand (.inr hb)
  | add a b iha ihb => exact (plus_add _ _).isSlope (iha h.1) (ihb h.2)
  | sub a b iha ihb => exact (minus_sub _ _).isSlope (iha h.1) (ihb h.2)
  | matMul a b iha ihb =>
    have ha := iha h.1
    have hb := ihb h.2
    refine (plus_add _ _).isSlope ?_ ?_
    · exact (product_times _ b).isSlope ha.slotted.isOperand h.2.slotted.isOperand (.inl ha)
    · exact (product_times a _).isSlope h.1.slotted.isOperand hb.slotted.isOperand (.inr hb)
  | trace a ih => exact (tracing_traced _).isSlope (ih h)
  | transpose a ih => exact (transposition_transposed _).isSlope (ih h)

/-! ## Differentials that are held -/

theorem hold_of_isFactor (h : e.IsFactor wrt) : e.hold wrt = e := by
  induction e with
  | literal x => rw [hold, ExactScalar.anew_eq]
  | scalarVar => rfl
  | scale a b iha ihb => rw [hold, iha h.1, ihb h.2]
  | _ => cases h

/-- Held, a slope can be differentiated. -/
theorem Slotted.differentiable_hold (h : e.Slotted wrt) : (e.hold wrt).Differentiable wrt := by
  induction e with
  | var | literal | null => trivial
  | scalarVar => cases h
  | differential a =>
    obtain rfl := h
    rw [hold, name?, if_pos rfl]
    trivial
  | scale s b _ ihb =>
    rw [hold, hold_of_isFactor h.1]
    exact ⟨h.1, ihb h.2⟩
  | add a b iha ihb | sub a b iha ihb | matMul a b iha ihb => exact ⟨iha h.1, ihb h.2⟩
  | trace a ih | transpose a ih => exact ih h

/-- The evaluator reads the variable that is named `d(X)` and the differential alike. -/
theorem Means.hold (wrt : String) {env : Environment S} {v : Value S} (h : Means (.ofEnv env) e v) :
    Means (.ofEnv env) (e.hold wrt) v := by
  induction h with
  | var h => exact .var h
  | scalarVar h => exact .scalarVar h
  | literal x =>
    rw [Expr.hold, ExactScalar.anew_eq]
    exact .literal x
  | null h => exact .null h
  | @differential inner name v hn h =>
    rw [Expr.hold]
    split
    case isTrue hw =>
      obtain rfl := Option.some.inj (hn.symm.trans hw)
      rw [text_differential hn]
      exact .var h
    case isFalse =>
      have hname : (inner.hold wrt).name? = some name := by
        cases inner <;> cases hn <;> rfl
      exact .differential hname h
  | add _ _ h iha ihb => exact .add iha ihb h
  | sub _ _ h iha ihb => exact .sub iha ihb h
  | scale hk _ _ ihs ihb => exact .scale (isScalar_hold hk) ihs ihb
  | matMul _ _ hk h iha ihb => exact .matMul iha ihb hk h
  | trace _ h iha => exact .trace iha h
  | transpose _ iha => exact .transpose iha

/-! ## Expressions over the dual numbers -/

theorem relabelling_inl : Relabelling id (inl : S → DualNumber S) where
  injective := Function.injective_id
  beq x y := Bool.eq_iff_iff.2 (by simp only [ExactScalar.beq_iff, inl_injective.eq_iff])
  alike x y := Bool.eq_iff_iff.2 (by
    simp only [ExactScalar.alike_eq, ExactScalar.beq_iff, inl_injective.eq_iff])
  anew x := by rw [ExactScalar.anew_eq, ExactScalar.anew_eq]
  add := inl_add S
  sub := inl_sub S
  mul := inl_mul S
  neg := inl_neg S
  one := inl_one S

theorem overDual_eq_relabel (e : Expr S) : e.overDual = e.relabel id inl := by
  induction e with
  | add a b iha ihb => rw [overDual_add, relabel, iha, ihb]
  | sub a b iha ihb => rw [overDual_sub, relabel, iha, ihb]
  | scale a b iha ihb => rw [overDual_scale, relabel, iha, ihb]
  | matMul a b iha ihb => rw [overDual_matMul, relabel, iha, ihb]
  | differential a ih => exact congrArg differential ih
  | trace a ih => exact congrArg trace ih
  | transpose a ih => exact congrArg transpose ih
  | _ => rfl

theorem overDual_eq_null (h : e.overDual = .null) : e = .null := by
  cases e <;> first | rfl | cases h

/-- The differential is the same over the dual numbers. -/
theorem overDual_differentiate (e : Expr S) (wrt : String) :
    (e.differentiate wrt).overDual = e.overDual.differentiate wrt := by
  rw [overDual_eq_relabel, overDual_eq_relabel]
  exact relabel_differentiate relabelling_inl e wrt

theorem IsFactor.overDual (h : e.IsFactor wrt) : e.overDual.IsFactor wrt := by
  induction e with
  | literal | scalarVar => exact h
  | scale a b iha ihb =>
    rw [overDual_scale]
    exact ⟨iha h.1, ihb h.2⟩
  | _ => cases h

theorem Differentiable.overDual (h : e.Differentiable wrt) : e.overDual.Differentiable wrt := by
  rw [overDual_eq_relabel]
  induction e with
  | var | literal | null => trivial
  | scalarVar | differential => cases h
  | scale s b _ ihb => exact ⟨overDual_eq_relabel s ▸ h.1.overDual, ihb h.2⟩
  | add a b iha ihb | sub a b iha ihb | matMul a b iha ihb => exact ⟨iha h.1, ihb h.2⟩
  | trace a ih | transpose a ih => exact ih h

theorem overDual_hold (h : e.Slotted wrt) : (e.hold wrt).overDual = e.overDual.hold wrt := by
  rw [overDual_eq_relabel, overDual_eq_relabel]
  induction e with
  | var | null => rfl
  | literal x => simp only [Expr.hold, relabel, ExactScalar.anew_eq]
  | scalarVar => cases h
  | differential a =>
    obtain rfl := h
    simp only [Expr.hold, relabel, name?, id, if_true]
    rfl
  | scale s b _ ihb =>
    have hs := hold_of_isFactor h.1.overDual
    rw [overDual_eq_relabel] at hs
    rw [relabel, Expr.hold, Expr.hold, relabel, hold_of_isFactor h.1, hs, ihb h.2]
  | add a b iha ihb | sub a b iha ihb | matMul a b iha ihb =>
    simp only [Expr.hold, relabel, iha h.1, ihb h.2]
  | trace a ih | transpose a ih => simp only [Expr.hold, relabel, ih h]

/-! ## The second differential of a value -/

/-- An expression moves twice. The second part of what its first motion gives is what the second
differential stands for. -/
theorem perturb_twice {env : Environment S} (hm : env.mode = .value)
    {V : Value (DualNumber (DualNumber S))} (hp : env.get? wrt = some V.re.re)
    (hH : env.get? (differentialIn wrt : Expr S).text = some V.re.eps)
    (hV : V.eps = V.re.eps.still) {v : Value S} (hd : e.Differentiable wrt)
    (h : Means (.ofEnv env) e v) :
    ∃ W, Means (.ofEnv ((env.moving wrt V.re).moving wrt V)) e.overDual.overDual W ∧
      W.re.re = v ∧ Stands (.ofEnv env) (e.secondDifferential wrt) W.eps.eps := by
  have hm' : (env.moving wrt V.re).mode = .value := hm
  have hfirst := Reading.moves_ofEnv hp hH
  have hheld : (env.moving wrt V.re).get? (differentialIn wrt : Expr (DualNumber S)).text =
      some V.eps := by
    refine (Environment.get?_set_of_ne _ V.re (text_differentialIn_ne _ wrt)).trans ?_
    rw [Environment.get?_still, hV]
    exact congrArg (Option.map Value.still) hH
  have hsecond : (Reading.ofEnv (env.moving wrt V.re)).Moves wrt V _ :=
    Reading.moves_ofEnv (Environment.get?_set_self _ _ _) hheld
  obtain ⟨U, hU, hv, hslope⟩ := h.perturb hfirst hd
  obtain ⟨W, hW, hre, hmove⟩ := hU.perturb hsecond hd.overDual
  refine ⟨W, hW, (congrArg Value.re hre).trans hv, ?_⟩
  rw [← overDual_differentiate] at hmove
  have hs := (isSlope_differentiate hd).slotted
  rw [secondDifferential, placed_eq_self ExactScalar.placed_eq]
  generalize e.differentiate wrt = g at hslope hmove hs ⊢
  by_cases hg : g = .null
  · subst hg
    exact stands_null_iff.2 (stands_null_iff.1 hmove).eps
  -- the differential is held, and moves as the direction of the expression does
  have hmeans := (hslope.resolve_right fun h => hg h.1).hold wrt
  obtain ⟨Z, hZ, -, hstands⟩ := hmeans.perturb hfirst hs.differentiable_hold
  have hmove := (hmove.resolve_right fun h => hg (overDual_eq_null h.1)).hold wrt
  rw [overDual_hold hs] at hZ
  obtain rfl := Except.ok.inj ((hmove.eval_eq hm').symm.trans (hZ.eval_eq hm'))
  exact hstands

/-- The second differential evaluates to the part of the value that belongs to both directions, if
the variable moves in the direction `d(X)` twice. -/
theorem secondDifferential_eval {env : Environment S} (hm : env.mode = .value)
    {V : Value (DualNumber (DualNumber S))} (hp : env.get? wrt = some V.re.re)
    (hH : env.get? (differentialIn wrt : Expr S).text = some V.re.eps)
    (hV : V.eps = V.re.eps.still) {v : Value S} (hd : e.Differentiable wrt) (hr : e.Regular env)
    (he : e.eval env = .ok v) :
    ∃ W, e.overDual.overDual.eval ((env.moving wrt V.re).moving wrt V) = .ok W ∧ W.re.re = v ∧
      ((e.secondDifferential wrt).eval env = .ok W.eps.eps ∨
        e.secondDifferential wrt = .null ∧ W.eps.eps.IsZero) := by
  obtain ⟨W, hW, hre, hs⟩ := perturb_twice hm hp hH hV hd (means_of_eval hm hr he)
  exact ⟨W, hW.eval_eq hm, hre, hs.imp_left fun h => h.eval_eq hm⟩

theorem secondDifferential_eval_product :
    ∃ V W, V.re = sampleMotion ∧ V.eps = sampleMotion.eps.still ∧
      sampleProduct.overDual.overDual.eval ((sampleMoving.moving "X" V.re).moving "X" V) = .ok W ∧
        (sampleProduct.secondDifferential "X").eval sampleMoving = .ok W.eps.eps := by
  obtain ⟨V, hre, heps⟩ := Value.exists_re_eps (p := sampleMotion) (h := sampleMotion.eps.still) rfl
  have hd : sampleProduct.Differentiable "X" := ⟨by simp [IsFactor], trivial, trivial⟩
  have hr : sampleProduct.Regular sampleMoving := by
    refine ⟨rfl, fun v hv => ?_, trivial, trivial⟩
    cases hv
    rfl
  have hp : sampleMoving.get? "X" = some V.re.re := by rw [hre]; rfl
  have hH : sampleMoving.get? (differentialIn "X" : Expr Int).text = some V.re.eps := by
    rw [hre]
    rfl
  obtain ⟨W, hW, -, hdW⟩ := secondDifferential_eval rfl hp hH (by rw [hre, heps]) hd hr rfl
  refine ⟨V, W, hre, heps, hW, hdW.resolve_right fun h => ?_⟩
  exact absurd h.1 (by decide +kernel)

end Expr

end TraceCalculus
