import Mathlib.Algebra.DualNumber
import TraceCalculus.Differential
import TraceCalculus.Proofs.Constructors
import TraceCalculus.Proofs.DualValue

/-! # Differentiation gives the differential

If the variable `X` moves, an expression moves with it. Over the dual numbers, with the direction of
`X` in the second part of its value, the second part of the value of an expression is the direction
in which the expression moves. `Expr.differentiate` finds it without dual numbers: with `d(X)` for
the direction of `X`, the differential evaluates to the direction of the expression
(`Expr.differentiate_eval`).

The induction is over `Expr.Means` and for any two readings of which one moves `X` and is otherwise
the other (`Reading.Moves`), so it serves readings that keep types as well as the evaluator.
-/

set_option autoImplicit false

namespace TraceCalculus

open TrivSqZeroExt

variable {S : Type} [ExactScalar S]

namespace Expr

/-- The expression over the dual numbers. -/
def overDual (e : Expr S) : Expr (DualNumber S) := e.mapLiterals (fun _ x => inl x) 0

omit [ExactScalar S] in
theorem mapLiterals_start {T : Type} (f : S → T) (e : Expr S) (start : Nat) :
    e.mapLiterals (fun _ x => f x) start = e.mapLiterals (fun _ x => f x) 0 := by
  induction e generalizing start with
  | add a b iha ihb | sub a b iha ihb | scale a b iha ihb | matMul a b iha ihb =>
    rw [mapLiterals, mapLiterals, iha start, ihb (start + a.size), ihb (0 + a.size)]
  | differential a ih | trace a ih | transpose a ih => rw [mapLiterals, mapLiterals, ih]
  | _ => rfl

theorem overDual_add (a b : Expr S) : (add a b).overDual = .add a.overDual b.overDual :=
  congrArg _ (mapLiterals_start inl b _)

theorem overDual_sub (a b : Expr S) : (sub a b).overDual = .sub a.overDual b.overDual :=
  congrArg _ (mapLiterals_start inl b _)

theorem overDual_scale (a b : Expr S) : (scale a b).overDual = .scale a.overDual b.overDual :=
  congrArg _ (mapLiterals_start inl b _)

theorem overDual_matMul (a b : Expr S) : (matMul a b).overDual = .matMul a.overDual b.overDual :=
  congrArg _ (mapLiterals_start inl b _)

omit [ExactScalar S] in
theorem isScalar_mapLiterals {T : Type} (f : Nat → S → T) (e : Expr S) (start : Nat) :
    (e.mapLiterals f start).isScalar = e.isScalar := by
  induction e generalizing start with
  | scale a b iha ihb => rw [mapLiterals, isScalar, isScalar, iha, ihb]
  | _ => rfl

/-- A scalar by its form that does not depend on the variable `wrt`. -/
def IsFactor (wrt : String) : Expr S → Prop
  | .literal _ => True
  | .scalarVar name => name ≠ wrt
  | .scale a b => a.IsFactor wrt ∧ b.IsFactor wrt
  | _ => False

/-- There is no differential, and scalar variables occur in the factors of scaled expressions only,
where `wrt` does not occur. -/
def Differentiable (wrt : String) : Expr S → Prop
  | .var _ | .literal _ | .null => True
  | .scalarVar _ | .differential _ => False
  | .scale s b => s.IsFactor wrt ∧ b.Differentiable wrt
  | .add a b | .sub a b | .matMul a b => a.Differentiable wrt ∧ b.Differentiable wrt
  | .trace a | .transpose a => a.Differentiable wrt

omit [ExactScalar S] in
/-- Differentiation meets no scalar variable. -/
theorem Differentiable.opaqueDifferentials_eq {wrt : String} {e : Expr S}
    (h : e.Differentiable wrt) : e.opaqueDifferentials wrt = [] := by
  induction e with
  | var | literal | null => rfl
  | scalarVar | differential => cases h
  | scale s b _ ihb => exact ihb h.2
  | add a b iha ihb | sub a b iha ihb | matMul a b iha ihb =>
    rw [opaqueDifferentials, iha h.1, ihb h.2, List.nil_append]
  | trace a ih | transpose a ih => exact ih h

end Expr

/-- The reading `J` is `I` with `wrt` moving through `V`, and `I` has the direction of `V` for the
differential of `wrt`. -/
structure Reading.Moves (I : Reading S) (wrt : String) (V : Value (DualNumber S))
    (J : Reading (DualNumber S)) : Prop where
  point : I.var wrt = some V.re
  direction : I.differential wrt = some V.eps
  moving : J.var wrt = some V
  still : ∀ name v, name ≠ wrt → I.var name = some v → J.var name = some v.still
  null : ∀ v, I.null v → J.null v.still
  strict : J.strict → I.strict

namespace Expr

variable {I : Reading S} {J : Reading (DualNumber S)} {wrt : String} {V : Value (DualNumber S)}

theorem Means.overDual_factor (hI : I.Moves wrt V J) {s : Expr S} {v : Value S}
    (h : Means I s v) (hs : s.IsFactor wrt) : Means J s.overDual v.still := by
  induction h with
  | scalarVar h => exact .scalarVar (hI.still _ _ hs h)
  | literal x => exact .literal _
  | @scale s _ x _ hk _ _ ihs ihb =>
    rw [overDual_scale, Value.still_scaleBy]
    exact .scale ((isScalar_mapLiterals _ s 0).trans hk) (ihs hs.1) (ihb hs.2)
  | _ => cases hs

/-- An expression moves in the direction that its differential stands for. -/
theorem Means.perturb (hI : I.Moves wrt V J) {e : Expr S} {v : Value S} (h : Means I e v)
    (hd : e.Differentiable wrt) :
    ∃ W, Means J e.overDual W ∧ W.re = v ∧ Stands I (e.differentiate wrt) W.eps := by
  induction h with
  | @var name v h =>
    rw [differentiate]
    split
    case isTrue heq =>
      subst heq
      obtain rfl := Option.some.inj (hI.point.symm.trans h)
      exact ⟨V, .var hI.moving, rfl, .inl (.differential rfl hI.direction)⟩
    case isFalse hne =>
      exact ⟨_, .var (hI.still _ _ hne h), v.re_still, stands_null_iff.2 v.isZero_eps_still⟩
  | scalarVar | differential => cases hd
  | literal x => exact ⟨_, .literal _, rfl, stands_null_iff.2 rfl⟩
  | @null v h => exact ⟨_, .null (hI.null _ h), v.re_still, stands_null_iff.2 v.isZero_eps_still⟩
  | add _ _ h iha ihb =>
    obtain ⟨U, hU, rfl, hdU⟩ := iha hd.1
    obtain ⟨W, hW, rfl, hdW⟩ := ihb hd.2
    obtain ⟨Z, hZ, rfl, heps⟩ := h.lift
    rw [overDual_add]
    exact ⟨Z, .add hU hW hZ, rfl, hdU.plus hdW heps⟩
  | sub _ _ h iha ihb =>
    obtain ⟨U, hU, rfl, hdU⟩ := iha hd.1
    obtain ⟨W, hW, rfl, hdW⟩ := ihb hd.2
    obtain ⟨Z, hZ, rfl, heps⟩ := h.lift
    rw [overDual_sub]
    exact ⟨Z, .sub hU hW hZ, rfl, hdU.minus hdW heps⟩
  | @scale s b x v hk hs _ _ ihb =>
    obtain ⟨W, hW, rfl, hdW⟩ := ihb hd.2
    refine ⟨W.scaleBy (inl x), ?_, ?_, ?_⟩
    · rw [overDual_scale]
      exact .scale ((isScalar_mapLiterals _ s 0).trans hk) (hs.overDual_factor hI hd.1) hW
    · rw [Value.re_scaleBy, fst_inl]
    · rw [Value.eps_scaleBy_inl]
      exact hs.stands.scaled hk hdW
  | matMul ha hb hk h iha ihb =>
    obtain ⟨U, hU, rfl, hdU⟩ := iha hd.1
    obtain ⟨W, hW, rfl, hdW⟩ := ihb hd.2
    obtain ⟨Z, p, q, hZ, rfl, hp, hq, heps⟩ := Value.mul_lift h
    simp only [Value.isMatrix_re] at hk
    rw [overDual_matMul]
    refine ⟨Z, .matMul hU hW (fun hs => hk (hI.strict hs)) hZ, rfl, ?_⟩
    refine (hdU.times hb.stands hp fun hs => ?_).plus (ha.stands.times hdW hq fun hs => ?_) heps
    · rw [Value.isMatrix_eps, Value.isMatrix_re]
      exact .inr (.inr (hk hs))
    · rw [Value.isMatrix_eps, Value.isMatrix_re]
      exact .inr (.inr (hk hs))
  | trace _ h iha =>
    obtain ⟨U, hU, rfl, hdU⟩ := iha hd
    obtain ⟨T, hT, rfl, heps⟩ := Value.trace_lift h
    exact ⟨T, .trace hU hT, rfl, hdU.traced heps⟩
  | transpose _ iha =>
    obtain ⟨U, hU, rfl, hdU⟩ := iha hd
    refine ⟨U.transpose, .transpose hU, U.re_transpose, ?_⟩
    rw [Value.eps_transpose]
    exact hdU.transposed

end Expr

/-! ## The evaluator over the dual numbers -/

namespace Environment

/-- The values over the dual numbers, none of which moves. -/
def still (env : Environment S) : Environment (DualNumber S) where
  values := env.values.map fun entry => (entry.1, entry.2.still)
  mode := env.mode
  distance := env.distance

/-- The values over the dual numbers, of which only that of `wrt` moves. -/
def moving (env : Environment S) (wrt : String) (V : Value (DualNumber S)) :
    Environment (DualNumber S) :=
  env.still.set wrt V

theorem get?_still (env : Environment S) (name : String) :
    env.still.get? name = (env.get? name).map Value.still := by
  unfold get? still
  induction env.values with
  | nil => rfl
  | cons entry l ih =>
    rw [List.map_cons, List.lookup_cons, List.lookup_cons, ih]
    split <;> rfl

end Environment

theorem Reading.moves_ofEnv {env : Environment S} {wrt : String} {V : Value (DualNumber S)}
    (hp : env.get? wrt = some V.re)
    (hd : env.get? (Expr.differentialIn wrt : Expr S).text = some V.eps) :
    (ofEnv env).Moves wrt V (ofEnv (env.moving wrt V)) where
  point := hp
  direction := hd
  moving := Environment.get?_set_self _ _ _
  still name v hne h := by
    refine (Environment.get?_set_of_ne _ V hne).trans ?_
    rw [Environment.get?_still, show env.get? name = some v from h]
    rfl
  null := by
    rintro _ rfl
    exact congrArg Value.scalar (inl_zero S)
  strict := id

namespace Expr

/-- The differential of an expression evaluates to the direction in which the expression moves, with
`d(X)` for the direction of `X`. Nothing is left standing. -/
theorem differentiate_eval {env : Environment S} (hm : env.mode = .value) {wrt : String}
    {V : Value (DualNumber S)} (hp : env.get? wrt = some V.re)
    (hH : env.get? (differentialIn wrt : Expr S).text = some V.eps) {e : Expr S} {v : Value S}
    (hd : e.Differentiable wrt) (hr : e.Regular env) (he : e.eval env = .ok v) :
    e.opaqueDifferentials wrt = [] ∧
      ∃ W, e.overDual.eval (env.moving wrt V) = .ok W ∧ W.re = v ∧
        ((e.differentiate wrt).eval env = .ok W.eps ∨
          e.differentiate wrt = .null ∧ W.eps.IsZero) := by
  refine ⟨hd.opaqueDifferentials_eq, ?_⟩
  have hmeans := means_of_eval hm hr he
  obtain ⟨W, hW, hre, hdW⟩ := hmeans.perturb (Reading.moves_ofEnv hp hH) hd
  exact ⟨W, hW.eval_eq hm, hre, hdW.imp_left fun h => h.eval_eq hm⟩

/-- A matrix and a direction. -/
def sampleMotion : Value (DualNumber Int) :=
  .ofMatrix !![inl 1 + inr 5, inl 2; inl 3 + inr 2, inl 4 + inr 1]

/-- Values for a scalar, and for a matrix that moves. -/
def sampleMoving : Environment Int where
  values := [("s", .scalar 3), ("X", sampleMotion.re), ("d(X)", sampleMotion.eps)]

/-- The product `s*(X*Tr(X))`, in which a number stands among the factors. -/
def sampleProduct : Expr Int :=
  .scale (.scalarVar "s") (.matMul (.var "X") (.trace (.var "X")))

theorem differentiate_eval_product :
    ∃ W, sampleProduct.overDual.eval (sampleMoving.moving "X" sampleMotion) = .ok W ∧
      (sampleProduct.differentiate "X").eval sampleMoving = .ok W.eps := by
  have hd : sampleProduct.Differentiable "X" := ⟨by simp [IsFactor], trivial, trivial⟩
  have hr : sampleProduct.Regular sampleMoving := by
    refine ⟨rfl, fun v hv => ?_, trivial, trivial⟩
    cases hv
    rfl
  have hp : sampleMoving.get? "X" = some sampleMotion.re := rfl
  have hH : sampleMoving.get? (differentialIn "X" : Expr Int).text = some sampleMotion.eps := rfl
  obtain ⟨-, W, hW, -, hdW⟩ := differentiate_eval rfl hp hH hd hr rfl
  refine ⟨W, hW, hdW.resolve_right fun h => ?_⟩
  exact absurd h.1 (by decide +kernel)

end Expr

end TraceCalculus
