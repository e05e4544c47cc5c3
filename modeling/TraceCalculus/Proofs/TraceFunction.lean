import TraceCalculus.Proofs.LinearTerms
import TraceCalculus.Proofs.Perturbation
import TraceCalculus.Proofs.Typing

/-! # Scalar functions of matrices

A trace function (`Expr.TraceFunction`) is made by sums, differences and scalar multiples of literals
and of traces, each of a matrix expression that has no further traces in it. What a formula means may
also be the zero element, which stands for a function that vanishes; which formulas mean a trace
function or the zero element shows in their syntax (`Formula.toExpr_traceFunction`).

The differential of a trace function is a combination of traces of linear terms, or the zero element
(`Expr.TraceFunction.differentiate`). In an environment that has a matrix for every matrix variable
and a number for every scalar variable of it (`Expr.WellBound`), the value of a trace function is a
number, and types are kept on the way there (`Expr.TraceFunction.means`).
-/

set_option autoImplicit false

namespace TraceCalculus.Expr

variable {S : Type}

/-- Sums, differences and scalar multiples of literals and traces of matrices. -/
def TraceFunction : Expr S → Prop
  | .literal _ => True
  | .add a b | .sub a b => a.TraceFunction ∧ b.TraceFunction
  | .scale k b => k.isScalar = true ∧ b.TraceFunction
  | .trace a => a.Plain
  | _ => False

/-- Matrix variables have matrices for their values and scalar variables have numbers. -/
def WellBound (env : Environment S) : Expr S → Prop
  | .var name => ∀ v, env.get? name = some v → v.isMatrix = true
  | .scalarVar name => ∀ v, env.get? name = some v → v.isMatrix = false
  | .literal _ | .null => True
  | .differential a | .trace a | .transpose a => a.WellBound env
  | .add a b | .sub a b | .scale a b | .matMul a b => a.WellBound env ∧ b.WellBound env

theorem hasNull_of_isScalar {k : Expr S} (h : k.isScalar = true) : k.hasNull = false := by
  induction k with
  | scalarVar | literal => rfl
  | scale a b iha ihb =>
    simp only [isScalar, Bool.and_eq_true] at h
    simp [hasNull, iha h.1, ihb h.2]
  | _ => cases h

theorem Plain.hasNull_eq {e : Expr S} (h : e.Plain) : e.hasNull = false := by
  induction e with
  | var => rfl
  | add a b iha ihb | sub a b iha ihb | matMul a b iha ihb => simp [hasNull, iha h.1, ihb h.2]
  | scale k b _ ihb => simp [hasNull, hasNull_of_isScalar h.1, ihb h.2]
  | transpose a ih => exact ih h
  | _ => cases h

theorem TraceFunction.hasNull_eq {f : Expr S} (h : f.TraceFunction) : f.hasNull = false := by
  induction f with
  | literal => rfl
  | add a b iha ihb | sub a b iha ihb => simp [hasNull, iha h.1, ihb h.2]
  | scale k b _ ihb => simp [hasNull, hasNull_of_isScalar h.1, ihb h.2]
  | trace a =>
    have ha : a.Plain := h
    exact ha.hasNull_eq
  | _ => cases h

/-- The differential of a trace function is a combination of traces, each linear in `d(X)`. -/
theorem TraceFunction.differentiate [ExactScalar S] {X : String} {f : Expr S}
    (h : f.TraceFunction) : OrNull (Traced X) (f.differentiate X) := by
  induction f with
  | literal => exact .inl rfl
  | add a b iha ihb => exact traced_plus (iha h.1) (ihb h.2)
  | sub a b iha ihb => exact traced_minus (iha h.1) (ihb h.2)
  | scale k b _ ihb => exact homogeneous_traced.scalar_times_orNull h.1 (ihb h.2)
  | trace a => exact traced_traced (Plain.differentiate h)
  | _ => cases h

/-- The zero element has itself for its differential. -/
theorem differentiate_of_orNull [ExactScalar S] {X : String} {f : Expr S}
    (h : OrNull TraceFunction f) : OrNull (Traced X) (f.differentiate X) := by
  rcases h with rfl | h
  · exact .inl rfl
  · exact h.differentiate

/-! ## Where the variable does not hide -/

section Differentiable

variable {env : Environment S} {X : String} {p : Value S}

theorem isFactor_of_isScalar (hX : env.get? X = some p) (hp : p.isMatrix = true) {k : Expr S}
    (hk : k.isScalar = true) (hb : k.WellBound env) : k.IsFactor X := by
  induction k with
  | literal => trivial
  | scalarVar name =>
    rintro rfl
    rw [hb p hX] at hp
    cases hp
  | scale a b iha ihb =>
    simp only [isScalar, Bool.and_eq_true] at hk
    exact ⟨iha hk.1 hb.1, ihb hk.2 hb.2⟩
  | _ => cases hk

theorem Plain.differentiable (hX : env.get? X = some p) (hp : p.isMatrix = true) {e : Expr S}
    (he : e.Plain) (hb : e.WellBound env) : e.Differentiable X := by
  induction e with
  | var => trivial
  | add a b iha ihb | sub a b iha ihb | matMul a b iha ihb =>
    exact ⟨iha he.1 hb.1, ihb he.2 hb.2⟩
  | scale k b _ ihb => exact ⟨isFactor_of_isScalar hX hp he.1 hb.1, ihb he.2 hb.2⟩
  | transpose a ih => exact ih he hb
  | _ => cases he

theorem TraceFunction.differentiable (hX : env.get? X = some p) (hp : p.isMatrix = true)
    {f : Expr S} (hf : f.TraceFunction) (hb : f.WellBound env) : f.Differentiable X := by
  induction f with
  | literal => trivial
  | add a b iha ihb | sub a b iha ihb => exact ⟨iha hf.1 hb.1, ihb hf.2 hb.2⟩
  | scale k b _ ihb => exact ⟨isFactor_of_isScalar hX hp hf.1 hb.1, ihb hf.2 hb.2⟩
  | trace a =>
    have ha : a.Plain := hf
    exact ha.differentiable hX hp hb
  | _ => cases hf

end Differentiable

/-! ## Values -/

variable [ExactScalar S] {env : Environment S} {I : Reading S}

/-- The evaluator finds the number a scalar stands for. -/
theorem means_of_isScalar (hI : I.var = env.get?) {k : Expr S} {v : Value S}
    (hk : k.isScalar = true) (hb : k.WellBound env) (h : k.eval env = .ok v) : Means I k v := by
  induction k generalizing v with
  | literal x =>
    cases h
    exact .literal x
  | scalarVar name =>
    have hv := Environment.lookup_eq_ok.1 h
    have hm := hb v hv
    cases v with
    | scalar x => exact .scalarVar (hI ▸ hv)
    | matrix m => cases hm
  | scale a b iha ihb =>
    simp only [isScalar, Bool.and_eq_true] at hk
    obtain ⟨u, w, ha, hb', hmul⟩ := eval_scale_ok.1 h
    have hu := iha hk.1 hb.1 ha
    obtain ⟨x, rfl⟩ := hu.eq_scalar hk.1
    rw [Value.scalar_mul, Except.ok.injEq] at hmul
    subst hmul
    exact .scale hk.1 hu (ihb hk.2 hb.2 hb')
  | _ => cases hk

/-- A matrix expression evaluates to a matrix, and types are kept. -/
theorem Plain.means (hI : I.var = env.get?) {e : Expr S} {v : Value S} (he : e.Plain)
    (hb : e.WellBound env) (h : e.eval env = .ok v) : v.isMatrix = true ∧ Means I e v := by
  induction e generalizing v with
  | var name =>
    have hv := Environment.lookup_eq_ok.1 h
    exact ⟨hb v hv, .var (hI ▸ hv)⟩
  | add a b iha ihb =>
    obtain ⟨u, w, ha, hb', hadd⟩ := eval_add_ok.1 h
    obtain ⟨hu, hua⟩ := iha he.1 hb.1 ha
    obtain ⟨hw, hwb⟩ := ihb he.2 hb.2 hb'
    have hsum := Value.sum_iff.2 ⟨hu.trans hw.symm, hadd⟩
    exact ⟨hsum.isMatrix_eq.1.symm.trans hu, .add hua hwb hsum⟩
  | sub a b iha ihb =>
    obtain ⟨u, w, ha, hb', hsub⟩ := eval_sub_ok.1 h
    obtain ⟨hu, hua⟩ := iha he.1 hb.1 ha
    obtain ⟨hw, hwb⟩ := ihb he.2 hb.2 hb'
    have hdiff := Value.difference_iff.2 ⟨hu.trans hw.symm, hsub⟩
    exact ⟨hdiff.isMatrix_eq.1.symm.trans hu, .sub hua hwb hdiff⟩
  | scale k b _ ihb =>
    obtain ⟨u, w, hk, hb', hmul⟩ := eval_scale_ok.1 h
    have hu := means_of_isScalar hI he.1 hb.1 hk
    obtain ⟨x, rfl⟩ := hu.eq_scalar he.1
    obtain ⟨hw, hwb⟩ := ihb he.2 hb.2 hb'
    rw [Value.scalar_mul, Except.ok.injEq] at hmul
    subst hmul
    exact ⟨(Value.isMatrix_scaleBy x w).trans hw, .scale he.1 hu hwb⟩
  | matMul a b iha ihb =>
    obtain ⟨u, w, ha, hb', hmul⟩ := eval_matMul_ok.1 h
    obtain ⟨hu, hua⟩ := iha he.1 hb.1 ha
    obtain ⟨hw, hwb⟩ := ihb he.2 hb.2 hb'
    have hv : v.isMatrix = true := by
      rw [Value.isMatrix_of_mul hmul, hu, hw]
      rfl
    exact ⟨hv, .matMul hua hwb (fun _ => ⟨hu, hw⟩) hmul⟩
  | transpose a ih =>
    obtain ⟨u, ha, rfl⟩ := eval_transpose_ok.1 h
    obtain ⟨hu, hua⟩ := ih he hb ha
    exact ⟨(Value.isMatrix_transpose u).trans hu, .transpose hua⟩
  | _ => cases he

/-- A trace function evaluates to a number, and types are kept. -/
theorem TraceFunction.means (hm : env.mode = .value) (hI : I.var = env.get?) {f : Expr S}
    {v : Value S} (hf : f.TraceFunction) (hb : f.WellBound env) (h : f.eval env = .ok v) :
    v.isMatrix = false ∧ Means I f v := by
  induction f generalizing v with
  | literal x =>
    cases h
    exact ⟨rfl, .literal x⟩
  | add a b iha ihb =>
    obtain ⟨u, w, ha, hb', hadd⟩ := eval_add_ok.1 h
    obtain ⟨hu, hua⟩ := iha hf.1 hb.1 ha
    obtain ⟨hw, hwb⟩ := ihb hf.2 hb.2 hb'
    have hsum := Value.sum_iff.2 ⟨hu.trans hw.symm, hadd⟩
    exact ⟨hsum.isMatrix_eq.1.symm.trans hu, .add hua hwb hsum⟩
  | sub a b iha ihb =>
    obtain ⟨u, w, ha, hb', hsub⟩ := eval_sub_ok.1 h
    obtain ⟨hu, hua⟩ := iha hf.1 hb.1 ha
    obtain ⟨hw, hwb⟩ := ihb hf.2 hb.2 hb'
    have hdiff := Value.difference_iff.2 ⟨hu.trans hw.symm, hsub⟩
    exact ⟨hdiff.isMatrix_eq.1.symm.trans hu, .sub hua hwb hdiff⟩
  | scale k b _ ihb =>
    obtain ⟨u, w, hk, hb', hmul⟩ := eval_scale_ok.1 h
    have hu := means_of_isScalar hI hf.1 hb.1 hk
    obtain ⟨x, rfl⟩ := hu.eq_scalar hf.1
    obtain ⟨hw, hwb⟩ := ihb hf.2 hb.2 hb'
    rw [Value.scalar_mul, Except.ok.injEq] at hmul
    subst hmul
    exact ⟨(Value.isMatrix_scaleBy x w).trans hw, .scale hf.1 hu hwb⟩
  | trace a =>
    obtain ⟨u, ha, htr⟩ := (eval_trace_ok hm).1 h
    obtain ⟨-, hua⟩ := Plain.means hI hf hb ha
    exact ⟨Value.isMatrix_of_trace htr, .trace hua htr⟩
  | _ => cases hf

end TraceCalculus.Expr
