import TraceCalculus.Canonical.Run
import TraceCalculus.Differential
import TraceCalculus.Value.Evaluation

/-! # Gradients

The gradient is read off the canonical form of a differential: in gradient mode `Tr(G*d(X))`
evaluates to `G`, whose transpose has the shape of `X`.
-/

set_option autoImplicit false

namespace TraceCalculus

namespace Expr

variable {S : Type} [Scalar S]

/-- The gradient with respect to `wrt`, given the canonical form of the differential. A form
without a differential has a scalar for its value, which then fills the shape of `wrt`. -/
def gradient (canonical : Expr S) (wrt : String) (env : Environment S) :
    Except EvalError (Grid S) :=
  match env.get? wrt with
  | none => .error (.undefinedVariable wrt [])
  | some point => do
    match ← canonical.eval (env.withMode (.gradient wrt)) with
    | .scalar value => return .fill point.shape.rows point.shape.cols value
    | .matrix m => return m.transpose

/-- The number an expression evaluates to when `wrt` has the given value. -/
def valueAt (e : Expr S) (wrt : String) (env : Environment S) (value : Grid S) :
    Except EvalError S := do
  (← e.eval (env.set wrt (.matrix value))).toScalar

end Expr

namespace Environment

variable {S : Type} [Scalar S]

/-- Moves a variable against the gradient `g` by a multiple of it. Only a matrix of the shape of
the gradient is moved. -/
def step? (env : Environment S) (wrt : String) (g : Grid S) (rate : S) :
    Option (Grid S × Environment S) :=
  match env.get? wrt with
  | some (.matrix m) =>
    match m.zipWith? (fun x d => x - d * rate) g with
    | some moved => some (moved, env.set wrt (.matrix moved))
    | none => none
  | _ => none

end Environment

end TraceCalculus
