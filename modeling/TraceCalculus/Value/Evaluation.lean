import TraceCalculus.Expr.Printer
import TraceCalculus.Value.Environment

/-! # Evaluation

Operands are evaluated from left to right, and the first that has no value decides the error.
-/

set_option autoImplicit false

namespace TraceCalculus.Expr

variable {S : Type} [Scalar S]

/-- The value of the differential of `inner`. -/
def evalDifferential (env : Environment S) (inner : Expr S) : Except EvalError (Value S) :=
  match env.mode with
  | .gradient wrt =>
    if inner.name? = some wrt then do
      let value ← env.lookup wrt
      return .matrix (.identity value.shape.rows)
    else env.lookup (Expr.differential inner).text
  | .value => env.lookup (Expr.differential inner).text

/-- The value of an expression. -/
def eval (env : Environment S) : Expr S → Except EvalError (Value S)
  | .var name => env.lookup name
  | .scalarVar name => env.lookup name
  | .literal value => .ok (.scalar value)
  | .null => .ok (.scalar 0)
  | .differential inner => evalDifferential env inner
  | .add lhs rhs => do
    let a ← lhs.eval env
    let b ← rhs.eval env
    a.add b
  | .sub lhs rhs => do
    let a ← lhs.eval env
    let b ← rhs.eval env
    a.sub b
  | .scale lhs rhs | .matMul lhs rhs => do
    let a ← lhs.eval env
    let b ← rhs.eval env
    a.mul b
  | .trace inner => do
    let a ← inner.eval env
    match env.mode with
    | .gradient _ => return a
    | .value => a.trace
  | .transpose inner => do return (← inner.eval env).transpose

end TraceCalculus.Expr
