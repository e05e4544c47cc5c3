import TraceCalculus.Expr.Build
import TraceCalculus.Expr.Printer

/-! # Differentials

`differentiate` applies the rules of differential calculus with respect to one matrix variable:
linearity, the product rule, and that trace and transpose commute with the differential. Scalar
variables cannot be differentiated; where one is met, its differential is left standing and the
fact is noted.

For a second differential the first one is held fixed: `hold` turns `d(X)` into a matrix
variable of that name, a constant to further differentiation.
-/

set_option autoImplicit false

namespace TraceCalculus

/-- How often to differentiate. -/
inductive DiffOrder where
  | first
  | second
  deriving DecidableEq

/-- A scalar variable was met where a derivative was asked for. -/
structure OpaqueDifferential where
  /-- The text of what could not be differentiated. -/
  operand : String
  /-- The variable of the differential. -/
  wrt : String
  deriving DecidableEq

/-- The wording of the fact. -/
def OpaqueDifferential.notice (d : OpaqueDifferential) : Notice where
  severity := .warning
  message := "cannot differentiate " ++ quoted d.operand ++ " with respect to " ++ quoted d.wrt
  label := "this expression"
  help := some ("only matrix variables and literals can be differentiated; "
    ++ "the result contains an opaque differential")

namespace Expr

variable {S : Type} [Scalar S]

/-- The first differential. -/
def differentiate (wrt : String) : Expr S → Expr S
  | .scalarVar name => .differential (.scalarVar name)
  | .var name => if name = wrt then .differential (.var name) else .null
  | .literal _ | .null | .differential _ => .null
  | .scale factor body => factor * body.differentiate wrt
  | .add lhs rhs => lhs.differentiate wrt + rhs.differentiate wrt
  | .sub lhs rhs => lhs.differentiate wrt - rhs.differentiate wrt
  | .matMul lhs rhs => lhs.differentiate wrt * rhs + lhs * rhs.differentiate wrt
  | .trace inner => (inner.differentiate wrt).traced
  | .transpose inner => (inner.differentiate wrt).transposed

/-- The scalar variables that differentiation meets, left to right. The factor of a scaled
expression is a constant and is not looked at. -/
def opaqueDifferentials (wrt : String) : Expr S → List OpaqueDifferential
  | .scalarVar name => [⟨name, wrt⟩]
  | .var _ | .literal _ | .null | .differential _ => []
  | .scale _ body => body.opaqueDifferentials wrt
  | .add lhs rhs | .sub lhs rhs | .matMul lhs rhs =>
    lhs.opaqueDifferentials wrt ++ rhs.opaqueDifferentials wrt
  | .trace inner | .transpose inner => inner.opaqueDifferentials wrt

/-- Turns every differential of `wrt` into a matrix variable that has the text of the differential
for its name. The rest is copied operand by operand. -/
def hold (wrt : String) : Expr S → Expr S
  | .var name => .var name
  | .scalarVar name => .scalarVar name
  | .literal value => .literal (Scalar.anew value)
  | .null => .null
  | .differential inner =>
    if inner.name? = some wrt then .var (text (.differential inner))
    else .differential (inner.hold wrt)
  | .add lhs rhs => .add (lhs.hold wrt) (rhs.hold wrt)
  | .sub lhs rhs => .sub (lhs.hold wrt) (rhs.hold wrt)
  | .scale factor body => .scale (factor.hold wrt) (body.hold wrt)
  | .matMul lhs rhs => .matMul (lhs.hold wrt) (rhs.hold wrt)
  | .trace inner => .trace (inner.hold wrt)
  | .transpose inner => .transpose (inner.hold wrt)

theorem isScalar_hold {wrt : String} {e : Expr S} (h : e.isScalar = true) :
    (e.hold wrt).isScalar = true := by
  induction e with
  | literal | scalarVar => rfl
  | scale a b iha ihb =>
    simp only [isScalar, Bool.and_eq_true] at h
    rw [hold, isScalar, iha h.1, ihb h.2, Bool.and_self]
  | _ => cases h

/-- The second differential, with the first one held fixed. The first one is complete before the
product rule copies from it, so its literals are placed. -/
def secondDifferential (wrt : String) (e : Expr S) : Expr S :=
  ((e.differentiate wrt).hold wrt).placed.differentiate wrt

/-- The differential of the given order. -/
def derivative (wrt : String) : DiffOrder → Expr S → Expr S
  | .first => differentiate wrt
  | .second => secondDifferential wrt

/-- The scalar variables met on the way to the differential of the given order. -/
def derivativeNotes (wrt : String) : DiffOrder → Expr S → List OpaqueDifferential
  | .first, e => e.opaqueDifferentials wrt
  | .second, e =>
    e.opaqueDifferentials wrt
      ++ ((e.differentiate wrt).hold wrt).opaqueDifferentials wrt

/-- The equation in LaTeX that `result` is the derivative of `e`. -/
def derivativeLatex (e : Expr S) (wrt : String) (result : Expr S) : DiffOrder → String
  | .first =>
    "\\frac" ++ Text.braced ("\\partial " ++ e.latex)
      ++ Text.braced ("\\partial " ++ Text.matrixName wrt) ++ " = " ++ result.latex
  | .second =>
    "\\frac" ++ Text.braced ("\\partial^" ++ Text.braced "2" ++ " " ++ e.latex)
      ++ Text.braced ("\\partial " ++ Text.matrixName wrt ++ "^" ++ Text.braced "2")
      ++ " = " ++ result.latex

end Expr

end TraceCalculus
