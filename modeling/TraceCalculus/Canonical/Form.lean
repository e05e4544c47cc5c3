import TraceCalculus.Expr.Basic

/-! # The canonical form of a differential -/

set_option autoImplicit false

namespace TraceCalculus.Expr

variable {S : Type}

/-- Whether the expression is `Tr(d(X))` or `Tr(G*d(X))` without a differential in `G`, or a scalar
multiple of such a trace. -/
def isCanonicalTerm : Expr S → Bool
  | .scale factor body => factor.isScalar && body.isCanonicalTerm
  | .trace (.differential _) => true
  | .trace (.matMul g (.differential _)) => !g.hasDifferential
  | _ => false

/-- Whether the expression is zero, or made of such terms by sums and differences. -/
def isCanonical : Expr S → Bool
  | .null => true
  | .add lhs rhs => lhs.isCanonical && rhs.isCanonical
  | .sub lhs rhs => lhs.isCanonical && rhs.isCanonical
  | e => e.isCanonicalTerm

end TraceCalculus.Expr
