/-! # Binary operators -/

set_option autoImplicit false

namespace TraceCalculus

/-- The binary operators of formulas and of their evaluation. -/
inductive Operator where
  | plus
  | minus
  | times
  deriving DecidableEq

/-- How the operator is written. -/
def Operator.symbol : Operator → String
  | .plus => "+"
  | .minus => "-"
  | .times => "*"

/-- How tightly an operation binds, the loosest first. -/
inductive Precedence where
  /-- As loosely as can be. -/
  | any
  /-- Sums and differences, which separate terms. -/
  | term
  /-- Products, which separate factors. -/
  | factor
  /-- A minus sign in front. -/
  | sign
  /-- The marks of transposition. -/
  | mark
  deriving DecidableEq

namespace Precedence

/-- The place among the precedences. -/
def rank : Precedence → Nat
  | .any => 0
  | .term => 1
  | .factor => 2
  | .sign => 3
  | .mark => 4

instance : LE Precedence := ⟨fun p q => p.rank ≤ q.rank⟩

instance (p q : Precedence) : Decidable (p ≤ q) := inferInstanceAs (Decidable (p.rank ≤ q.rank))

/-- The next tighter precedence. What stands on the right of an operator that associates to the left
binds like this. -/
def tighter : Precedence → Precedence
  | .any => .term
  | .term => .factor
  | .factor => .sign
  | .sign | .mark => .mark

end Precedence

/-- How tightly the operator binds. -/
def Operator.precedence : Operator → Precedence
  | .plus | .minus => .term
  | .times => .factor

end TraceCalculus
