import TraceCalculus.Operator
import TraceCalculus.Span

/-! # Formulas

A formula is the tree of a source text, just as it was written: brackets are kept, nothing is
simplified, and every node knows its region of the source.
-/

set_option autoImplicit false

namespace TraceCalculus

/-- The tree of a source text. -/
inductive Formula (S : Type) where
  | number (value : S) (span : Span)
  | symbol (name : String) (span : Span)
  | paren (inner : Formula S) (span : Span)
  | neg (operand : Formula S) (span : Span)
  | transpose (operand : Formula S) (span : Span)
  | binary (op : Operator) (opSpan : Span) (lhs rhs : Formula S) (span : Span)
  /-- A call with one argument. The brackets around the argument belong to the call. -/
  | call (name : String) (nameSpan : Span) (arg : Formula S) (span : Span)

namespace Formula

variable {S : Type}

/-- The region of the source the formula was read from. -/
def span : Formula S → Span
  | .number _ s => s
  | .symbol _ s => s
  | .paren _ s => s
  | .neg _ s => s
  | .transpose _ s => s
  | .binary _ _ _ _ s => s
  | .call _ _ _ s => s

/-- The formula inside all the brackets that enclose the whole. -/
def innermost : Formula S → Formula S
  | .paren inner _ => inner.innermost
  | f => f

end Formula

end TraceCalculus
