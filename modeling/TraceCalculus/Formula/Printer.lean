import TraceCalculus.Formula.Basic
import TraceCalculus.Scalar.Basic
import TraceCalculus.Text.Markup

/-! # Formulas as text

Brackets are printed where they were written and nowhere else, so the text has the structure of
the source and only its white space and its spellings are lost.
-/

set_option autoImplicit false

namespace TraceCalculus.Formula

variable {S : Type} [Scalar S]

/-- The formula in one line, without white space. -/
def text : Formula S → String
  | .number value _ => Scalar.text value
  | .symbol name _ => name
  | .paren inner _ => "(" ++ inner.text ++ ")"
  | .neg operand _ => "-" ++ operand.text
  | .transpose operand _ => operand.text ++ "'"
  | .binary op _ lhs rhs _ => lhs.text ++ op.symbol ++ rhs.text
  | .call name _ arg _ => name ++ "(" ++ arg.text ++ ")"

/-- The formula in LaTeX. -/
def latex : Formula S → String
  | .number value _ => Scalar.text value
  | .symbol name _ => Text.matrixName name
  | .paren inner _ => Text.bracketed inner.latex
  | .neg operand _ => "-" ++ operand.latex
  | .transpose operand _ => operand.latex ++ Text.transposeMark
  | .binary op _ lhs rhs _ => lhs.latex ++ " " ++ op.symbol ++ " " ++ rhs.latex
  | .call name _ arg _ => "\\mathrm" ++ Text.braced (" " ++ name ++ " ") ++ Text.bracketed arg.latex

end TraceCalculus.Formula
