import TraceCalculus.Expr.Build
import TraceCalculus.Formula.Parser
import TraceCalculus.Text.Distance
import TraceCalculus.Text.Names

/-! # From formulas to expressions

A name is a matrix variable unless it was declared a scalar. `Tr` (or `tr`) of a formula is its
trace, and `d` of a name is the differential of that variable. Every node is built with the
constructors that simplify. A formula is refused at its first offending node, and no node after it
is looked at.
-/

set_option autoImplicit false

namespace TraceCalculus

/-- The names that stand for scalars. -/
@[ext] structure Declarations where
  scalars : Text.Names := ∅
  /-- How far apart two names are. -/
  distance : String → String → Nat := Text.distance

namespace Declarations

/-- Declares a scalar. -/
def declare (declared : Declarations) (name : String) : Declarations :=
  { declared with scalars := declared.scalars.insert name }

/-- Whether a name was declared a scalar. -/
def isScalar (declared : Declarations) (name : String) : Bool := name ∈ declared.scalars

@[simp] theorem isScalar_empty (name : String) : ({} : Declarations).isScalar name = false := rfl

@[simp] theorem isScalar_declare (declared : Declarations) (name other : String) :
    (declared.declare name).isScalar other = (other == name || declared.isScalar other) := by
  simp only [isScalar, declare, Text.Names.mem_insert, Bool.decide_or]
  rfl

end Declarations

/-- The functions that can be called in a formula. -/
def functionNames : List String := ["Tr", "tr", "d"]

/-- The causes for which a formula stands for no expression. -/
inductive MeaningError where
  | reservedName (e : ReservedName)
  | unknownFunction (name : String) (suggestions : List String)
  | invalidDifferential
  deriving DecidableEq

/-- The wording of each cause. -/
def MeaningError.notice : MeaningError → Notice
  | .reservedName e => e.notice
  | .unknownFunction name suggestions =>
    { message := "the " ++ quoted name ++ " function does not exist"
      label := "this function"
      help := some (match suggestions with
        | [] => "the available functions are Tr and d"
        | [one] => "did you mean the " ++ quoted one ++ " function?"
        | many => "did you mean one of these functions? " ++ ", ".intercalate (many.map quoted)) }
  | .invalidDifferential =>
    { message := "differentials can only be taken of a single variable"
      label := "this argument"
      help := some "write d(X) to refer to the differential of X" }

/-- The causes for which a source text stands for no expression. -/
inductive ReadError where
  | parse (e : ParseError)
  | meaning (e : MeaningError)
  deriving DecidableEq

/-- The wording of each cause. -/
def ReadError.notice : ReadError → Notice
  | .parse e => e.notice
  | .meaning e => e.notice

namespace Formula

variable {S : Type}

/-- The variable a name stands for. -/
def symbolToExpr (declared : Declarations) (name : String) (span : Span) :
    Except (Located MeaningError) (Expr S) :=
  match if declared.isScalar name then Expr.scalarNamed? name else Expr.matrixNamed? name with
  | .ok e => .ok e
  | .error e => .error (.on (.reservedName e) span)

/-- The differential that `d` of a formula stands for. -/
def differentialToExpr (declared : Declarations) : Formula S → Except (Located MeaningError) (Expr S)
  | .symbol name span => (symbolToExpr declared name span).map .differential
  | .paren inner _ => differentialToExpr declared inner
  | other => .error (.on .invalidDifferential other.span)

/-- A call to a function that is not known is answered with the known ones it resembles. -/
def unknownFunction (distance : String → String → Nat) (name : String) : MeaningError :=
  .unknownFunction name (Text.resembling distance functionNames name)

variable [Scalar S]

/-- The expression a formula stands for. -/
def toExpr (declared : Declarations) : Formula S → Except (Located MeaningError) (Expr S)
  | .number value _ => .ok (.literal value)
  | .symbol name span => symbolToExpr declared name span
  | .paren inner _ => toExpr declared inner
  | .neg operand _ => do return -(← toExpr declared operand)
  | .transpose operand _ => do return (← toExpr declared operand).transposed
  | .binary op _ lhs rhs _ => do
    let a ← toExpr declared lhs
    let b ← toExpr declared rhs
    return a.joined op b
  | .call name nameSpan arg _ =>
    if name = "Tr" ∨ name = "tr" then do return (← toExpr declared arg).traced
    else if name = "d" then differentialToExpr declared arg
    else .error (.on (unknownFunction declared.distance name) nameSpan)

end Formula

namespace Expr

variable {S : Type} [Scalar S]

/-- Reads an expression from a source text. -/
def read (declared : Declarations) (source : String) : Except (Located ReadError) (Expr S) :=
  match Formula.parse source with
  | .error e => .error (e.mapCause .parse)
  | .ok formula =>
    match formula.toExpr declared with
    | .error e => .error (e.mapCause .meaning)
    | .ok e => .ok e

end Expr

end TraceCalculus
