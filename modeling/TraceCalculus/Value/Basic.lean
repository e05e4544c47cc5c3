import TraceCalculus.Notice
import TraceCalculus.Operator
import TraceCalculus.Value.Grid

/-! # Values

An expression evaluates to a scalar or to a matrix. A scalar joined with a matrix is joined with
each of its entries.
-/

set_option autoImplicit false

namespace TraceCalculus

/-- A value of an expression. -/
inductive Value (S : Type) where
  | scalar (value : S)
  | matrix (m : Grid S)

/-- The causes for which an expression has no value. -/
inductive EvalError where
  | undefinedVariable (name : String) (suggestions : List String)
  | shapeMismatch (op : Operator) (left right : Shape)
  | notSquare (shape : Shape)
  | expectedScalar (shape : Shape)
  deriving DecidableEq

/-- The wording of each cause. -/
def EvalError.notice : EvalError → Notice
  | .undefinedVariable name suggestions =>
    { message := quoted name ++ " is not defined"
      label := "in this expression"
      help := some (match suggestions with
        | [] => "bind a value to " ++ name ++ " before evaluating"
        | many => "did you mean " ++ ", ".intercalate (many.map quoted) ++ "?") }
  | .shapeMismatch op left right =>
    { message := "cannot apply " ++ quoted op.symbol ++ " to operands of shape " ++ left.text
        ++ " and " ++ right.text
      label := "in this expression"
      help := some (match op with
        | .times => "the left operand must have as many columns as the right operand has rows"
        | _ => "both operands must have the same shape, or one of them must be a scalar") }
  | .notSquare shape =>
    { message := "cannot take the trace of a " ++ shape.text ++ " matrix"
      label := "in this expression"
      help := some "only square matrices have a trace" }
  | .expectedScalar shape =>
    { message := "expected a scalar, but found a " ++ shape.text ++ " matrix"
      label := "this expression"
      help := some "wrap the expression in `Tr(..)` to reduce it to a scalar" }

namespace Value

variable {S : Type}

/-- Which of the two a value is. -/
def typeName : Value S → String
  | .scalar _ => "scalar"
  | .matrix _ => "matrix"

/-- The shape of a value; a scalar has one row and one column. -/
def shape : Value S → Shape
  | .scalar _ => ⟨1, 1⟩
  | .matrix m => m.shape

/-- The number a value holds. A matrix with one row and one column will do. -/
def toScalar : Value S → Except EvalError S
  | .scalar value => .ok value
  | .matrix m =>
    if h : m.rows = 1 ∧ m.cols = 1 then
      .ok (m.entry ⟨0, by omega⟩ ⟨0, by omega⟩)
    else .error (.expectedScalar m.shape)

/-- The value as a matrix; a scalar has one row and one column. -/
def toGrid : Value S → Grid S
  | .scalar value => .fill 1 1 value
  | .matrix m => m

/-- Joins two values entry by entry. -/
def elementwise (op : Operator) (f : S → S → S) : Value S → Value S → Except EvalError (Value S)
  | .scalar a, .scalar b => .ok (.scalar (f a b))
  | .scalar a, .matrix b => .ok (.matrix (b.map (f a ·)))
  | .matrix a, .scalar b => .ok (.matrix (a.map (f · b)))
  | .matrix a, .matrix b =>
    match a.zipWith? f b with
    | some m => .ok (.matrix m)
    | none => .error (.shapeMismatch op a.shape b.shape)

/-- The transpose; a scalar is its own. -/
def transpose : Value S → Value S
  | .scalar value => .scalar value
  | .matrix m => .matrix m.transpose

variable [Scalar S]

/-- The sum. -/
def add : Value S → Value S → Except EvalError (Value S) := elementwise .plus (· + ·)

/-- The difference. -/
def sub : Value S → Value S → Except EvalError (Value S) := elementwise .minus (· - ·)

/-- The product. A scalar scales the other operand. -/
def mul : Value S → Value S → Except EvalError (Value S)
  | .matrix a, .matrix b =>
    match a.mul? b with
    | some m => .ok (.matrix m)
    | none => .error (.shapeMismatch .times a.shape b.shape)
  | a, b => elementwise .times (· * ·) a b

/-- The trace; a scalar is its own. -/
def trace : Value S → Except EvalError (Value S)
  | .scalar value => .ok (.scalar value)
  | .matrix m =>
    match m.trace? with
    | some t => .ok (.scalar t)
    | none => .error (.notSquare m.shape)

/-- The value as text. -/
def text : Value S → String
  | .scalar value => Scalar.text value
  | .matrix m => m.text

end Value

end TraceCalculus
