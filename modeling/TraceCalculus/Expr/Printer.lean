import TraceCalculus.Expr.Basic
import TraceCalculus.Text.Markup

/-! # Expressions as text

A node is bracketed where it binds looser than the node around it, and on the right of a
difference also where it binds as loosely. `text` is one line in the language of formulas, `latex`
is for typesetting, and `tree` draws the tree, a line a node.
-/

set_option autoImplicit false

namespace TraceCalculus.Expr

variable {S : Type}

/-- How loosely the top node binds. -/
def precedence : Expr S → Nat
  | .differential _ | .trace _ => 0
  | .var _ | .scalarVar _ | .literal _ | .null | .transpose _ => 1
  | .scale _ _ | .matMul _ _ => 3
  | .add _ _ | .sub _ _ => 4

/-- Whether `child` is bracketed below a node of precedence `outer`. A `strict` place also brackets
what binds equally. -/
def needsBrackets (outer : Nat) (strict : Bool) (child : Expr S) : Bool :=
  outer < child.precedence || (strict && child.precedence == outer)

/-- The text of an operand, in brackets if `enclosed`. -/
def enclose (enclosed : Bool) (s : String) : String := if enclosed then "(" ++ s ++ ")" else s

variable [Scalar S]

/-- The expression in one line, without white space. -/
def text : Expr S → String
  | .var name => name
  | .scalarVar name => name
  | .literal value => Scalar.text value
  | .null => "0"
  | .differential inner => "d(" ++ inner.text ++ ")"
  | .trace inner => "Tr(" ++ inner.text ++ ")"
  | .transpose inner => enclose (inner.needsBrackets 1 false) inner.text ++ "'"
  | .add lhs rhs =>
    enclose (lhs.needsBrackets 4 false) lhs.text ++ "+"
      ++ enclose (rhs.needsBrackets 4 false) rhs.text
  | .sub lhs rhs =>
    enclose (lhs.needsBrackets 4 false) lhs.text ++ "-"
      ++ enclose (rhs.needsBrackets 4 true) rhs.text
  | .scale lhs rhs | .matMul lhs rhs =>
    enclose (lhs.needsBrackets 3 false) lhs.text ++ "*"
      ++ enclose (rhs.needsBrackets 3 false) rhs.text

/-- The name between the brackets of a text such as `d(X)`. -/
def heldDifferential? (name : String) : Option String :=
  match name.toList with
  | 'd' :: '(' :: rest =>
    if rest.getLast? = some ')' then some (String.ofList rest.dropLast) else none
  | _ => none

/-- The name of a matrix. One that is the text of a differential is set as that differential. -/
def matrixLatex (name : String) : String :=
  match heldDifferential? name with
  | some inner => "\\partial " ++ Text.matrixName inner
  | none => Text.matrixName name

/-- The LaTeX of an operand, in brackets if `enclosed`. -/
def encloseLatex (enclosed : Bool) (s : String) : String :=
  if enclosed then Text.bracketed s else s

/-- The expression in LaTeX. -/
def latex : Expr S → String
  | .var name => matrixLatex name
  | .scalarVar name => name
  | .literal value => Scalar.text value
  | .null => "0"
  | .differential inner => "\\partial " ++ inner.latex
  | .trace inner => "\\mathrm" ++ Text.braced "Tr" ++ Text.bracketed inner.latex
  | .transpose inner =>
    encloseLatex (inner.needsBrackets 1 false) inner.latex ++ Text.transposeMark
  | .add lhs rhs =>
    encloseLatex (lhs.needsBrackets 4 false) lhs.latex ++ " + "
      ++ encloseLatex (rhs.needsBrackets 4 false) rhs.latex
  | .sub lhs rhs =>
    encloseLatex (lhs.needsBrackets 4 false) lhs.latex ++ " - "
      ++ encloseLatex (rhs.needsBrackets 4 true) rhs.latex
  | .scale lhs rhs | .matMul lhs rhs =>
    encloseLatex (lhs.needsBrackets 3 false) lhs.latex ++ " "
      ++ encloseLatex (rhs.needsBrackets 3 false) rhs.latex

/-- What a drawn tree shows of a node. -/
def label : Expr S → String
  | .var name => "Variable " ++ name
  | .scalarVar name => "ScalarVariable " ++ name
  | .literal value => "Scalar " ++ Scalar.text value
  | .transpose _ => "Star '"
  | e => e.kind.label

/-- The lines of a drawn tree, each node two columns to the right of the node around it. -/
def outline (depth : Nat) (e : Expr S) : List String :=
  (String.ofList (List.replicate (2 * depth) ' ') ++ e.label) ::
    match e with
    | .differential inner | .trace inner | .transpose inner => inner.outline (depth + 1)
    | .add lhs rhs | .sub lhs rhs | .scale lhs rhs | .matMul lhs rhs =>
      lhs.outline (depth + 1) ++ rhs.outline (depth + 1)
    | _ => []

/-- The drawn tree, every line ended. -/
def tree (e : Expr S) : String := String.join ((e.outline 0).map (· ++ "\n"))

end TraceCalculus.Expr
