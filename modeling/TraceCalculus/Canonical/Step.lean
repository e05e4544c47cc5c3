import TraceCalculus.Canonical.Stage

/-! # The steps of a canonicalization -/

set_option autoImplicit false

namespace TraceCalculus

/-- The application of one rule. -/
structure Step (S : Type) where
  stage : Stage
  /-- The place of the node: the root is `[1]`, and each further number counts operands. -/
  path : List Nat
  rule : Rule S
  /-- The node as the rule found it. -/
  before : Expr S
  /-- The node as the rule left it, before its operands were looked at again. -/
  after : Expr S

namespace Step

variable {S : Type}

/-- The place of the node, with points between the numbers. -/
def pathText (step : Step S) : String :=
  ".".intercalate (step.path.map fun i => String.ofList (Nat.toDigits 10 i))

/-- The rule and the node, a line each. -/
def text [Scalar S] (step : Step S) : String :=
  let place := "[" ++ step.pathText ++ "] "
  place ++ "Applying " ++ step.rule.text ++ "\n"
    ++ place ++ ":: " ++ step.before.text ++ " -> " ++ step.after.text

end Step

end TraceCalculus
