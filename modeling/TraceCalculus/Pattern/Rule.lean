import TraceCalculus.Expr.Printer
import TraceCalculus.Expr.Traversal
import TraceCalculus.Pattern.Template
import TraceCalculus.Text.Names

/-! # Rules

A rule replaces what its pattern matches by its replacement, with the variables filled in. Of the
rules that match an expression the one with the largest pattern comes first, since it is the most
specific.
-/

set_option autoImplicit false

namespace TraceCalculus

/-- What matches the pattern may be replaced. -/
structure Rule (S : Type) where
  pattern : Expr S
  replacement : Expr S

/-- A replacement uses a variable that its pattern does not bind. -/
structure UnboundName where
  name : String
  deriving DecidableEq

/-- The wording of the fault. -/
def UnboundName.notice (e : UnboundName) : Notice where
  message := "the replacement uses " ++ quoted e.name ++ ", which the pattern does not bind"
  label := "this rule"
  help := some "every variable in the replacement must also appear in the pattern"

/-- A rule that matches an expression. -/
structure RuleMatch (S : Type) where
  rule : Rule S
  /-- The index of the rule in its rule set. -/
  index : Nat
  assignment : Assignment S

namespace Expr

variable {S : Type}

/-- The names of the variables in an expression, in order. -/
def variableNames (e : Expr S) : List String :=
  (Text.Names.ofList (e.visits.filterMap name?)).toList

end Expr

namespace Rule

variable {S : Type}

/-- How specific a rule is: the number of nodes in its pattern. -/
def size (rule : Rule S) : Nat := rule.pattern.size

/-- The variables that the pattern binds. -/
def variableNames (rule : Rule S) : List String := rule.pattern.variableNames

/-- The first variable of the replacement that the pattern does not bind. -/
def unbound? (rule : Rule S) : Option UnboundName :=
  (rule.replacement.variableNames.find? (· ∉ rule.variableNames)).map (⟨·⟩)

/-- The rule in one line. -/
def text [Scalar S] (rule : Rule S) : String := rule.pattern.text ++ " -> " ++ rule.replacement.text

/-- The replacement of a rule with the variables filled in, simplified as it is built. -/
def apply [Scalar S] (rule : Rule S) (σ : Assignment S) : Expr S :=
  (Template.ofExpr rule.replacement).fill σ

end Rule

namespace RuleMatch

variable {S : Type}

/-- How a rule matches an expression, none if it does not or leaves a variable without anything. -/
def of? [Scalar S] (e : Expr S) (rule : Rule S) (index : Nat) : Option (RuleMatch S) :=
  match e.matchAgainst rule.pattern with
  | .error _ => none
  | .ok σ => if rule.variableNames.all (σ.get? · |>.isSome) then some ⟨rule, index, σ⟩ else none

/-- What the expression is replaced by. -/
def output [Scalar S] (m : RuleMatch S) : Expr S := m.rule.apply m.assignment

/-- Puts a match before the first one that is not larger. -/
def insert (m : RuleMatch S) : List (RuleMatch S) → List (RuleMatch S)
  | [] => [m]
  | n :: rest => if n.rule.size ≤ m.rule.size then m :: n :: rest else n :: insert m rest

end RuleMatch

/-- The rules that match an expression, larger patterns first, otherwise in the order of the rule
set. -/
def ruleMatches {S : Type} [Scalar S] (e : Expr S) (rules : List (Rule S)) : List (RuleMatch S) :=
  (rules.zipIdx.filterMap fun (rule, index) => RuleMatch.of? e rule index).foldr
    RuleMatch.insert []

end TraceCalculus
