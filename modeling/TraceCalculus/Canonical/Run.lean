import TraceCalculus.Canonical.Step

/-! # Canonicalization

In each stage every node is brought to a fixed point from the leaves up: its operands are settled
and the node is built again, until nothing changes; then rules are applied to it, each followed by
settling the operands of the new node. The three stages are repeated until a whole round changes
nothing.

Two rules may undo each other. At a node, the rule applied last is therefore tried after all
others, and an expression that has been there before is never gone back to. A budget bounds the
number of steps; a run that exceeds it ends with the expression as it then is.

No bound on the length of a run is known in advance, so every loop takes a `fuel`, and a run that
is out of fuel is distinct from one that has ended.
-/

set_option autoImplicit false

namespace TraceCalculus

namespace Canonical

/-- The choices of a run. -/
structure Options where
  /-- The largest number of steps, none for no limit. -/
  budget : Option Nat := none
  /-- Whether to remember the settled form of subexpressions within a stage. -/
  memoize : Bool := true
  deriving DecidableEq

/-- What a run has done so far. -/
structure Journal (S : Type) where
  /-- The rules applied, the earliest first. -/
  steps : Array (Step S) := #[]
  /-- Whether the budget ran out. No rule is applied from then on. -/
  exhausted : Bool := false
  /-- Subexpressions with their settled form, the latest first. -/
  memo : List (Expr S × Expr S) := []

/-- The run is out of fuel. -/
inductive OutOfFuel where
  | outOfFuel
  deriving DecidableEq

/-- A part of a run. What was done is kept also when the fuel runs out. -/
abbrev Running (S : Type) := EStateM OutOfFuel (Journal S)

variable {S : Type} [Scalar S]

/-- Whether the expression is one of those seen. -/
def isSeen (seen : List (Expr S)) (e : Expr S) : Bool := seen.any (· == e)

/-- The settled form that was remembered for an expression. -/
def Journal.recall? (journal : Journal S) (e : Expr S) : Option (Expr S) :=
  (journal.memo.find? (·.1 == e)).map (·.2)

/-- Remembers the settled form of an expression, which is also its own. -/
def Journal.remember (journal : Journal S) (e settled : Expr S) : Journal S :=
  { journal with memo := (settled, settled) :: (e, settled) :: journal.memo }

/-- Records a step if the budget allows it, and tells whether it did. -/
def spend (options : Options) (step : Step S) : Running S Bool := do
  let journal ← get
  if options.budget.any (· ≤ journal.steps.size) then
    set { journal with exhausted := true }
    return false
  else
    set { journal with steps := journal.steps.push step }
    return true

/-- Visits the operands of a node from left to right and builds the node again, simplified. -/
def rebuild (visit : List Nat → Expr S → Running S (Expr S)) (path : List Nat) :
    Expr S → Running S (Expr S)
  | .differential inner => do return .differential (← visit (path ++ [1]) inner).asOperand
  | .trace inner => do return (← visit (path ++ [1]) inner).traced
  | .transpose inner => do return (← visit (path ++ [1]) inner).transposed
  | .add lhs rhs => do
    let a ← visit (path ++ [1]) lhs
    let b ← visit (path ++ [2]) rhs
    return a + b
  | .sub lhs rhs => do
    let a ← visit (path ++ [1]) lhs
    let b ← visit (path ++ [2]) rhs
    return a - b
  | .scale lhs rhs | .matMul lhs rhs => do
    let a ← visit (path ++ [1]) lhs
    let b ← visit (path ++ [2]) rhs
    return a * b
  | leaf => return leaf

/-- Settles the operands of a node and builds it again, until that changes nothing or leads back to
an expression seen before. -/
def settleOperands (visit : List Nat → Expr S → Running S (Expr S)) (path : List Nat) :
    Nat → List (Expr S) → Expr S → Running S (Expr S)
  | 0, _, _ => throw .outOfFuel
  | fuel + 1, seen, e => do
    let next ← rebuild visit path e
    if next == e || (← get).exhausted || isSeen seen next then return next
    else settleOperands visit path fuel (next :: seen) next

/-- The rule to apply to a node: the first match that leads to an expression not seen before, where
matches with the replacement applied last come after all others. -/
def choose (rules : List (Rule S)) (seen : List (Expr S)) (previous : Option (Expr S))
    (e : Expr S) : Option (RuleMatch S) :=
  let found := ruleMatches e rules
  let isRepeated := fun (m : RuleMatch S) => previous.any (m.rule.replacement == ·)
  let ordered := found.filter (!isRepeated ·) ++ found.filter isRepeated
  ordered.find? fun m => !(m.output == e) && !isSeen seen m.output

/-- Applies rules to a node, settling the operands after each, until none applies, the budget is
spent, or an expression seen before comes back. -/
def applyRules (options : Options) (stage : Stage) (rules : List (Rule S))
    (operands : Expr S → Running S (Expr S)) (path : List Nat) :
    Nat → List (Expr S) → Option (Expr S) → Expr S → Running S (Expr S)
  | 0, _, _, _ => throw .outOfFuel
  | fuel + 1, seen, previous, e => do
    if (← get).exhausted then return e
    match choose rules seen previous e with
    | none => return e
    | some m =>
      if ← spend options ⟨stage, path, m.rule, e, m.output⟩ then
        let next ← operands m.output
        if isSeen seen next then return next
        else
          applyRules options stage rules operands path fuel (next :: seen)
            (some m.rule.replacement) next
      else return e

/-- Brings an expression to a fixed point of the rules, operands first. -/
def settle (options : Options) (stage : Stage) (rules : List (Rule S)) :
    Nat → List Nat → Expr S → Running S (Expr S)
  | 0, _, _ => throw .outOfFuel
  | fuel + 1, path, e => do
    let journal ← get
    match if options.memoize then journal.recall? e else none with
    | some settled => return settled
    | none =>
      let operands := fun e => settleOperands (settle options stage rules fuel) path fuel [e] e
      let start ← operands e
      let settled ← applyRules options stage rules operands path fuel [start] none start
      modify fun journal =>
        if options.memoize && !journal.exhausted then journal.remember e settled else journal
      return settled

/-- Runs one stage on a whole expression. Nothing is remembered from earlier stages. -/
def runStage (options : Options) (fuel : Nat) (stage : Stage) (e : Expr S) :
    Running S (Expr S) := do
  modify fun journal => { journal with memo := [] }
  settle options stage stage.rules fuel [1] e

/-- Runs the three stages in turn. -/
def runStages (options : Options) (fuel : Nat) (e : Expr S) : Running S (Expr S) :=
  Stage.all.foldlM (fun e stage => runStage options fuel stage e) e

/-- Repeats the stages until a round changes nothing, leads back to the result of an earlier one,
or the budget is spent. -/
def rounds (options : Options) (fuel : Nat) :
    Nat → List (Expr S) → Expr S → Running S (Expr S)
  | 0, _, _ => throw .outOfFuel
  | turns + 1, seen, e => do
    let next ← runStages options fuel e
    if (← get).exhausted || next == e || isSeen seen next then return next
    else rounds options fuel turns (next :: seen) next

/-- The budget ran out before a fixed point was reached. -/
structure BudgetSpent (S : Type) where
  budget : Nat
  /-- The expression as it was then. -/
  remainder : Expr S

/-- The wording of the fact. -/
def BudgetSpent.notice (e : BudgetSpent S) : Notice where
  severity := .warning
  message := "canonicalization did not converge within "
    ++ String.ofList (Nat.toDigits 10 e.budget) ++ " rewrites"
  label := "this expression"
  help := some ("the partially canonical form is " ++ quoted e.remainder.text)

/-- How a run ended. -/
inductive Outcome (S : Type) where
  | converged (e : Expr S)
  | exhausted (e : BudgetSpent S)
  | outOfFuel

/-- The expression a run ended with. -/
def Outcome.result? : Outcome S → Option (Expr S)
  | .converged e => some e
  | .exhausted e => some e.remainder
  | .outOfFuel => none

/-- A run that is over: how it ended, and its steps. -/
structure Record (S : Type) where
  outcome : Outcome S
  steps : List (Step S)

/-- Canonicalizes an expression. -/
def run (options : Options) (fuel : Nat) (e : Expr S) : Record S :=
  match rounds options fuel fuel [e] e {} with
  | .error _ journal => ⟨.outOfFuel, journal.steps.toList⟩
  | .ok result journal =>
    let outcome :=
      if journal.exhausted then
        .exhausted ⟨options.budget.getD journal.steps.size, result⟩
      else .converged result
    ⟨outcome, journal.steps.toList⟩

end Canonical

/-- The canonical form of an expression, none if the fuel does not suffice. -/
def Expr.canonicalize? {S : Type} [Scalar S] (fuel : Nat) (e : Expr S) : Option (Expr S) :=
  (Canonical.run {} fuel e).outcome.result?

end TraceCalculus
