import TraceCalculus.Expr.Basic

/-! # Visiting the nodes of an expression

`postOrder` lists the subexpressions of an expression, operands before the node they belong to.
`walk` yields the same nodes one after the other, each with `next?` from a stack of pending nodes, and
so needs no deep recursion.
-/

set_option autoImplicit false

namespace TraceCalculus.Expr

variable {S : Type}

/-- The subexpressions from left to right, every node after its operands. -/
def postOrder : Expr S → List (Expr S)
  | .differential inner => inner.postOrder ++ [.differential inner]
  | .trace inner => inner.postOrder ++ [.trace inner]
  | .transpose inner => inner.postOrder ++ [.transpose inner]
  | .add lhs rhs => lhs.postOrder ++ rhs.postOrder ++ [.add lhs rhs]
  | .sub lhs rhs => lhs.postOrder ++ rhs.postOrder ++ [.sub lhs rhs]
  | .scale factor body => factor.postOrder ++ body.postOrder ++ [.scale factor body]
  | .matMul lhs rhs => lhs.postOrder ++ rhs.postOrder ++ [.matMul lhs rhs]
  | leaf => [leaf]

/-- A node still to be visited, and whether its operands are on the stack already. -/
structure Pending (S : Type) where
  node : Expr S
  expanded : Bool

/-- How many turns a pending node takes: one to visit it, and one to expand each of its nodes. -/
def Pending.cost (p : Pending S) : Nat := if p.expanded then 1 else 2 * p.node.size

/-- How many turns a stack takes. -/
def stackCost (stack : List (Pending S)) : Nat := stack.foldr (fun p cost => p.cost + cost) 0

@[simp] theorem stackCost_nil : stackCost ([] : List (Pending S)) = 0 := rfl

@[simp] theorem stackCost_cons (p : Pending S) (stack : List (Pending S)) :
    stackCost (p :: stack) = p.cost + stackCost stack := rfl

@[simp] theorem stackCost_append (stack stack' : List (Pending S)) :
    stackCost (stack ++ stack') = stackCost stack + stackCost stack' := by
  induction stack with
  | nil => simp
  | cons p stack ih => simp [ih, Nat.add_assoc]

/-- The stack with an operator put back below its operands. -/
def expand (node : Expr S) (stack : List (Pending S)) : List (Pending S) :=
  node.children.map (⟨·, false⟩) ++ ⟨node, true⟩ :: stack

theorem stackCost_expand_lt (node : Expr S) (stack : List (Pending S)) :
    stackCost (node.expand stack) < stackCost (⟨node, false⟩ :: stack) := by
  cases node <;> simp [expand, children, size, Pending.cost] <;> omega

/-- The next node of a stack and what it leaves pending, none if nothing is. An operator is expanded
when it comes up first, and is the next node when it comes up again. -/
def next? : List (Pending S) → Option (Expr S × List (Pending S))
  | [] => none
  | ⟨node, true⟩ :: stack => some (node, stack)
  | ⟨node, false⟩ :: stack =>
    if node.children.isEmpty then some (node, stack) else next? (node.expand stack)
termination_by stack => stackCost stack
decreasing_by exact stackCost_expand_lt node stack

theorem stackCost_lt_of_next? {stack rest : List (Pending S)} {node : Expr S}
    (h : next? stack = some (node, rest)) : stackCost rest < stackCost stack := by
  fun_induction next? stack with
  | case1 => cases h
  | case2 node stack =>
    cases h
    exact Nat.lt_add_of_pos_left Nat.one_pos
  | case3 node stack =>
    cases h
    exact Nat.lt_add_of_pos_left (Nat.mul_pos Nat.two_pos node.size_pos)
  | case4 node stack _ ih => exact Nat.lt_trans (ih h) (stackCost_expand_lt node stack)

/-- The nodes that a stack yields, one after the other. -/
def walk (stack : List (Pending S)) : List (Expr S) :=
  match _h : next? stack with
  | none => []
  | some (node, rest) => node :: walk rest
termination_by stackCost stack
decreasing_by exact stackCost_lt_of_next? ‹_›

/-- The subexpressions in the order the stack yields them. -/
def visits (e : Expr S) : List (Expr S) := walk [⟨e, false⟩]

end TraceCalculus.Expr
