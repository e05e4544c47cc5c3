import TraceCalculus.Expr.Build
import TraceCalculus.Operator
import TraceCalculus.Pattern.Matching

/-! # Filling in a replacement

`Expr.subst` puts expressions in the place of variables and simplifies every node on the way up. A
`Template` does the same without recursion: the replacement is laid out as a list of nodes,
operands first, and each place where a variable occurs is recorded. What the variables have taken
is put at those places, and the nodes are then built in order.
-/

set_option autoImplicit false

namespace TraceCalculus

namespace Expr

variable {S : Type} [Scalar S]

/-- Puts what the variables have taken in their place. A variable that has taken nothing stays. -/
def subst (σ : Assignment S) : Expr S → Expr S
  | .var name => (σ.get? name).getD (.var name)
  | .scalarVar name => (σ.get? name).getD (.scalarVar name)
  | .literal value => .literal value
  | .null => .null
  | .differential inner => .differential (inner.subst σ).asOperand
  | .trace inner => (inner.subst σ).traced
  | .transpose inner => (inner.subst σ).transposed
  | .add lhs rhs => lhs.subst σ + rhs.subst σ
  | .sub lhs rhs => lhs.subst σ - rhs.subst σ
  | .scale lhs rhs | .matMul lhs rhs => lhs.subst σ * rhs.subst σ

end Expr

namespace Template

/-- The nodes with one operand. -/
inductive Unary where
  | differential
  | trace
  | transpose
  deriving DecidableEq

/-- A node of a replacement. Operands are given by their index in the list. -/
inductive Node (S : Type) where
  /-- A variable, with the expression that stands there if it has taken nothing. -/
  | hole (name : String) (fallback : Expr S)
  /-- A leaf that is copied. -/
  | leaf (e : Expr S)
  | unary (op : Unary) (operand : Nat)
  /-- Both products are one operator: which one is meant follows from the operands. -/
  | binary (op : Operator) (lhs rhs : Nat)

/-- A place where a variable occurs. -/
structure Place where
  /-- The node the variable is an operand of, none at the root. -/
  parent : Option Nat
  /-- Which operand of that node it is. -/
  position : Nat
  name : String
  deriving DecidableEq

end Template

/-- A replacement laid out in a list of nodes, the root last. -/
structure Template (S : Type) where
  nodes : Array (Template.Node S)
  places : List Template.Place

namespace Template

variable {S : Type}

/-- A node behind the nodes of its operand, in a list that has `start` nodes already. -/
def onUnary (start : Nat) (op : Unary) (inner : List (Node S)) : List (Node S) :=
  inner ++ [.unary op (start + inner.length - 1)]

/-- A node behind the nodes of its operands, in a list that has `start` nodes already. -/
def onBinary (start : Nat) (op : Operator) (lhs rhs : List (Node S)) : List (Node S) :=
  lhs ++ rhs ++ [.binary op (start + lhs.length - 1) (start + lhs.length + rhs.length - 1)]

/-- The nodes of an expression, for a list that has `start` nodes already. -/
def layout (start : Nat) : Expr S → List (Node S)
  | .var name => [.hole name (.var name)]
  | .scalarVar name => [.hole name (.scalarVar name)]
  | .literal value => [.leaf (.literal value)]
  | .null => [.leaf .null]
  | .differential inner => onUnary start .differential (layout start inner)
  | .trace inner => onUnary start .trace (layout start inner)
  | .transpose inner => onUnary start .transpose (layout start inner)
  | .add lhs rhs => onBinary start .plus (layout start lhs) (layout (start + lhs.size) rhs)
  | .sub lhs rhs => onBinary start .minus (layout start lhs) (layout (start + lhs.size) rhs)
  | .scale lhs rhs | .matMul lhs rhs =>
    onBinary start .times (layout start lhs) (layout (start + lhs.size) rhs)

/-- Every node of an expression has its place in the list. -/
theorem length_layout (start : Nat) (e : Expr S) : (layout start e).length = e.size := by
  induction e generalizing start <;> simp_all [layout, onUnary, onBinary, Expr.size, Nat.add_assoc]

/-- The operands of a node. -/
def Node.operands : Node S → List Nat
  | .hole _ _ | .leaf _ => []
  | .unary _ a => [a]
  | .binary _ a b => [a, b]

/-- The variable at a node. -/
def Node.hole? : Node S → Option String
  | .hole name _ => some name
  | _ => none

/-- The variable at an index of the list. -/
def holeAt? (nodes : Array (Node S)) (index : Nat) : Option String := nodes[index]?.bind Node.hole?

/-- The places in a list of nodes, parent by parent, and the root if it is a variable itself. -/
def findPlaces (nodes : Array (Node S)) : List Place :=
  let below := nodes.toList.zipIdx.flatMap fun (node, parent) =>
    node.operands.zipIdx.filterMap fun (operand, position) =>
      (holeAt? nodes operand).map fun name => ⟨some parent, position, name⟩
  below ++ ((holeAt? nodes (nodes.size - 1)).map fun name => ⟨none, 0, name⟩).toList

/-- The template of a replacement. -/
def ofExpr (e : Expr S) : Template S :=
  let nodes := (layout 0 e).toArray
  ⟨nodes, findPlaces nodes⟩

/-- The index of the node at a place. -/
def indexOf? (t : Template S) (place : Place) : Option Nat :=
  match place.parent with
  | none => if t.nodes.size = 0 then none else some (t.nodes.size - 1)
  | some parent => t.nodes[parent]?.bind fun node => node.operands[place.position]?

/-- Whether a node is a transpose. -/
def isTranspose (t : Template S) (index : Nat) : Bool :=
  match t.nodes[index]? with
  | some (.unary .transpose _) => true
  | _ => false

/-- What is put at a place, and at which index. A transpose put under a transpose takes the place
of the outer one, without its own. -/
def entry? (t : Template S) (σ : Assignment S) (place : Place) : Option (Nat × Expr S) :=
  match σ.get? place.name, t.indexOf? place with
  | some e, some index =>
    match place.parent, e with
    | some parent, .transpose inner =>
      if t.isTranspose parent then some (parent, inner) else some (index, .transpose inner)
    | _, e => some (index, e)
  | _, _ => none

variable [Scalar S]

/-- Builds a node from the nodes before it. -/
def Node.build (built : Array (Expr S)) : Node S → Expr S
  | .hole _ fallback => fallback
  | .leaf e => e
  | .unary op a =>
    let a := built[a]?.getD .null
    match op with
    | .differential => .differential a.asOperand
    | .trace => a.traced
    | .transpose => a.transposed
  | .binary op a b => (built[a]?.getD .null).joined op (built[b]?.getD .null)

/-- Builds the nodes in order, behind those built already. An entry for a node takes its place. -/
def buildAll (entries : List (Nat × Expr S)) : List (Node S) → Array (Expr S) → Array (Expr S)
  | [], built => built
  | node :: rest, built =>
    buildAll entries rest (built.push ((entries.lookup built.size).getD (node.build built)))

/-- The replacement with its variables filled in. Of two entries for a node the later counts. -/
def fill (t : Template S) (σ : Assignment S) : Expr S :=
  let entries := (t.places.filterMap (t.entry? σ)).reverse
  (buildAll entries t.nodes.toList #[]).back?.getD .null

end Template

end TraceCalculus
