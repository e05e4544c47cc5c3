import TraceCalculus.Scalar.Basic

/-! # Expressions

An expression is a tree over matrix variables, scalar variables and literals. Every constructor is
available as it is, so a tree need not be simplified; `TraceCalculus.Expr.Build` has the
constructors that simplify.
-/

set_option autoImplicit false

namespace TraceCalculus

/-- A matrix or scalar expression. -/
inductive Expr (S : Type) where
  /-- A matrix variable. -/
  | var (name : String)
  /-- A scalar variable. -/
  | scalarVar (name : String)
  /-- A numeric literal. -/
  | literal (value : S)
  /-- The zero element: it absorbs products and vanishes from sums. -/
  | null
  /-- The differential of a variable. -/
  | differential (inner : Expr S)
  | add (lhs rhs : Expr S)
  | sub (lhs rhs : Expr S)
  /-- An expression scaled by a scalar, which stands on the left. -/
  | scale (factor body : Expr S)
  /-- A matrix product. -/
  | matMul (lhs rhs : Expr S)
  | trace (inner : Expr S)
  | transpose (inner : Expr S)

/-- The constructor of an expression, without its contents. -/
inductive Expr.Kind where
  | var
  | scalarVar
  | literal
  | null
  | differential
  | add
  | sub
  | scale
  | matMul
  | trace
  | transpose
  deriving DecidableEq

namespace Expr

/-- What a kind is called in a drawn tree. -/
def Kind.label : Kind → String
  | .var => "Variable"
  | .scalarVar => "ScalarVariable"
  | .literal => "Scalar"
  | .null => "Null"
  | .differential => "Differential"
  | .add => "Add"
  | .sub => "Sub"
  | .scale => "ScalarMul"
  | .matMul => "MatMul"
  | .trace => "Trace"
  | .transpose => "Star"

/-- All kinds, leaves first. -/
def Kind.all : List Kind :=
  [.var, .scalarVar, .literal, .null, .differential, .add, .sub, .scale, .matMul, .trace,
    .transpose]

variable {S : Type}

/-- The constructor an expression is built with. -/
def kind : Expr S → Kind
  | .var _ => .var
  | .scalarVar _ => .scalarVar
  | .literal _ => .literal
  | .null => .null
  | .differential _ => .differential
  | .add _ _ => .add
  | .sub _ _ => .sub
  | .scale _ _ => .scale
  | .matMul _ _ => .matMul
  | .trace _ => .trace
  | .transpose _ => .transpose

/-- Whether the expression is plainly a scalar: a literal, a scalar variable, or one scaled by
another. A trace is a number too, but is not counted here. -/
def isScalar : Expr S → Bool
  | .literal _ => true
  | .scalarVar _ => true
  | .scale factor body => factor.isScalar && body.isScalar
  | _ => false

/-- The name of a variable of either kind. -/
def name? : Expr S → Option String
  | .var name => some name
  | .scalarVar name => some name
  | _ => none

/-- The name of the variable a differential is taken of. -/
def differentialOf? : Expr S → Option String
  | .differential inner => inner.name?
  | _ => none

/-- The direct subexpressions, left to right. -/
def children : Expr S → List (Expr S)
  | .var _ | .scalarVar _ | .literal _ | .null => []
  | .differential inner | .trace inner | .transpose inner => [inner]
  | .add lhs rhs | .sub lhs rhs | .scale lhs rhs | .matMul lhs rhs => [lhs, rhs]

/-- The same node over changed subexpressions. -/
def mapChildren (f : Expr S → Expr S) : Expr S → Expr S
  | .var name => .var name
  | .scalarVar name => .scalarVar name
  | .literal value => .literal value
  | .null => .null
  | .differential inner => .differential (f inner)
  | .add lhs rhs => .add (f lhs) (f rhs)
  | .sub lhs rhs => .sub (f lhs) (f rhs)
  | .scale factor body => .scale (f factor) (f body)
  | .matMul lhs rhs => .matMul (f lhs) (f rhs)
  | .trace inner => .trace (f inner)
  | .transpose inner => .transpose (f inner)

/-- The number of nodes. -/
def size : Expr S → Nat
  | .var _ | .scalarVar _ | .literal _ | .null => 1
  | .differential inner | .trace inner | .transpose inner => inner.size + 1
  | .add lhs rhs | .sub lhs rhs | .scale lhs rhs | .matMul lhs rhs => lhs.size + rhs.size + 1

theorem size_pos (e : Expr S) : 0 < e.size := by
  cases e <;> simp [size]

/-- Changes every literal, given its place. The nodes of an expression take up places from `start`
on, those of the left operand before those of the right one, so no two literals share a place. -/
def mapLiterals {T : Type} (f : Nat → S → T) (start : Nat) : Expr S → Expr T
  | .var name => .var name
  | .scalarVar name => .scalarVar name
  | .literal value => .literal (f start value)
  | .null => .null
  | .differential inner => .differential (inner.mapLiterals f start)
  | .add lhs rhs => .add (lhs.mapLiterals f start) (rhs.mapLiterals f (start + lhs.size))
  | .sub lhs rhs => .sub (lhs.mapLiterals f start) (rhs.mapLiterals f (start + lhs.size))
  | .scale factor body =>
    .scale (factor.mapLiterals f start) (body.mapLiterals f (start + factor.size))
  | .matMul lhs rhs => .matMul (lhs.mapLiterals f start) (rhs.mapLiterals f (start + lhs.size))
  | .trace inner => .trace (inner.mapLiterals f start)
  | .transpose inner => .transpose (inner.mapLiterals f start)

theorem mapLiterals_eq_self {f : Nat → S → S} (h : ∀ n x, f n x = x) (start : Nat) (e : Expr S) :
    e.mapLiterals f start = e := by
  induction e generalizing start <;> simp_all [mapLiterals]

/-- Whether a node of the given kind occurs in the expression. -/
def contains (k : Kind) : Expr S → Bool
  | .differential inner => k == .differential || inner.contains k
  | .trace inner => k == .trace || inner.contains k
  | .transpose inner => k == .transpose || inner.contains k
  | .add lhs rhs => k == .add || lhs.contains k || rhs.contains k
  | .sub lhs rhs => k == .sub || lhs.contains k || rhs.contains k
  | .scale factor body => k == .scale || factor.contains k || body.contains k
  | .matMul lhs rhs => k == .matMul || lhs.contains k || rhs.contains k
  | leaf => k == leaf.kind

/-- Whether a differential occurs in the expression. -/
abbrev hasDifferential (e : Expr S) : Bool := e.contains .differential

/-- The expression as an operand of a new node. A literal becomes a new operand there; any other
expression brings its own operands along. -/
def asOperand [Scalar S] : Expr S → Expr S
  | .literal value => .literal (Scalar.anew value)
  | e => e

theorem size_asOperand [Scalar S] (e : Expr S) : e.asOperand.size = e.size := by
  cases e <;> rfl

theorem asOperand_eq_self [Scalar S] (h : ∀ x : S, Scalar.anew x = x) (e : Expr S) :
    e.asOperand = e := by
  cases e <;> simp [asOperand, h]

/-- The expression with every literal at a place of its own. What is copied from it later has the
same operands as it has. -/
def placed [Scalar S] (e : Expr S) : Expr S := e.mapLiterals Scalar.placed 0

theorem placed_eq_self [Scalar S] (h : ∀ (n : Nat) (x : S), Scalar.placed n x = x) (e : Expr S) :
    e.placed = e :=
  mapLiterals_eq_self h 0 e

/-- Whether two operands are the same: they have the same structure, and their literals are alike
as operands. -/
def sameOperand [Scalar S] : Expr S → Expr S → Bool
  | .var a, .var b => a == b
  | .scalarVar a, .scalarVar b => a == b
  | .literal a, .literal b => Scalar.alike a b
  | .null, .null => true
  | .differential a, .differential b => a.sameOperand b
  | .add a b, .add c d => a.sameOperand c && b.sameOperand d
  | .sub a b, .sub c d => a.sameOperand c && b.sameOperand d
  | .scale a b, .scale c d => a.sameOperand c && b.sameOperand d
  | .matMul a b, .matMul c d => a.sameOperand c && b.sameOperand d
  | .trace a, .trace b => a.sameOperand b
  | .transpose a, .transpose b => a.sameOperand b
  | _, _ => false

/-- Whether two expressions are the same. Two literals are compared as numbers, any other two
expressions by their operands. -/
def same [Scalar S] : Expr S → Expr S → Bool
  | .literal a, .literal b => a == b
  | a, b => a.sameOperand b

/-- Where operands are compared as numbers, so are expressions throughout. -/
theorem same_eq_sameOperand [Scalar S] (h : ∀ x y : S, Scalar.alike x y = (x == y))
    (a b : Expr S) : a.same b = a.sameOperand b := by
  cases a <;> cases b <;> simp [same, sameOperand, h]

instance [Scalar S] : BEq (Expr S) := ⟨same⟩

/-- A piece of what distinguishes an expression. -/
inductive Mark where
  | kind (k : Kind)
  | name (s : String)
  | key (k : UInt64)
  deriving DecidableEq

/-- The expression written out as a list of marks, from the root down. Expressions that compare
equal have the same marks. -/
def marks [Scalar S] : Expr S → List Mark
  | .var name => [.kind .var, .name name]
  | .scalarVar name => [.kind .scalarVar, .name name]
  | .literal value => [.kind .literal, .key (Scalar.key value)]
  | .null => [.kind .null]
  | .differential inner => .kind .differential :: inner.marks
  | .add lhs rhs => .kind .add :: (lhs.marks ++ rhs.marks)
  | .sub lhs rhs => .kind .sub :: (lhs.marks ++ rhs.marks)
  | .scale factor body => .kind .scale :: (factor.marks ++ body.marks)
  | .matMul lhs rhs => .kind .matMul :: (lhs.marks ++ rhs.marks)
  | .trace inner => .kind .trace :: inner.marks
  | .transpose inner => .kind .transpose :: inner.marks

/-- A number for a mark. -/
def Mark.hash : Mark → UInt64
  | .kind k => mixHash 2 (Hashable.hash k.label)
  | .name s => mixHash 3 (Hashable.hash s)
  | .key k => mixHash 5 k

instance [Scalar S] : Hashable (Expr S) :=
  ⟨fun e => e.marks.foldl (fun h m => mixHash h m.hash) 7⟩

end Expr

end TraceCalculus
