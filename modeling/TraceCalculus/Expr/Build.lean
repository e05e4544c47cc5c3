import TraceCalculus.Expr.Basic
import TraceCalculus.Notice
import TraceCalculus.Operator

/-! # Constructors that simplify

`a + b`, `a - b`, `a * b`, `-a`, `a.transposed` and `a.traced` build an expression and remove what
is trivial on the way: the zero element, folded literals, doubled terms, double transposes. Scalar
factors are collected on the left and kept out of matrix products. The operands are taken as they
are, so only the new node is simplified.
-/

set_option autoImplicit false

namespace TraceCalculus

/-- The names that formulas use for themselves. -/
def reservedNames : List String := ["T", "Tr", "d"]

/-- A variable cannot have a name that formulas use for themselves. -/
structure ReservedName where
  name : String
  deriving DecidableEq

/-- The wording of a refused name. -/
def ReservedName.notice (e : ReservedName) : Notice where
  message := quoted e.name ++ " is a reserved name"
  label := "this name"
  help := some ("the names " ++ ", ".intercalate reservedNames ++ " cannot be used for variables")

/-- Refuses the reserved names. -/
def checkName (name : String) : Except ReservedName String :=
  if name ∈ reservedNames then .error ⟨name⟩ else .ok name

namespace Expr

variable {S : Type}

/-- A matrix variable with a name that is not reserved. -/
def matrixNamed? (name : String) : Except ReservedName (Expr S) := (checkName name).map .var

/-- A scalar variable with a name that is not reserved. -/
def scalarNamed? (name : String) : Except ReservedName (Expr S) :=
  (checkName name).map .scalarVar

/-- The differential of a matrix variable. -/
def differentialIn (name : String) : Expr S := .differential (.var name)

/-- The transpose. A double transpose collapses; scalars and traces are their own transpose. -/
def transposed : Expr S → Expr S
  | .null => .null
  | .transpose inner => inner
  | .trace inner => .trace inner
  | e => if e.isScalar then e else .transpose e

/-- The trace. A scalar is its own trace. -/
def traced : Expr S → Expr S
  | .null => .null
  | e => if e.isScalar then e else .trace e

/-- Whether the expression is the zero element. -/
def isNull : Expr S → Bool
  | .null => true
  | _ => false

/-- The number a literal stands for. -/
def value? : Expr S → Option S
  | .literal value => some value
  | _ => none

/-- The factor and the body of a scaled expression. -/
def scaled? : Expr S → Option (Expr S × Expr S)
  | .scale factor body => some (factor, body)
  | _ => none

/-- The number of scaled nodes and their operands that can be reached from the root through scaled
nodes only. -/
def spine : Expr S → Nat
  | .scale factor body => factor.spine + body.spine + 1
  | _ => 1

section Product

variable [Scalar S]

/-- One step of a product whose parts are multiplied by `mul`: a scalar scales the other operand,
merging with the factor of one that is scaled already, and a scaled operand of a matrix product
hands its factor out. -/
def combine (mul : Expr S → Expr S → Expr S) (a b : Expr S) : Expr S :=
  if a.isScalar then
    match b.scaled? with
    | some (s, r) => mul (mul a s) r
    | none => .scale a.asOperand b
  else if b.isScalar then
    match a.scaled? with
    | some (s, l) => mul (mul s b) l
    | none => .scale b a
  else
    match a.scaled?, b.scaled? with
    | some (s, l), some (u, r) => mul (mul s u) (mul l r)
    | some (s, l), none => mul s (mul l b)
    | none, some (s, r) => mul s (mul a r)
    | none, none => .matMul a b

/-- One step of a product: the zero element absorbs, two literals fold, a literal one disappears,
and a literal on the right moves to the left. -/
def productStep (mul : Expr S → Expr S → Expr S) (a b : Expr S) : Expr S :=
  if a.isNull || b.isNull then .null
  else
    match a.value?, b.value? with
    | some x, some y => .literal (x * y)
    | some x, none => if x == 1 then b else combine mul a b
    | none, some y => if y == 1 then a else mul b a
    | none, none => combine mul a b

/-- The product of two expressions, with products of products nested less than `depth` deep. -/
def productWithin : Nat → Expr S → Expr S → Expr S
  | 0 => .matMul
  | depth + 1 => productStep (productWithin depth)

/-- A depth that no product of two expressions exceeds. -/
def productDepth (a b : Expr S) : Nat := 8 * Nat.pow (a.spine + b.spine + 1) 4

/-- The product. -/
def times (a b : Expr S) : Expr S := productWithin (productDepth a b) a b

/-- The negative, a product with minus one. -/
def negated (a : Expr S) : Expr S := times (.literal (-1)) a

/-- The sum. The zero element vanishes, literals fold, and two equal terms become twice one. -/
def plus : Expr S → Expr S → Expr S
  | .null, b => b
  | a, .null => a
  | .literal x, .literal y => .literal (x + y)
  | a, b => if a == b then times (.literal Scalar.two) a else .add a.asOperand b.asOperand

/-- The difference. The zero element vanishes, equal terms cancel, and literals fold. -/
def minus : Expr S → Expr S → Expr S
  | a, .null => a
  | .null, b => negated b
  | a, b =>
    if a == b then .null
    else
      match a, b with
      | .literal x, .literal y => .literal (x - y)
      | a, b => .sub a.asOperand b.asOperand

instance : Add (Expr S) := ⟨plus⟩
instance : Sub (Expr S) := ⟨minus⟩
instance : Mul (Expr S) := ⟨times⟩
instance : Neg (Expr S) := ⟨negated⟩

/-- Two expressions joined by an operator. -/
def joined (a : Expr S) (op : Operator) (b : Expr S) : Expr S :=
  match op with
  | .plus => a + b
  | .minus => a - b
  | .times => a * b

/-- The top node built again from its operands, with simplification. -/
def tidied : Expr S → Expr S
  | .add lhs rhs => lhs + rhs
  | .sub lhs rhs => lhs - rhs
  | .scale factor body => factor * body
  | .matMul lhs rhs => lhs * rhs
  | .trace inner => inner.traced
  | .transpose inner => inner.transposed
  | e => e

end Product

end Expr

end TraceCalculus
