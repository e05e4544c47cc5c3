import TraceCalculus.Scalar.Basic

/-! # Tracked doubles

What is not a number compares equal to nothing, not even to itself. An expression that contains it
can still be used twice, and then both copies have the same operands and cancel. A tracked double
carries the operand it is the literal of, its origin, so that a copy of an operand can be told from
another operand that is not a number either.
-/

set_option autoImplicit false

namespace TraceCalculus

/-- Where a literal became the operand that it is. -/
inductive Origin where
  /-- At a place of an expression that is still in the making. -/
  | place (p : Nat)
  /-- At a place of the result of a calculation; results are numbered. -/
  | result (n p : Nat)
  /-- On the way to a result, at a place of an expression that it was made from. -/
  | before (n p : Nat)
  deriving DecidableEq

/-- A double and its origin. -/
structure Tracked where
  value : Float
  /-- The operand it is the literal of, none for a folded number and for an operand that is still
  new. -/
  origin : Option Origin := none

namespace Tracked

/-- Whether two tracked doubles belong to one and the same operand. -/
def sameOrigin (x y : Tracked) : Bool := x.origin.isSome && x.origin == y.origin

/-- Calculations and comparisons are those of doubles; two operands are alike if they are equal
numbers or one operand. -/
instance : Scalar Tracked where
  add x y := ⟨x.value + y.value, none⟩
  sub x y := ⟨x.value - y.value, none⟩
  mul x y := ⟨x.value * y.value, none⟩
  neg x := ⟨-x.value, none⟩
  zero := ⟨0, none⟩
  one := ⟨1, none⟩
  beq x y := x.value == y.value
  ofNumeral n := ⟨Scalar.ofNumeral n, none⟩
  text x := Scalar.text x.value
  entryText x := Scalar.entryText x.value
  key x := Scalar.key x.value
  alike x y := x.value == y.value || x.sameOrigin y
  anew x := ⟨x.value, none⟩
  placed p x := ⟨x.value, some (.place p)⟩

/-- A double with an origin is alike itself, whether it is a number or not. -/
theorem alike_self {x : Tracked} (h : x.origin.isSome = true) : Scalar.alike x x = true := by
  simp [Scalar.alike, sameOrigin, h]

end Tracked

end TraceCalculus
