import TraceCalculus.Decimal.Text

/-! # Scalars

Expressions, matrices and the evaluator are generic in the type of their scalars. `Scalar` asks
for the arithmetic, for an equality test, and for the two directions between numerals and scalars.
No law is part of the class: doubles satisfy few of them, while an exact field satisfies all.

Equality of numbers need not be reflexive, but an operand of an expression is always the same as
itself. So there are two tests: `==` compares two numbers, and `alike` two operands that are
literals. They agree for a scalar type that cannot tell its operands apart.
-/

set_option autoImplicit false

namespace TraceCalculus

/-- A type of numbers that expressions can be built over. -/
class Scalar (S : Type) extends Add S, Sub S, Mul S, Neg S, Zero S, One S, BEq S where
  /-- The number a numeral stands for. -/
  ofNumeral : Decimal.Numeral → S
  /-- The number in plain decimal text. -/
  text : S → String
  /-- The number as an entry of a printed matrix. -/
  entryText : S → String
  /-- A key for hashing, the same for numbers that compare equal. -/
  key : S → UInt64
  /-- Whether two literals are the same operand. -/
  alike : S → S → Bool := fun x y => x == y
  /-- The number as the literal of a new operand. -/
  anew : S → S := id
  /-- The number as the literal at a place of an expression. -/
  placed : Nat → S → S := fun _ x => x

/-- The scalar two, the factor of a doubled term. -/
def Scalar.two {S : Type} [Scalar S] : S := 1 + 1

/-- The decimal places of a matrix entry. -/
def entryPlaces : Nat := 4

/-- Doubles. The two zeros compare equal, so they share a key. Operands cannot be told apart: what is
not a number is another operand wherever it is found. -/
instance : Scalar Float where
  zero := 0.0
  one := 1.0
  ofNumeral := Decimal.Numeral.toFloat
  text x := (Decimal.Binary64.ofBits x.toBits).plain
  entryText x := (Decimal.Binary64.ofBits x.toBits).fixed entryPlaces
  key x := if x == 0.0 then (0.0 : Float).toBits else x.toBits

end TraceCalculus
