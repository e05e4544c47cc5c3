import TraceCalculus.Decimal.Rounding

/-! # The binary64 format in exact arithmetic

A double is a sign with a magnitude `mantissa * 2 ^ exponent`, an infinity, or not a number.
`Binary64.ofBits` reads the 64 bits; `Binary64.nearestBits` goes the other way and rounds an exact
quotient to the nearest double.
-/

set_option autoImplicit false

namespace TraceCalculus.Decimal

/-- What the 64 bits of a double stand for. -/
inductive Binary64 where
  /-- The number `mantissa * 2 ^ exponent`, negated if `negative`. Zero keeps its sign. -/
  | finite (negative : Bool) (mantissa : Nat) (exponent : Int)
  | infinite (negative : Bool)
  | notNumber
  deriving DecidableEq

namespace Binary64

/-- Reads the fields of a double: a sign bit, eleven bits of exponent, 52 bits of fraction. The
lowest exponent field marks the numbers without the leading one. -/
def ofBits (bits : UInt64) : Binary64 :=
  let n := bits.toNat
  let negative := n / Nat.pow 2 63 == 1
  let field : Nat := n / Nat.pow 2 52 % Nat.pow 2 11
  let fraction := n % Nat.pow 2 52
  if field = Nat.pow 2 11 - 1 then
    if fraction = 0 then .infinite negative else .notNumber
  else if field = 0 then .finite negative fraction (-1074)
  else .finite negative (Nat.pow 2 52 + fraction) ((field : Int) - 1075)

/-- The bits of positive infinity. -/
def infinityBits : Nat := (Nat.pow 2 11 - 1) * Nat.pow 2 52

/-- The bits of the double nearest to `num / den`, ties to the even mantissa. In units of the
smallest double the quotient is cut to at most 53 bits by a shift; the exponent field is the shift,
and a mantissa of full length carries one into it, as does a mantissa rounded up to 54 bits. -/
def nearestBits (num den : Nat) : Nat :=
  let scaled := num * Nat.pow 2 1074
  let shift := Nat.log2 (scaled / den) - 52
  min (shift * Nat.pow 2 52 + roundHalfEven scaled (den * Nat.pow 2 shift)) infinityBits

end Binary64

end TraceCalculus.Decimal
