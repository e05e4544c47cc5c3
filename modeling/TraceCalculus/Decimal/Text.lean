import TraceCalculus.Decimal.Binary64
import TraceCalculus.Decimal.Shortest

/-! # Doubles as decimal text

Numbers are written positionally, never with an exponent. `plain` takes the fewest digits that
read back and `fixed` a given number of places. `Numeral` is an unsigned decimal as it stands in a
text, `digits / 10 ^ places`.
-/

set_option autoImplicit false

namespace TraceCalculus.Decimal

/-- Writes `digits * 10 ^ power` without an exponent, with a zero before a leading point. -/
def positional (digits : Nat) (power : Int) : String :=
  let shown := Nat.toDigits 10 digits
  if 0 ≤ power then
    String.ofList (if digits = 0 then shown else shown ++ List.replicate power.toNat '0')
  else
    let places := (-power).toNat
    let padded := List.replicate (places + 1 - shown.length) '0' ++ shown
    let whole := padded.length - places
    String.ofList (padded.take whole ++ '.' :: padded.drop whole)

/-- The sign, then the text of the magnitude; a negative zero keeps its sign. -/
def signed (negative : Bool) (magnitude : String) : String :=
  if negative then "-" ++ magnitude else magnitude

namespace Binary64

/-- Writes a double with the fewest digits that read back. -/
def plain : Binary64 → String
  | .finite negative mantissa exponent =>
    let (digits, power) := shortest mantissa exponent
    signed negative (positional digits power)
  | .infinite negative => signed negative "inf"
  | .notNumber => "NaN"

/-- Writes a double with `places` places, its exact value rounded half to even. -/
def fixed (places : Nat) : Binary64 → String
  | .finite negative mantissa exponent =>
    let num := mantissa * Nat.pow 2 exponent.toNat * Nat.pow 10 places
    let den := Nat.pow 2 (-exponent).toNat
    signed negative (positional (roundHalfEven num den) (-places))
  | .infinite negative => signed negative "inf"
  | .notNumber => "NaN"

end Binary64

/-- An unsigned decimal numeral, standing for `digits / 10 ^ places`. -/
structure Numeral where
  digits : Nat
  places : Nat
  deriving DecidableEq

namespace Numeral

/-- The value of a run of decimal digits. -/
def digitsValue (cs : List Char) : Nat :=
  cs.foldl (fun n c => 10 * n + (c.toNat - '0'.toNat)) 0

/-- Reads digits with an optional point and further digits. Characters other than the first point
are taken for digits, so the text should be a numeral already. -/
def ofChars (cs : List Char) : Numeral :=
  let whole := cs.takeWhile (· ≠ '.')
  let fraction := (cs.dropWhile (· ≠ '.')).drop 1
  { digits := digitsValue (whole ++ fraction), places := fraction.length }

/-- The double nearest to the numeral; a numeral too large becomes infinite. -/
def toFloat (n : Numeral) : Float :=
  Float.ofBits (Binary64.nearestBits n.digits (Nat.pow 10 n.places)).toUInt64

end Numeral

end TraceCalculus.Decimal
