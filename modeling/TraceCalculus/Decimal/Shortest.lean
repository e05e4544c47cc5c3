/-! # The shortest decimal that reads back

The reals that round to a given double form an interval around it. On the grid of multiples of
`10 ^ p` only the two neighbours of the double need to be tried: if any point of the grid lies in
the interval, so does one of them. The grids are tried from the coarsest on, so the first hit has
the fewest digits, and of two hits the nearer one is taken.
-/

set_option autoImplicit false

namespace TraceCalculus.Decimal

/-- The reals that round to one double, in quarters of the double's last place: every bound stands
for itself times `scale / unit`. -/
structure Interval where
  low : Nat
  value : Nat
  high : Nat
  /-- Whether the bounds themselves round to the double: ties go to the even mantissa. -/
  closed : Bool
  scale : Nat
  unit : Nat

namespace Interval

/-- The interval of `mantissa * 2 ^ exponent`. Below a power of two the doubles lie twice as
dense, so the lower bound is nearer, except where the exponent cannot fall. -/
def ofParts (mantissa : Nat) (exponent : Int) : Interval where
  low := if mantissa = Nat.pow 2 52 ∧ exponent ≠ -1074 then 4 * mantissa - 1 else 4 * mantissa - 2
  value := 4 * mantissa
  high := 4 * mantissa + 2
  closed := mantissa % 2 == 0
  scale := Nat.pow 2 (exponent - 2).toNat
  unit := Nat.pow 2 (2 - exponent).toNat

/-- What `digits * 10 ^ power` is multiplied by to compare it with the bounds. -/
def pointFactor (i : Interval) (power : Int) : Nat := i.unit * Nat.pow 10 power.toNat

/-- What the bounds are multiplied by to compare them with `digits * 10 ^ power`. -/
def boundFactor (i : Interval) (power : Int) : Nat := i.scale * Nat.pow 10 (-power).toNat

/-- Whether `digits * 10 ^ power` reads back as the double. -/
def contains (i : Interval) (digits : Nat) (power : Int) : Bool :=
  let point := digits * i.pointFactor power
  let low := i.low * i.boundFactor power
  let high := i.high * i.boundFactor power
  if i.closed then low ≤ point && point ≤ high else low < point && point < high

/-- The largest multiple of `10 ^ power` not above the double, in units of `10 ^ power`. -/
def floor (i : Interval) (power : Int) : Nat :=
  i.value * i.boundFactor power / i.pointFactor power

/-- Whether the double is nearer to `digits` than to `digits + 1` on the grid of `10 ^ power`. -/
def nearerBelow (i : Interval) (digits : Nat) (power : Int) : Bool :=
  2 * (i.value * i.boundFactor power) < (2 * digits + 1) * i.pointFactor power

/-- The neighbour of the double on the grid of `10 ^ power` that reads back, if there is one. Of
two the nearer is taken, and in a tie the larger. -/
def neighbour? (i : Interval) (power : Int) : Option Nat :=
  let digits := i.floor power
  match i.contains digits power, i.contains (digits + 1) power with
  | true, true => some (if i.nearerBelow digits power then digits else digits + 1)
  | true, false => some digits
  | false, true => some (digits + 1)
  | false, false => none

/-- Tries ever finer grids, starting with `10 ^ power`. -/
def search (i : Interval) : Nat → Int → Nat × Int
  | 0, power => (i.floor power, power)
  | steps + 1, power =>
    match i.neighbour? power with
    | some digits => (digits, power)
    | none => i.search steps (power - 1)

end Interval

/-- A power of ten above `mantissa * 2 ^ exponent`, by less than a hundredfold. -/
def powerAbove (mantissa : Nat) (exponent : Int) : Int :=
  Int.fdiv ((Nat.log2 mantissa + 1 + exponent) * 30103) 100000 + 1

/-- Digits and power of ten of the shortest decimal that reads back as `mantissa * 2 ^ exponent`.
Seventeen digits always suffice. -/
def shortest (mantissa : Nat) (exponent : Int) : Nat × Int :=
  if mantissa = 0 then (0, 0)
  else (Interval.ofParts mantissa exponent).search 20 (powerAbove mantissa exponent)

end TraceCalculus.Decimal
