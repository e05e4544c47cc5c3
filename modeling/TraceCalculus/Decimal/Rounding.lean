/-! # Rounding a quotient of natural numbers

Both directions between decimal text and binary numbers come down to one question: which integer
is nearest to `num / den`. It is answered exactly, with no intermediate precision.
-/

set_option autoImplicit false

namespace TraceCalculus.Decimal

/-- The integer nearest to `num / den`. A quotient halfway between two integers goes to the even
one. -/
def roundHalfEven (num den : Nat) : Nat :=
  let below := num / den
  let twice := 2 * (num % den)
  if twice < den then below
  else if den < twice then below + 1
  else below + below % 2

end TraceCalculus.Decimal
