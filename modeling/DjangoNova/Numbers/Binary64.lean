import Mathlib.Algebra.Order.Field.Rat
import Mathlib.Data.Int.Log
import Mathlib.Data.Rat.Floor

/-!
# Binary floats of 64 bits

A finite float is the rational number that it stands for. Its significand
has 53 bits, except near zero, where the last place does not go below
`2 ^ (-1074)`. The result of an operation is the float nearest to the exact
result; of two equally near ones, the one with the even significand.
-/

namespace DjangoNova

namespace Binary64

/-- The exponent of the last place of a float near `q`. -/
def lastPlace (q : ℚ) : ℤ := max (Int.log 2 |q| - 52) (-1074)

/-- The nearest integer, and the even one of two equally near ones. -/
def nearestInt (q : ℚ) : ℤ :=
  if q - ⌊q⌋ < 1 / 2 then ⌊q⌋
  else if 1 / 2 < q - ⌊q⌋ then ⌊q⌋ + 1
  else if ⌊q⌋ % 2 = 0 then ⌊q⌋ else ⌊q⌋ + 1

/-- Rounding without an upper bound on the exponent. -/
def rounded (q : ℚ) : ℚ := nearestInt (q / 2 ^ lastPlace q) * 2 ^ lastPlace q

/-- The float that an operation with the exact result `q` returns, or
nothing where that is an infinity. -/
def nearest (q : ℚ) : Option ℚ := if |rounded q| < 2 ^ 1024 then some (rounded q) else none

/-- The literal `1.001`, and its product with `1000`. -/
example : (nearest (1001 / 1000) >>= fun x ↦ nearest (x * 1000)).map Int.floor = some 1000 := by
  decide +kernel

example : (nearest (29 / 100) >>= fun x ↦ nearest (x * 1000)).map Int.floor = some 290 := by
  decide +kernel

end Binary64

end DjangoNova
