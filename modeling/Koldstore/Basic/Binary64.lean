import Mathlib

/-!
# Rounding to a double

A decimal text is read as the nearest double, ties to even.
-/

namespace Koldstore.Binary64

def roundHalfEven (x : ℚ) : ℤ :=
  if Int.fract x < 1 / 2 then ⌊x⌋
  else if 1 / 2 < Int.fract x then ⌊x⌋ + 1
  else if Even ⌊x⌋ then ⌊x⌋ else ⌊x⌋ + 1

/-- The exponent of the last place of a double near `x`: 53 bits, and no place below that of the
smallest subnormal. -/
def lastPlace (x : ℚ) : ℤ := max (Int.log 2 |x| - 52) (-1074)

/-- The double nearest to `x`, if it is finite. -/
def nearest (x : ℚ) : Option ℚ :=
  let y := (roundHalfEven (x / 2 ^ lastPlace x) : ℚ) * 2 ^ lastPlace x
  if |y| < 2 ^ 1024 then some y else none

end Koldstore.Binary64
