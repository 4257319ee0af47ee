/-!
# Inverse hyperbolic tangent

The inverse hyperbolic tangent by its logarithmic formula, arranged so that small arguments keep
their accuracy.  Outside its domain it is not a number.
-/

namespace Reckoner
namespace Hyperbolic

/-- The logarithm of `1 + x`, accurate also where `1 + x` rounds: the rounding error of the sum is
divided out of the logarithm. -/
def log1p (x : Float) : Float :=
  let sum := 1 + x
  if sum == 1 then x
  else if sum.isInf then Float.log sum
  else Float.log sum * (x / (sum - 1))

/-- Inverse hyperbolic tangent. -/
def artanh (x : Float) : Float := 0.5 * log1p (2 * x / (1 - x))

end Hyperbolic
end Reckoner
