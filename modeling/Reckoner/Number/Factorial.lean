import Reckoner.Number.Binary64

/-!
# Factorials of floats

Whole numbers have their usual factorial, a product that is exact as long as binary64 can hold it.
Other numbers have the extension `x! = Γ(x + 1)`: above the threshold by Stirling's series, below
it by `x! = (x + n)! / ((x + 1) ⋯ (x + n))`, and for negative numbers by the reflection
`x! = πx / (sin(πx) · (-x)!)`.  Negative whole numbers have none.
-/

namespace Reckoner
namespace Factorial

/-- The ratio of a circle's circumference to its diameter. -/
def pi : Float := 3.141592653589793

/-- The base of the natural logarithm. -/
def e : Float := 2.718281828459045

/-- Smallest argument to which the series is applied. -/
def threshold : Float := 35

/-- The product of the whole numbers up to `n`.  The product is infinite from 171 on, so that
further factors change nothing. -/
def whole (n : Nat) : Float :=
  (List.range (min n 171 - 1)).foldl (fun product i => product * (i + 2).toFloat) 1

/-- Stirling's series for `y!`, for `y` from the threshold on. -/
def stirling (y : Float) : Float :=
  let series :=
    1 + 1 / (12 * y) + 1 / (288 * (y * y)) - 139 / (51840 * (y * y * y))
  Float.sqrt (2 * pi * y) * Float.pow (y / e) y * series

/-- Raise `y` to the threshold by at most `steps` ones, multiplying each new `y` into the
divisor. -/
def raise : Nat → Float → Float → Float × Float
  | 0, y, divisor => (y, divisor)
  | steps + 1, y, divisor =>
      if y < threshold then raise steps (y + 1) (divisor * (y + 1)) else (y, divisor)

/-- The factorial of a positive number that is not whole. -/
def fractional (x : Float) : Float :=
  let (y, divisor) := raise 35 x 1
  stirling y / divisor

end Factorial

/-- The factorial of a float, where there is one. -/
def factorial (x : Float) : Option Float :=
  if x.isNaN then none
  else if x.isInf then if x < 0 then none else some x
  else if Binary64.isWhole x then
    if x < 0 then none else some (Factorial.whole (Binary64.wholePart x))
  else if x < 0 then
    let angle := Factorial.pi * x
    some (angle / (Float.sin angle * Factorial.fractional (-x)))
  else some (Factorial.fractional x)

end Reckoner
