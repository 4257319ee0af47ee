import Reckoner.Fault
import Reckoner.Number.Factorial

/-!
# Arithmetic on values

Two values of the same length combine entry by entry, and a scalar combines with every entry of the
other value.  Any other pair of lengths is a shape mismatch.  An absent entry on either side makes
the result absent.
-/

namespace Reckoner
namespace Value

/-- Combine two entries, absent if either of them is. -/
def combine (f : Float → Float → Float) : Option Float → Option Float → Option Float
  | some a, some b => some (f a b)
  | _, _ => none

/-- Combine two values entry by entry, repeating a scalar as often as needed. -/
def broadcast (f : Float → Float → Float) (lhs rhs : Value) : Except Fault Value :=
  if lhs.length = rhs.length then .ok ⟨List.zipWith (combine f) lhs.entries rhs.entries⟩
  else
    match lhs.entries, rhs.entries with
    | [a], entries => .ok ⟨entries.map (combine f a)⟩
    | entries, [b] => .ok ⟨entries.map (combine f · b)⟩
    | _, _ => .error (.shapeMismatch lhs.length rhs.length)

/-- The value with the sign of every number changed. -/
def neg (value : Value) : Value := value.map fun x => -x

/-- The factorial of every number, absent where there is none. -/
def factorial (value : Value) : Value := value.filterMap Reckoner.factorial

/-- Apply an operator between two values. -/
def apply (op : Operator) (lhs rhs : Value) : Except Fault Value :=
  match op with
  | .add => broadcast (· + ·) lhs rhs
  | .sub => broadcast (· - ·) lhs rhs
  | .mul => broadcast (· * ·) lhs rhs
  | .div => broadcast (· / ·) lhs rhs
  | .mod => broadcast Binary64.modulo lhs rhs
  | .pow => broadcast Float.pow lhs rhs
  | .factorial => .error (.malformedExpression .factorialNotBinary)

end Value
end Reckoner
