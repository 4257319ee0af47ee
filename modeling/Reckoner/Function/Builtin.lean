import Reckoner.Number.Hyperbolic
import Reckoner.Value.Arithmetic

/-!
# Built-in functions

The functions every table starts with.  They work on each entry of their argument, and an entry
without a result, one outside the function's domain, comes out absent.
-/

namespace Reckoner

/-- The built-in functions. -/
inductive Builtin where
  | sin
  | cos
  | tan
  | arcsin
  | arccos
  | arctan
  | sinh
  | cosh
  | tanh
  | asinh
  | acosh
  | atanh
  | exp
  | log
  | sqrt
  | abs
deriving DecidableEq, Repr

namespace Builtin

/-- All built-in functions. -/
def all : List Builtin :=
  [sin, cos, tan, arcsin, arccos, arctan, sinh, cosh, tanh, asinh, acosh, atanh, exp, log, sqrt,
    abs]

/-- The name under which a built-in function is known. -/
def name : Builtin → String
  | sin => "sin"
  | cos => "cos"
  | tan => "tan"
  | arcsin => "arcsin"
  | arccos => "arccos"
  | arctan => "arctan"
  | sinh => "sinh"
  | cosh => "cosh"
  | tanh => "tanh"
  | asinh => "asinh"
  | acosh => "acosh"
  | atanh => "atanh"
  | exp => "exp"
  | log => "log"
  | sqrt => "sqrt"
  | abs => "abs"

/-- A built-in function on one number; the logarithm is the natural one. -/
def onNumber : Builtin → Float → Float
  | sin => Float.sin
  | cos => Float.cos
  | tan => Float.tan
  | arcsin => Float.asin
  | arccos => Float.acos
  | arctan => Float.atan
  | sinh => Float.sinh
  | cosh => Float.cosh
  | tanh => Float.tanh
  | asinh => Float.asinh
  | acosh => Float.acosh
  | atanh => Hyperbolic.artanh
  | exp => Float.exp
  | log => Float.log
  | sqrt => Float.sqrt
  | abs => Float.abs

/-- The logarithm to a base.  The bases two and ten have logarithms of their own, which are exact on
powers of the base. -/
def logBase (x base : Float) : Float :=
  if base == 2 then Float.log2 x
  else if base == 10 then Float.log10 x
  else Float.log x / Float.log base

/-- A value with the entries that are not numbers made absent. -/
def defined (value : Value) : Value := value.filterMap fun x => if x.isNaN then none else some x

/-- Call a built-in function, under the given name, on its arguments.  The logarithm takes a second
one as its base. -/
def call (f : Builtin) (name : String) (args : List Value) : Except Fault Value :=
  match f, args with
  | log, [x, base] => return defined (← Value.broadcast logBase x base)
  | f, [x] => .ok (defined (x.map f.onNumber))
  | log, args => .error (.invalidCall name (.arityRange 1 2 args.length))
  | _, args => .error (.invalidCall name (.arity 1 args.length))

end Builtin
end Reckoner
