import Reckoner.Function.Builtin

/-!
# Function entries

What a table keeps under the name of a function: how to show it and how to compute it.  A formula
keeps its body unevaluated.
-/

namespace Reckoner

/-- A function defined by an expression. -/
structure Formula where
  /-- The names that stand for the arguments, in order. -/
  parameters : List String
  /-- The tokens of the defining expression. -/
  body : List Token
deriving DecidableEq

/-- How a function is computed. -/
inductive Routine where
  /-- By a built-in function. -/
  | builtin (f : Builtin)
  /-- By evaluating a formula. -/
  | formula (f : Formula)
deriving DecidableEq

/-- A function as a table keeps it. -/
structure FunctionEntry where
  /-- The text that shows the function. -/
  description : String
  /-- The way to compute it. -/
  routine : Routine
deriving DecidableEq

end Reckoner
