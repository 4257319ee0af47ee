import Reckoner.Token.Basic

/-!
# Faults

Everything that can go wrong while a text is read, calculated or assigned.  Each fault is a cause
with the data it concerns; `Fault.message` words all of them.
-/

namespace Reckoner

/-- A range of bytes in the UTF-8 form of a text. -/
structure ByteRange where
  /-- Offset of the first byte. -/
  start : Nat
  /-- Offset behind the last byte. -/
  stop : Nat
deriving DecidableEq, Repr

/-- Ways in which brackets fail to match. -/
inductive GroupingFault where
  /-- A bracket closes that was not open. -/
  | unexpectedClosing (shape : Bracket)
  /-- A bracket is still open at the end. -/
  | missingClosing (shape : Bracket)
  /-- The parameter list of a definition is still open at the end. -/
  | openParameterList
deriving DecidableEq, Repr

/-- Ways in which a call fails. -/
inductive CallFault where
  /-- No function has the name. -/
  | unknown
  /-- The number of arguments is not the one expected. -/
  | arity (expected got : Nat)
  /-- The number of arguments is outside the range expected. -/
  | arityRange (least greatest got : Nat)
  /-- Too many calls are nested. -/
  | tooDeep
  /-- Nothing follows the name. -/
  | missingArguments
  /-- Something other than arguments follows the name. -/
  | notArguments (found : Token)
  /-- The argument at a position, counted from one, is not a number. -/
  | argumentNotNumber (position : Nat) (found : Token)
  /-- Something other than a separator or the end follows an argument. -/
  | notSeparator (found : Token)
  /-- The argument list does not end. -/
  | openArgumentList
deriving DecidableEq

/-- Ways in which an expression fails to have a value. -/
inductive ExpressionFault where
  /-- There is nothing to calculate. -/
  | empty
  /-- An operator lacks its second operand. -/
  | missingOperandAfter (op : Operator)
  /-- An operator lacks its first operand. -/
  | missingOperandBefore (op : Operator)
  /-- The factorial stands between two operands. -/
  | factorialNotBinary
  /-- No variable has the name. -/
  | unknownVariable (name : String)
  /-- What is left at the end is a single token but no number. -/
  | notNumber (found : Token)
  /-- More than one token is left at the end. -/
  | leftOver (count : Nat)
  /-- A line to assign has no `=`. -/
  | notAssignment
  /-- A line to assign has no name before its `=`. -/
  | missingName
deriving DecidableEq

/-- The cause of a failure. -/
inductive Fault where
  /-- Digits and points that do not form a number, and where they are. -/
  | malformedLiteral (literal : String) (place : ByteRange)
  /-- Brackets do not match. -/
  | unbalancedGrouping (cause : GroupingFault)
  /-- A call of the named function fails. -/
  | invalidCall (name : String) (cause : CallFault)
  /-- Two values differ in length and neither is a scalar. -/
  | shapeMismatch (left right : Nat)
  /-- The expression has no value. -/
  | malformedExpression (cause : ExpressionFault)
deriving DecidableEq

instance Fault.decidableEqOutcome {α : Type} [DecidableEq α] : DecidableEq (Except Fault α)
  | .ok left, .ok right => decidable_of_iff (left = right) (by rw [Except.ok.injEq])
  | .error left, .error right => decidable_of_iff (left = right) (by rw [Except.error.injEq])
  | .ok _, .error _ => isFalse nofun
  | .error _, .ok _ => isFalse nofun

namespace GroupingFault

/-- The wording of a grouping fault. -/
def message : GroupingFault → String
  | unexpectedClosing shape => s!"unexpected '{shape.closingSymbol}'"
  | missingClosing shape => s!"missing '{shape.closingSymbol}'"
  | openParameterList => "missing ')' in parameter list"

end GroupingFault

namespace CallFault

/-- The wording of a call fault. -/
def message : CallFault → String
  | unknown => "unknown function"
  | arity expected got => s!"expected {expected} argument(s), got {got}"
  | arityRange least greatest got => s!"expected {least} to {greatest} arguments, got {got}"
  | tooDeep => "call depth exceeded"
  | missingArguments => "missing arguments"
  | notArguments found => s!"expected arguments, found '{found.text}'"
  | argumentNotNumber position found => s!"argument {position} is not a number: '{found.text}'"
  | notSeparator found => s!"expected ',' or ')', found '{found.text}'"
  | openArgumentList => "missing ')'"

end CallFault

namespace ExpressionFault

/-- The wording of an expression fault. -/
def message : ExpressionFault → String
  | empty => "empty expression"
  | missingOperandAfter op => s!"missing operand after '{op.symbol}'"
  | missingOperandBefore op => s!"missing operand before '{op.symbol}'"
  | factorialNotBinary => "'!' is not a binary operator"
  | unknownVariable name => s!"unknown variable '{name}'"
  | notNumber found => s!"expected a number, found '{found.text}'"
  | leftOver count => s!"{count} terms left over after evaluation"
  | notAssignment => "expected an assignment"
  | missingName => "missing name before '='"

end ExpressionFault

namespace Fault

/-- The wording of a fault. -/
def message : Fault → String
  | malformedLiteral literal _ => s!"malformed number literal '{literal}'"
  | unbalancedGrouping cause => s!"unbalanced grouping: {cause.message}"
  | invalidCall name cause => s!"invalid call to function '{name}': {cause.message}"
  | shapeMismatch left right => s!"cannot combine vectors of length {left} and {right}"
  | malformedExpression cause => s!"malformed expression: {cause.message}"

end Fault
end Reckoner
