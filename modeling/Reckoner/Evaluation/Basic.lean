import Reckoner.Evaluation.Application
import Reckoner.Evaluation.Outline
import Reckoner.Evaluation.Reduction

/-!
# Evaluation

An expression is a flat token sequence and is evaluated by rewriting it until a single number is
left: arrays, groups, variables and calls first, then factorials, powers, products, negations and
sums.  The slices of arrays and groups are expressions themselves.
-/

namespace Reckoner

/-- What the names in an expression stand for. -/
structure Environment where
  /-- The value of a variable, if it has one. -/
  valueOf? : String → Option Value
  /-- The result of calling a function by name. -/
  call : String → List Value → Except Fault Value

namespace Evaluation

/-- The value of a variable as a token, and every other token as it is. -/
def resolve (valueOf? : String → Option Value) : Token → Token
  | .variableName name =>
      match valueOf? name with
      | some value => .number value
      | none => .variableName name
  | token => token

/-- Replace every variable that has a value. -/
def substitute (valueOf? : String → Option Value) (tokens : List Token) : List Token :=
  tokens.map (resolve valueOf?)

/-- The value of a sequence that nothing can reduce any more. -/
def result (tokens : List Token) : Except Fault Value :=
  match tokens.findSome? Token.variableName? with
  | some name => .error (.malformedExpression (.unknownVariable name))
  | none =>
      match tokens with
      | [.number value] => .ok value
      | [token] => .error (.malformedExpression (.notNumber token))
      | tokens => .error (.malformedExpression (.leftOver tokens.length))

/-- Reduce a sequence whose groups have been replaced to its value. -/
def reduce (env : Environment) (tokens : List Token) : Except Fault Value := do
  let tokens ← applyFunctions env.call (substitute env.valueOf? tokens)
  let tokens ← powers (factorials tokens)
  let tokens ← products tokens
  let tokens ← sums (negations tokens)
  result tokens

/-- Evaluate a sequence of at most `size` tokens. -/
def evaluateWithin (env : Environment) : Nat → List Token → Except Fault Value
  | _, [] => .error (.malformedExpression .empty)
  | 0, _ :: _ => .error (.malformedExpression .empty)
  | size + 1, tokens => do
      let tokens ← buildArrays (evaluateWithin env size) tokens
      let tokens ← flattenGroups (evaluateWithin env size) tokens
      reduce env tokens

end Evaluation

/-- Evaluate a token sequence.  Every slice of a group is shorter than the sequence, so that its
length bounds the nesting. -/
def evaluate (env : Environment) (tokens : List Token) : Except Fault Value :=
  Evaluation.evaluateWithin env tokens.length tokens

end Reckoner
