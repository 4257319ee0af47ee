import Reckoner.Value.Arithmetic

/-!
# Reduction of operators

Each pass walks once over a token sequence, combines the operands of one class of operators and
copies everything else.  Powers group from the left, and a minus sign directly behind another
operator is negated only after powers and products are done.
-/

namespace Reckoner
namespace Evaluation

/-- Apply every factorial sign that follows a number.  The tokens written so far are held latest
first. -/
def factorialsFrom : List Token → List Token → List Token
  | written, [] => written.reverse
  | .number value :: written, .operator .factorial :: rest =>
      factorialsFrom (.number value.factorial :: written) rest
  | written, token :: rest => factorialsFrom (token :: written) rest

/-- Apply every factorial sign that follows a number. -/
def factorials (tokens : List Token) : List Token := factorialsFrom [] tokens

/-- Combine the numbers on both sides of every operator picked, from left to right.  An operator
without a number on either side is copied; one behind a number must not be the last token.  The
tokens written so far are held latest first, with a mark whether the last one is a number. -/
def combineFrom (picks : Operator → Bool) :
    List Token → Bool → List Token → Except Fault (List Token)
  | written, _, [] => .ok written.reverse
  | written, afterNumber, .operator op :: rest =>
      if afterNumber && picks op then
        match rest with
        | [] => .error (.malformedExpression (.missingOperandAfter op))
        | .number rhs :: rest =>
            match written with
            | .number lhs :: written => do
                let value ← Value.apply op lhs rhs
                combineFrom picks (.number value :: written) true rest
            | _ => .error (.malformedExpression (.missingOperandBefore op))
        | rest => combineFrom picks (.operator op :: written) false rest
      else combineFrom picks (.operator op :: written) false rest
  | written, _, token :: rest => combineFrom picks (token :: written) token.isNumber rest

/-- Combine the numbers on both sides of every operator picked, from left to right. -/
def combine (picks : Operator → Bool) (tokens : List Token) : Except Fault (List Token) :=
  combineFrom picks [] false tokens

/-- Combine the operands of all powers. -/
def powers (tokens : List Token) : Except Fault (List Token) :=
  combine (· == .pow) tokens

/-- Combine the operands of all products, quotients and remainders. -/
def products (tokens : List Token) : Except Fault (List Token) :=
  combine (fun op => op == .mul || op == .div || op == .mod) tokens

/-- Combine the operands of all sums and differences. -/
def sums (tokens : List Token) : Except Fault (List Token) :=
  combine (fun op => op == .add || op == .sub) tokens

/-- Negate every number behind a minus sign that itself stands behind an operator, where the start
of the sequence counts as one. -/
def negationsFrom : Bool → List Token → List Token
  | _, [] => []
  | true, .operator .sub :: .number value :: rest =>
      .number value.neg :: negationsFrom false rest
  | _, token :: rest => token :: negationsFrom token.isOperator rest

/-- Negate every number behind a minus sign that is not a difference. -/
def negations (tokens : List Token) : List Token := negationsFrom true tokens

end Evaluation
end Reckoner
