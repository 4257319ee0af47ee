import Reckoner.Evaluation.Basic
import Reckoner.Proofs.Outcome

/-!
# Passes over operators

How each pass treats the next token, and what a pass that succeeds keeps.
-/

namespace Reckoner
namespace Evaluation

/-! ## Factorials -/

theorem factorialsFrom_other {written rest : List Token} {token : Token}
    (other : token ≠ .operator .factorial) :
    factorialsFrom written (token :: rest) = factorialsFrom (token :: written) rest := by
  rw [factorialsFrom]
  rintro value earlier - same
  exact other same

theorem factorialsFrom_behind {written rest : List Token} {last : Token}
    (noNumber : last.isNumber = false) :
    factorialsFrom (last :: written) (.operator .factorial :: rest) =
      factorialsFrom (.operator .factorial :: last :: written) rest := by
  cases last <;> first | rfl | cases noNumber

theorem mem_factorialsFrom {written rest : List Token} {token : Token}
    (number : token.isNumber = false) (operator : token.isOperator = false)
    (member : token ∈ written ∨ token ∈ rest) : token ∈ factorialsFrom written rest := by
  fun_induction factorialsFrom written rest with
  | case1 => simpa using member
  | case2 value written rest induction =>
      apply induction
      simp only [List.mem_cons] at member ⊢
      rcases member with (rfl | earlier) | rfl | later
      · simp [Token.isNumber] at number
      · exact .inl (.inr earlier)
      · simp [Token.isOperator] at operator
      · exact .inr later
  | case3 written first rest _ induction =>
      apply induction
      simp only [List.mem_cons] at member ⊢
      tauto

/-! ## Chains of operators -/

variable {picks : Operator → Bool}

theorem combineFrom_number (written rest : List Token) (value : Value)
    (afterNumber : Bool) :
    combineFrom picks written afterNumber (.number value :: rest) =
      combineFrom picks (.number value :: written) true rest := by
  rw [combineFrom]
  · rfl
  · simp

theorem combineFrom_join {op : Operator} {lhs rhs value : Value}
    (picked : picks op = true) (applied : Value.apply op lhs rhs = .ok value)
    (written rest : List Token) :
    combineFrom picks (.number lhs :: written) true (.operator op :: .number rhs :: rest) =
      combineFrom picks (.number value :: written) true rest := by
  rw [combineFrom]
  simp [picked, applied, bind, Except.bind]

theorem combineFrom_skip {op : Operator} {afterNumber : Bool}
    (skipped : (afterNumber && picks op) = false) (written rest : List Token) :
    combineFrom picks written afterNumber (.operator op :: rest) =
      combineFrom picks (.operator op :: written) false rest := by
  rcases rest with _ | ⟨token, rest⟩
  · simp [combineFrom, skipped]
  · cases token <;> simp [combineFrom, skipped]

theorem combineFrom_copy {op : Operator} {next : Token} (noNumber : next.isNumber = false)
    (written rest : List Token) (afterNumber : Bool) :
    combineFrom picks written afterNumber (.operator op :: next :: rest) =
      combineFrom picks (.operator op :: written) false (next :: rest) := by
  cases next with
  | number => cases noNumber
  | _ => simp [combineFrom]

theorem combineFrom_other {token : Token} (number : token.isNumber = false)
    (operator : token.isOperator = false) (written rest : List Token) (afterNumber : Bool) :
    combineFrom picks written afterNumber (token :: rest) =
      combineFrom picks (token :: written) false rest := by
  cases token with
  | number => cases number
  | operator => cases operator
  | _ => rfl

/-- What a successful pass does to the rest of a sequence, given the tokens written so far. -/
inductive Combines (picks : Operator → Bool) : List Token → List Token → List Token → Prop where
  | done {written : List Token} : Combines picks written [] written.reverse
  | copy {token : Token} {written rest result : List Token}
      (tail : Combines picks (token :: written) rest result) :
      Combines picks written (token :: rest) result
  | join {op : Operator} {lhs rhs value : Value} {written rest result : List Token}
      (picked : picks op = true) (applied : Value.apply op lhs rhs = .ok value)
      (tail : Combines picks (.number value :: written) rest result) :
      Combines picks (.number lhs :: written) (.operator op :: .number rhs :: rest) result

theorem combines_of_ok {written rest result : List Token}
    {afterNumber : Bool} (combined : combineFrom picks written afterNumber rest = .ok result) :
    Combines picks written rest result := by
  fun_induction combineFrom picks written afterNumber rest with
  | case1 =>
      cases combined
      exact .done
  | case2 => cases combined
  | case3 afterNumber op picked rhs rest lhs written induction =>
      obtain ⟨value, applied, tail⟩ := Outcome.bind_eq_ok.mp combined
      exact .join (Bool.and_eq_true_iff.mp picked).2 applied (induction value tail)
  | case4 => cases combined
  | case5 written afterNumber op picked rest _ _ induction => exact .copy (induction combined)
  | case6 written afterNumber op rest unpicked induction => exact .copy (induction combined)
  | case7 written afterNumber token rest _ induction => exact .copy (induction combined)

/-- A pass keeps what is neither a number nor an operator. -/
theorem Combines.mem {written rest result : List Token} {token : Token}
    (run : Combines picks written rest result) (number : token.isNumber = false)
    (operator : token.isOperator = false) (member : token ∈ written ∨ token ∈ rest) :
    token ∈ result := by
  induction run with
  | done => simpa using member
  | copy _ induction =>
      apply induction
      simp only [List.mem_cons] at member ⊢
      tauto
  | join _ _ _ induction =>
      apply induction
      simp only [List.mem_cons] at member ⊢
      rcases member with (rfl | earlier) | rfl | rfl | later
      · simp [Token.isNumber] at number
      · exact .inl (.inr earlier)
      · simp [Token.isOperator] at operator
      · simp [Token.isNumber] at number
      · exact .inr later

/-! ## Negations -/

theorem mem_negationsFrom {tokens : List Token} {token : Token} (afterOperator : Bool)
    (number : token.isNumber = false) (operator : token.isOperator = false)
    (member : token ∈ tokens) : token ∈ negationsFrom afterOperator tokens := by
  fun_induction negationsFrom afterOperator tokens with
  | case1 => cases member
  | case2 value rest induction =>
      simp only [List.mem_cons] at member ⊢
      rcases member with rfl | rfl | later
      · simp [Token.isOperator] at operator
      · simp [Token.isNumber] at number
      · exact .inr (induction later)
  | case3 afterOperator first rest _ induction =>
      simp only [List.mem_cons] at member ⊢
      exact member.imp id induction

/-! ## All passes -/

/-- All passes over a sequence without calls. -/
def calculate (tokens : List Token) : Except Fault Value := do
  let tokens ← powers (factorials tokens)
  let tokens ← products tokens
  let tokens ← sums (negations tokens)
  result tokens

theorem reduce_eq_ok {env : Environment} {tokens : List Token} {value : Value} :
    reduce env tokens = .ok value ↔
      ∃ called, applyFunctions env.call (substitute env.valueOf? tokens) = .ok called ∧
        calculate called = .ok value :=
  Outcome.bind_eq_ok

theorem result_single {token : Token} (other : token.isNumber = false)
    (noVariable : [token].findSome? Token.variableName? = none) :
    result [token] = .error (.malformedExpression (.notNumber token)) := by
  cases token with
  | number => cases other
  | variableName name => cases noVariable
  | _ => rfl

theorem result_eq_ok {tokens : List Token} {value : Value} :
    result tokens = .ok value ↔ tokens = [.number value] := by
  constructor
  · intro done
    unfold result at done
    split at done
    · cases done
    · split at done
      · cases done
        rfl
      · cases done
      · cases done
  · rintro rfl
    rfl

end Evaluation
end Reckoner
