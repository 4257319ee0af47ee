import Reckoner.Proofs.Comparison.Brackets
import Reckoner.Proofs.Passes

/-!
# Comparing reductions

Once groups have been evaluated, every pass over corresponding sequences leaves corresponding
sequences or ends in the same fault.
-/

namespace Reckoner
namespace Comparison

open Evaluation Outcome

variable {comparison : Comparison} {env env' : Environment}

/-! ## Variables and calls -/

theorem shares_resolve {token token' : Token}
    (tokens : comparison.Matches (comparison.names env env') token token') :
    comparison.Shares (resolve env.valueOf? token) (resolve env'.valueOf? token') := by
  cases tokens with
  | number values => exact .number values
  | @variableName name holds =>
      simp only [names] at holds
      simp only [resolve]
      generalize env.valueOf? name = left at holds ⊢
      generalize env'.valueOf? name = right at holds ⊢
      cases holds with
      | none => exact .other rfl
      | some values => exact .number values
  | replaced holds =>
      obtain ⟨value, bound, values⟩ := holds
      simp only [resolve, bound]
      exact .number values
  | _ => exact .other rfl

theorem shares_groupTokens {values values' : List Value}
    (all : List.Forall₂ comparison.related values values') :
    List.Forall₂ comparison.Shares (groupTokens values) (groupTokens values') := by
  have interspersed : List.Forall₂ comparison.Shares
      ((values.map Token.number).intersperse .separator)
      ((values'.map Token.number).intersperse .separator) := by
    induction all with
    | nil => exact .nil
    | cons first rest induction =>
        cases rest with
        | nil => exact .cons (.number first) .nil
        | cons second rest => exact .cons (.number first) (.cons (.other rfl) induction)
  have listed : List.Forall₂ comparison.Shares
      (.opening .round :: ((values.map Token.number).intersperse .separator ++ [.closing .round]))
      (.opening .round ::
        ((values'.map Token.number).intersperse .separator ++ [.closing .round])) :=
    .cons (.other rfl) (List.rel_append interspersed (.cons (.other rfl) .nil))
  cases all with
  | nil => exact listed
  | cons first rest =>
      cases rest with
      | nil => exact .cons (.number first) .nil
      | cons second rest => exact listed

/-- Calls are replaced alike outside a call and behind the name of a function that is called
alike. -/
theorem agree_applyFrom {tokens tokens' : List Token}
    (flat : MatchesFlat comparison (comparison.names env env') tokens tokens') :
    comparison.Agree (List.Forall₂ comparison.Shares)
        (applyFrom env.call .outside (substitute env.valueOf? tokens))
        (applyFrom env'.call .outside (substitute env'.valueOf? tokens')) ∧
      ∀ name, (comparison.names env env').callable name →
        comparison.Agree (List.Forall₂ comparison.Shares)
          (applyFrom env.call (.named name) (substitute env.valueOf? tokens))
          (applyFrom env'.call (.named name) (substitute env'.valueOf? tokens')) := by
  induction flat with
  | nil =>
      constructor
      · exact .ok .nil
      · intro name _
        exact .error (comparison.raised (.missingArguments name))
  | @plain token token' rest rest' noOpening tokens tails induction =>
      obtain ⟨outside, named⟩ := induction
      have shares := shares_resolve tokens
      constructor
      · by_cases function : token.isFunctionName = true
        · obtain ⟨name, rfl, rfl, callable⟩ := tokens.callable function
          exact named name callable
        · rw [Bool.not_eq_true] at function
          have function' := tokens.isFunctionName_eq.symm.trans function
          rw [← isFunctionName_resolve env.valueOf?] at function
          rw [← isFunctionName_resolve env'.valueOf?] at function'
          rw [substitute, substitute, List.map_cons, List.map_cons,
            applyFrom_outside_cons _ function, applyFrom_outside_cons _ function']
          refine outside.bind fun short short' shared => ?_
          exact .ok (.cons shares shared)
      · intro name callable
        replace noOpening : resolve env.valueOf? token ≠ .opening .round :=
          resolve_ne_opening noOpening
        rw [substitute, substitute, List.map_cons, List.map_cons]
        generalize resolve env.valueOf? token = head at shares noOpening ⊢
        generalize resolve env'.valueOf? token' = head' at shares ⊢
        cases shares with
        | number values =>
            refine (callable _ _ (.cons values .nil)).bind fun value value' related => ?_
            refine outside.bind fun short short' shared => ?_
            exact .ok (.cons (.number related) shared)
        | other other =>
            rw [applyFrom_named_other _ other noOpening, applyFrom_named_other _ other noOpening]
            exact .error (comparison.raised (.notArguments name other))
  | @group values values' rest rest' all tails induction =>
      obtain ⟨outside, named⟩ := induction
      rw [substitute_groupTokens, substitute_groupTokens]
      constructor
      · rw [applyFrom_outside_groupTokens, applyFrom_outside_groupTokens]
        refine outside.bind fun short short' shared => ?_
        exact .ok (List.rel_append (shares_groupTokens all) shared)
      · intro name callable
        rw [applyFrom_named_groupTokens, applyFrom_named_groupTokens]
        refine (callable _ _ all).bind fun value value' related => ?_
        refine outside.bind fun short short' shared => ?_
        exact .ok (.cons (.number related) shared)

/-! ## Operators -/

theorem shares_factorialsFrom {written written' rest rest' : List Token}
    (before : List.Forall₂ comparison.Shares written written')
    (after : List.Forall₂ comparison.Shares rest rest') :
    List.Forall₂ comparison.Shares (factorialsFrom written rest)
      (factorialsFrom written' rest') := by
  induction after generalizing written written' with
  | nil =>
      rw [factorialsFrom, factorialsFrom]
      exact List.rel_reverse before
  | @cons token token' rest rest' head tail induction =>
      cases head with
      | number values =>
          rw [factorialsFrom_other (by simp), factorialsFrom_other (by simp)]
          exact induction (.cons (.number values) before)
      | other other =>
          by_cases factorial : token = .operator .factorial
          · subst factorial
            cases before with
            | nil => exact induction (.cons (.other rfl) .nil)
            | cons last earlier =>
                cases last with
                | number values =>
                    exact induction (.cons (.number (comparison.factorial values)) earlier)
                | other noNumber =>
                    rw [factorialsFrom_behind noNumber, factorialsFrom_behind noNumber]
                    exact induction (.cons (.other rfl) (.cons (.other noNumber) earlier))
          · rw [factorialsFrom_other factorial, factorialsFrom_other factorial]
            exact induction (.cons (.other other) before)

theorem agree_combineFrom {picks : Operator → Bool} (binary : picks .factorial = false)
    {written written' rest rest' : List Token} {afterNumber : Bool}
    (before : List.Forall₂ comparison.Shares written written')
    (after : List.Forall₂ comparison.Shares rest rest')
    (marked : afterNumber = true → ∃ value earlier, written = .number value :: earlier) :
    comparison.Agree (List.Forall₂ comparison.Shares) (combineFrom picks written afterNumber rest)
      (combineFrom picks written' afterNumber rest') := by
  fun_induction combineFrom picks written afterNumber rest generalizing written' rest' with
  | case1 =>
      cases after
      rw [combineFrom]
      exact .ok (List.rel_reverse before)
  | case2 written afterNumber op picked =>
      cases after with
      | cons head tail =>
          cases head
          cases tail
          simp only [combineFrom, picked, ↓reduceIte]
          exact .error (comparison.raised (.missingOperandAfter op))
  | case3 afterNumber op picked rhs rest lhs written induction =>
      cases before with
      | cons last earlier =>
          cases after with
          | cons head operands =>
              cases operands with
              | cons operand tail =>
                  cases last with
                  | other impossible => cases impossible
                  | number left =>
                      cases head
                      cases operand with
                      | other impossible => cases impossible
                      | number right =>
                          simp only [combineFrom, picked, ↓reduceIte]
                          have applied := comparison.apply op (by rintro rfl; simp_all) left right
                          refine applied.bind fun value value' related => ?_
                          exact induction value (.cons (.number related) earlier) tail (by simp)
  | case4 written afterNumber op picked rhs rest noNumber =>
      -- An operator behind a number always finds that number as the last token written.
      obtain ⟨value, earlier, rfl⟩ := marked (Bool.and_eq_true_iff.mp picked).1
      exact absurd rfl (noNumber value earlier)
  | case5 written afterNumber op picked rest filled noNumber induction =>
      cases after with
      | cons head tail =>
          cases head
          have copied := induction (.cons (.other rfl) before) tail (by simp)
          cases tail with
          | nil => exact absurd rfl filled
          | cons next later =>
              cases next with
              | number values => exact absurd rfl (noNumber _ _)
              | other other =>
                  rw [combineFrom_copy other]
                  exact copied
  | case6 written afterNumber op rest unpicked induction =>
      cases after with
      | cons head tail =>
          cases head
          rw [combineFrom_skip (by simpa using unpicked)]
          exact induction (.cons (.other rfl) before) tail (by simp)
  | case7 written afterNumber token rest noOperator induction =>
      cases after with
      | cons head tail =>
          cases head with
          | number values =>
              rw [combineFrom_number]
              exact induction (.cons (.number values) before) tail fun _ => ⟨_, _, rfl⟩
          | other other =>
              have operator : token.isOperator = false := by
                cases token <;> first | rfl | exact absurd rfl (noOperator _)
              rw [combineFrom_other other operator]
              rw [other] at induction ⊢
              exact induction (.cons (.other other) before) tail (by simp)

theorem agree_combine {picks : Operator → Bool} (binary : picks .factorial = false)
    {tokens tokens' : List Token} (all : List.Forall₂ comparison.Shares tokens tokens') :
    comparison.Agree (List.Forall₂ comparison.Shares) (combine picks tokens)
      (combine picks tokens') :=
  agree_combineFrom binary .nil all (by simp)

theorem shares_negationsFrom {tokens tokens' : List Token} (afterOperator : Bool)
    (all : List.Forall₂ comparison.Shares tokens tokens') :
    List.Forall₂ comparison.Shares (negationsFrom afterOperator tokens)
      (negationsFrom afterOperator tokens') := by
  fun_induction negationsFrom afterOperator tokens generalizing tokens' with
  | case1 =>
      cases all
      exact .nil
  | case2 value rest induction =>
      cases all with
      | cons head tail =>
          cases head
          cases tail with
          | cons next later =>
              cases next with
              | number values => exact .cons (.number (comparison.neg values)) (induction later)
              | other impossible => cases impossible
  | case3 afterOperator token rest unsigned induction =>
      cases all with
      | @cons _ token' _ rest' head tail =>
          have copied : negationsFrom afterOperator (token' :: rest') =
              token' :: negationsFrom token'.isOperator rest' := by
            rw [negationsFrom]
            rintro value later marked rfl rfl
            cases head
            cases tail with
            | cons next later =>
                cases next with
                | number values => exact unsigned _ _ marked rfl rfl
                | other impossible => cases impossible
          have operator : token.isOperator = token'.isOperator := by
            cases head <;> rfl
          rw [copied, ← operator]
          exact .cons head (induction tail)

theorem findSome?_variableName? {tokens tokens' : List Token}
    (all : List.Forall₂ comparison.Shares tokens tokens') :
    tokens.findSome? Token.variableName? = tokens'.findSome? Token.variableName? := by
  induction all with
  | nil => rfl
  | cons head _ induction =>
      rw [List.findSome?_cons, List.findSome?_cons, induction]
      cases head <;> rfl

theorem agree_result {tokens tokens' : List Token}
    (all : List.Forall₂ comparison.Shares tokens tokens') :
    comparison.Agree comparison.related (result tokens) (result tokens') := by
  have same := findSome?_variableName? all
  cases found : tokens.findSome? Token.variableName? with
  | some name =>
      rw [found] at same
      simp only [result, found, ← same]
      exact .error (comparison.raised (.unknownVariable name))
  | none =>
      rw [found] at same
      cases all with
      | nil => exact .error (comparison.raised (.leftOver 0))
      | cons head tail =>
          cases tail with
          | nil =>
              cases head with
              | number values => exact .ok values
              | other other =>
                  rw [result_single other found]
                  exact .error (comparison.raised (.notNumber other))
          | cons next later =>
              have lengths := later.length_eq
              simp only [result, found, ← same, List.length_cons, lengths]
              exact .error (comparison.raised (.leftOver _))

/-- Sequences whose groups have been evaluated alike are reduced alike. -/
theorem agree_reduce {tokens tokens' : List Token}
    (flat : MatchesFlat comparison (comparison.names env env') tokens tokens') :
    comparison.Agree comparison.related (reduce env tokens) (reduce env' tokens') := by
  refine (agree_applyFrom flat).1.bind fun called called' all => ?_
  refine (agree_combine rfl (shares_factorialsFrom .nil all)).bind fun _ _ all => ?_
  refine (agree_combine rfl all).bind fun _ _ all => ?_
  refine (agree_combine rfl (shares_negationsFrom true all)).bind fun _ _ all => ?_
  exact agree_result all

end Comparison
end Reckoner
