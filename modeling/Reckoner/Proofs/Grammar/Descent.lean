import Reckoner.Proofs.Grammar.Calls
import Reckoner.Scope

/-!
# Evaluation by descent

The passes over a flat sequence compute the values of the grammar: a sequence evaluates to a value
exactly if it is an expression with that value.
-/

namespace Reckoner

open Evaluation Grammar

variable {env : Environment} {tokens : List Token} {value : Value}

theorem derives_of_evaluateWithin {size : Nat}
    (evaluated : evaluateWithin env size tokens = .ok value) : Derives env .sum value tokens := by
  induction size generalizing tokens value with
  | zero => cases tokens <;> simp [evaluateWithin] at evaluated
  | succ size induction =>
      cases tokens with
      | nil => simp [evaluateWithin] at evaluated
      | cons token rest =>
          simp only [evaluateWithin, Outcome.bind_eq_ok, reduce_eq_ok] at evaluated
          obtain ⟨built, arrays, flat, groups, called, applied, calculated⟩ := evaluated
          have sound : ∀ slice value, evaluateWithin env size slice = .ok value →
              Derives env .sum value slice := fun _ _ => induction
          have closed := opening_notMem_of_calculate calculated .round
          have divided := Outline.divides_of_fill groups
          have atoms := (sound_of_divides sound divided).1 flat called groups applied closed
          have sum := derives_of_calculate atoms calculated
          exact (expand_hereditary env).derives sum _ (abbreviates_of_buildArrays sound arrays)

theorem evaluate_of_derives (derived : Derives env .sum value tokens) :
    evaluate env tokens = .ok value := by
  induction length : tokens.length using Nat.strongRecOn generalizing tokens value with
  | ind length induction =>
      subst length
      have complete : ∀ slice value, slice.length < tokens.length → Derives env .sum value slice →
          evaluate env slice = .ok value :=
        fun slice value short sum => induction slice.length short sum rfl
      -- The arrays come first: the rest is found in what abbreviates the tokens without them.
      obtain ⟨built, arrays, arrayFree, sum⟩ := (contract_hereditary env).derives derived
      have builds := buildArrays_of_abbreviates complete arrays arrayFree
      obtain ⟨atoms, calls, arithmetic, calculated⟩ := exists_calculate sum
      obtain ⟨flat, groups, applied⟩ :=
        exists_flattened complete calls arrayFree arithmetic (length_buildArrays_le builds)
      rw [evaluate_eq env ((nonempty_hereditary env).derives derived)]
      simp only [Outcome.bind_eq_ok, reduce_eq_ok]
      exact ⟨built, builds, flat, groups, atoms, applied, calculated⟩

/-- Evaluation and derivation agree. -/
theorem evaluate_eq_ok_iff : evaluate env tokens = .ok value ↔ Derives env .sum value tokens :=
  ⟨derives_of_evaluateWithin, evaluate_of_derives⟩

/-- A token sequence evaluates to a value exactly if it is written by a phrase with that value. -/
theorem Scope.evaluate_eq_ok_iff_exists_phrase (scope : Scope) (tokens : List Token)
    (value : Value) :
    scope.evaluate tokens = .ok value ↔
      ∃ phrase : Phrase .sum, phrase.tokens = tokens ∧
        phrase.value scope.environment = some value := by
  constructor
  · intro evaluated
    exact derives_of_evaluateWithin evaluated
  · intro phrase
    exact evaluate_of_derives phrase

end Reckoner
