import Reckoner.Evaluation.Basic
import Reckoner.Proofs.Outcome

/-!
# Calls with evaluated arguments

An evaluated group is exactly what a function name expects behind it.  Anywhere else it is copied.
-/

namespace Reckoner
namespace Evaluation

variable (call : String → List Value → Except Fault Value)

/-- The values of a list behind the arguments read so far are the remaining arguments. -/
theorem applyFrom_arguments (name : String) (args : List Value) (value : Value)
    (values : List Value) (rest : List Token) :
    applyFrom call (.beforeArgument name args)
        (((value :: values).map Token.number).intersperse .separator ++
          .closing .round :: rest) = (do
      let result ← call name (args ++ value :: values)
      let rest ← applyFrom call .outside rest
      return .number result :: rest) := by
  induction values generalizing args value with
  | nil => rfl
  | cons next values induction =>
      have later := induction (args ++ [value]) next
      rw [List.append_assoc, List.singleton_append] at later
      rw [← later]
      rfl

theorem applyFrom_named_groupTokens (name : String) (values : List Value) (rest : List Token) :
    applyFrom call (.named name) (groupTokens values ++ rest) = (do
      let result ← call name values
      let rest ← applyFrom call .outside rest
      return .number result :: rest) := by
  match values with
  | [] => rfl
  | [value] => rfl
  | value :: next :: values =>
      have list := applyFrom_arguments call name [] value (next :: values) rest
      rw [List.nil_append] at list
      rw [← list]
      simp only [groupTokens, List.cons_append, List.append_assoc, List.nil_append]
      rfl

theorem forall_mem_intersperse {holds : Token → Prop} (number : ∀ value, holds (.number value))
    (separator : holds .separator) (values : List Value) :
    ∀ token ∈ (values.map Token.number).intersperse .separator, holds token := by
  induction values with
  | nil => simp
  | cons value values induction =>
      cases values with
      | nil => simpa using number value
      | cons next values =>
          rw [List.map_cons, List.map_cons, List.intersperse_cons_cons]
          refine List.forall_mem_cons.mpr ⟨number value, ?_⟩
          exact List.forall_mem_cons.mpr ⟨separator, induction⟩

theorem forall_mem_groupTokens {holds : Token → Prop} (number : ∀ value, holds (.number value))
    (separator : holds .separator) (opening : holds (.opening .round))
    (closing : holds (.closing .round)) (values : List Value) :
    ∀ token ∈ groupTokens values, holds token := by
  have interspersed := forall_mem_intersperse number separator values
  have listed : ∀ token ∈ .opening .round ::
      ((values.map Token.number).intersperse .separator ++ [.closing .round]), holds token := by
    refine List.forall_mem_cons.mpr ⟨opening, List.forall_mem_append.mpr ⟨interspersed, ?_⟩⟩
    simpa using closing
  rcases values with - | ⟨value, - | ⟨next, values⟩⟩
  · exact listed
  · simpa [groupTokens] using number value
  · exact listed

theorem applyFrom_outside_cons {token : Token} (plain : token.isFunctionName = false)
    (rest : List Token) :
    applyFrom call .outside (token :: rest) = (do
      let rest ← applyFrom call .outside rest
      return token :: rest) := by
  cases token <;> first | rfl | cases plain

theorem applyFrom_outside_append {tokens : List Token}
    (plain : ∀ token ∈ tokens, token.isFunctionName = false) (rest : List Token) :
    applyFrom call .outside (tokens ++ rest) = (do
      let rest ← applyFrom call .outside rest
      return tokens ++ rest) := by
  induction tokens with
  | nil => cases done : applyFrom call .outside rest <;> exact done
  | cons token tokens induction =>
      obtain ⟨head, tail⟩ := List.forall_mem_cons.mp plain
      rw [List.cons_append, applyFrom_outside_cons call head, induction tail]
      cases applyFrom call .outside rest <;> rfl

theorem applyFrom_outside_groupTokens (values : List Value) (rest : List Token) :
    applyFrom call .outside (groupTokens values ++ rest) = (do
      let rest ← applyFrom call .outside rest
      return groupTokens values ++ rest) := by
  apply applyFrom_outside_append
  refine forall_mem_groupTokens (fun _ => ?_) ?_ ?_ ?_ values <;> rfl

/-- A function name that no bracket follows takes a number. -/
theorem applyFrom_named_cons_eq_ok {name : String} {token : Token} {rest result : List Token}
    (noOpening : token ≠ .opening .round)
    (applied : applyFrom call (.named name) (token :: rest) = .ok result) :
    ∃ argument value later, token = .number argument ∧ call name [argument] = .ok value ∧
      applyFrom call .outside rest = .ok later ∧ result = .number value :: later := by
  cases token with
  | number argument =>
      obtain ⟨value, called, continued⟩ := Outcome.bind_eq_ok.mp applied
      obtain ⟨later, appliedRest, done⟩ := Outcome.bind_eq_ok.mp continued
      cases done
      exact ⟨argument, value, later, rfl, called, appliedRest, rfl⟩
  | opening shape =>
      cases shape with
      | round => exact absurd rfl noOpening
      | square => cases applied
  | _ => cases applied

theorem applyFrom_named_other {name : String} {token : Token} {rest : List Token}
    (other : token.isNumber = false) (noOpening : token ≠ .opening .round) :
    applyFrom call (.named name) (token :: rest) =
      .error (.invalidCall name (.notArguments token)) := by
  cases token with
  | number => cases other
  | opening shape =>
      cases shape with
      | round => exact absurd rfl noOpening
      | square => rfl
  | _ => rfl

theorem isFunctionName_resolve (valueOf? : String → Option Value) (token : Token) :
    (resolve valueOf? token).isFunctionName = token.isFunctionName := by
  cases token with
  | variableName name => cases bound : valueOf? name <;> simp [resolve, bound, Token.isFunctionName]
  | _ => rfl

theorem isFunctionName_of_resolve {valueOf? : String → Option Value} {token : Token} {value : Value}
    (number : resolve valueOf? token = .number value) : token.isFunctionName = false := by
  rw [← isFunctionName_resolve valueOf?, number]
  rfl

theorem resolve_ne_opening {valueOf? : String → Option Value} {token : Token} {shape : Bracket}
    (noOpening : token ≠ .opening shape) : resolve valueOf? token ≠ .opening shape := by
  cases token with
  | variableName name => cases bound : valueOf? name <;> simp [resolve, bound]
  | _ => exact noOpening

theorem substitute_groupTokens (valueOf? : String → Option Value) (values : List Value)
    (rest : List Token) :
    substitute valueOf? (groupTokens values ++ rest) =
      groupTokens values ++ substitute valueOf? rest := by
  rw [substitute, List.map_append]
  have fixed : ∀ token ∈ groupTokens values, resolve valueOf? token = token := by
    refine forall_mem_groupTokens (fun _ => ?_) ?_ ?_ ?_ values <;> rfl
  congr 1
  calc
    (groupTokens values).map (resolve valueOf?) = (groupTokens values).map id :=
      List.map_congr_left fixed
    _ = groupTokens values := List.map_id _

/-! ## Other functions under the names -/

/-- The name that is being called, if there is one. -/
def CallState.name? : CallState → Option String
  | outside => none
  | named name => some name
  | beforeArgument name _ => some name
  | afterArgument name _ => some name

theorem applyFrom_congr {call other : String → List Value → Except Fault Value} (state : CallState)
    (tokens : List Token) (current : ∀ name ∈ state.name?, call name = other name)
    (later : ∀ name, .functionName name ∈ tokens → call name = other name) :
    applyFrom call state tokens = applyFrom other state tokens := by
  induction state, tokens using applyFrom.induct with
  | _ => simp_all [applyFrom, CallState.name?]

theorem functionName_mem_substitute {valueOf? : String → Option Value} {tokens : List Token}
    {name : String} (member : .functionName name ∈ substitute valueOf? tokens) :
    .functionName name ∈ tokens := by
  obtain ⟨token, occurs, resolved⟩ := List.mem_map.mp member
  have function : token.isFunctionName = true := by
    rw [← isFunctionName_resolve valueOf?, resolved]
    rfl
  cases token with
  | functionName => exact resolved ▸ occurs
  | _ => cases function

/-- Reduction calls only the functions that are named. -/
theorem reduce_congr {env env' : Environment} {tokens : List Token}
    (values : env.valueOf? = env'.valueOf?)
    (calls : ∀ name, .functionName name ∈ tokens → env.call name = env'.call name) :
    reduce env tokens = reduce env' tokens := by
  have applied : applyFunctions env.call (substitute env.valueOf? tokens) =
      applyFunctions env'.call (substitute env'.valueOf? tokens) := by
    rw [applyFunctions, applyFunctions, ← values]
    refine applyFrom_congr _ _ nofun fun name member => ?_
    exact calls name (functionName_mem_substitute member)
  rw [reduce, reduce, applied]

end Evaluation
end Reckoner
