import Reckoner.Proofs.Outcome
import Reckoner.Scope

/-!
# Calls in a scope

What a call depends on: the routine of the function, the table and the number of calls left.
-/

namespace Reckoner
namespace Scope

variable {scope : Scope} {entry : FunctionEntry} {name : String} {args : List Value}

theorem callWithin_builtin {f : Builtin} (routine : entry.routine = .builtin f) (callsLeft : Nat) :
    callWithin callsLeft scope entry name args = f.call name args := by
  rw [callWithin]
  simp only [routine]

theorem callWithin_zero {f : Formula} (routine : entry.routine = .formula f) :
    callWithin 0 scope entry name args =
      if f.parameters.length = args.length then .error (.invalidCall name .tooDeep)
      else .error (.invalidCall name (.arity f.parameters.length args.length)) := by
  rw [callWithin]
  simp only [routine]

theorem callWithin_succ {f : Formula} (routine : entry.routine = .formula f) (callsLeft : Nat) :
    callWithin (callsLeft + 1) scope entry name args =
      if f.parameters.length = args.length then
        Reckoner.evaluate ((scope.bind (f.parameters.zip args)).environmentWith
          (callWithin callsLeft (scope.bind (f.parameters.zip args)))) f.body
      else .error (.invalidCall name (.arity f.parameters.length args.length)) := by
  rw [callWithin]
  simp only [routine]

/-- A formula refuses another number of arguments than it has parameters in every scope. -/
theorem call_formula_of_ne {description : String} {f : Formula}
    (different : f.parameters.length ≠ args.length) :
    scope.call ⟨description, .formula f⟩ name args =
      .error (.invalidCall name (.arity f.parameters.length args.length)) := by
  rw [call, callWithin]
  simp only [different, ↓reduceIte]

theorem environmentWith_congr {scope scope' : Scope} (sameTable : scope.table = scope'.table)
    (sameLocals : scope.locals = scope'.locals) :
    scope.environmentWith = scope'.environmentWith := by
  cases scope
  cases scope'
  subst sameTable
  subst sameLocals
  rfl

theorem callWithin_congr {scope' : Scope} (same : scope.table = scope'.table) (callsLeft : Nat) :
    callWithin callsLeft scope = callWithin callsLeft scope' := by
  induction callsLeft generalizing scope scope' with
  | zero =>
      funext entry name args
      cases routine : entry.routine with
      | builtin f => rw [callWithin_builtin routine, callWithin_builtin routine]
      | formula f => rw [callWithin_zero routine, callWithin_zero routine]
  | succ callsLeft induction =>
      funext entry name args
      cases routine : entry.routine with
      | builtin f => rw [callWithin_builtin routine, callWithin_builtin routine]
      | formula f =>
          have inner : callWithin callsLeft (scope.bind (f.parameters.zip args)) =
              callWithin callsLeft (scope'.bind (f.parameters.zip args)) := induction same
          have environment := @environmentWith_congr (scope.bind (f.parameters.zip args))
            (scope'.bind (f.parameters.zip args)) same rfl
          rw [callWithin_succ routine, callWithin_succ routine, inner, environment]

/-- What holds of built-in calls and of refused calls, and passes on from the calls in the body of a
formula to the body, holds of all calls. -/
theorem environment_call_induction {motive : List Value → Except Fault Value → Prop} (scope : Scope)
    (builtin : ∀ (f : Builtin) (name : String) (args : List Value), motive args (f.call name args))
    (unknown : ∀ (name : String) (args : List Value),
      motive args (.error (.invalidCall name .unknown)))
    (arity : ∀ (name : String) (f : Formula) (args : List Value),
      motive args (.error (.invalidCall name (.arity f.parameters.length args.length))))
    (tooDeep : ∀ (name : String) (args : List Value),
      motive args (.error (.invalidCall name .tooDeep)))
    (formula : ∀ (name : String) (entry : FunctionEntry) (f : Formula) (args : List Value)
      (callEntry : FunctionEntry → String → List Value → Except Fault Value),
      scope.table.function? name = some entry → entry.routine = .formula f →
      (∀ name args, motive args ((scope.environmentWith callEntry).call name args)) →
      motive args (Reckoner.evaluate
        ((scope.bind (f.parameters.zip args)).environmentWith callEntry) f.body))
    (name : String) (args : List Value) : motive args (scope.environment.call name args) := by
  have known : ∀ callEntry : FunctionEntry → String → List Value → Except Fault Value,
      (∀ name entry args, scope.table.function? name = some entry →
        motive args (callEntry entry name args)) →
      ∀ name args, motive args ((scope.environmentWith callEntry).call name args) := by
    intro callEntry entries name args
    simp only [environmentWith]
    split
    · next entry found => exact entries name entry args found
    · exact unknown name args
  refine known _ (fun name entry args found => ?_) name args
  rw [call]
  generalize scope.callsLeft = callsLeft
  -- A body is called in the scope of its arguments, where the table and so the calls are the same.
  induction callsLeft generalizing name entry args with
  | zero =>
      cases routine : entry.routine with
      | builtin f =>
          rw [callWithin_builtin routine]
          exact builtin f name args
      | formula f =>
          rw [callWithin_zero routine]
          split_ifs
          · exact tooDeep name args
          · exact arity name f args
  | succ callsLeft induction =>
      cases routine : entry.routine with
      | builtin f =>
          rw [callWithin_builtin routine]
          exact builtin f name args
      | formula f =>
          rw [callWithin_succ routine, @callWithin_congr (scope.bind _) scope rfl]
          split_ifs
          · exact formula name entry f args _ found routine (known _ induction)
          · exact arity name f args

theorem environment_call_congr {scope scope' : Scope} (sameTable : scope.table = scope'.table)
    (sameDepth : scope.depth = scope'.depth) :
    scope.environment.call = scope'.environment.call := by
  funext name args
  simp only [environment, environmentWith, call, callsLeft, sameTable, sameDepth,
    callWithin_congr sameTable]

end Scope
end Reckoner
