import Reckoner.Proofs.Comparison.Scope
import Reckoner.Proofs.Value

/-!
# Comparing equal values

Two runs over the same values differ only in what they may refuse.
-/

namespace Reckoner

namespace Builtin

theorem raised_arityFault (f : Builtin) (name : String) (got : Nat) :
    Fault.Raised (.invalidCall name (f.arityFault got)) := by
  rw [arityFault]
  split_ifs
  · exact .arityRange name 1 2 got
  · exact .arity name 1 got

theorem raised_of_call {f : Builtin} {name : String} {args : List Value} {fault : Fault}
    (failed : f.call name args = .error fault) :
    fault.Raised ∨ ∃ left right, fault = .shapeMismatch left right := by
  obtain ⟨got, rfl⟩ | shapes := call_eq_error failed
  · exact .inl (raised_arityFault f name got)
  · exact .inr shapes

end Builtin

namespace Comparison

open Outcome

/-- The comparison of runs over equal values. -/
def equality (allowed refused : Fault → Prop)
    (raised : ∀ {fault : Fault}, fault.Raised → allowed fault)
    (shapes : ∀ left right, allowed (.shapeMismatch left right)) : Comparison where
  related := Eq
  allowed := allowed
  refused := refused
  arrays := True
  apply op binary := by
    rintro lhs _ rhs _ rfl rfl
    refine Agree.refl fun fault failed => ?_
    obtain ⟨f, broadcasts⟩ := Value.exists_apply_eq_broadcast binary
    rw [broadcasts] at failed
    rw [Value.broadcast_eq_error failed]
    exact shapes _ _
  factorial := congrArg Value.factorial
  neg := congrArg Value.neg
  array _ := by
    intro values values' _ same
    rw [List.forall₂_eq_eq_eq] at same
    rw [same]
  builtin f name := by
    intro args args' same
    rw [List.forall₂_eq_eq_eq] at same
    subst same
    refine Agree.refl fun fault failed => ?_
    rcases Builtin.raised_of_call failed with known | ⟨left, right, rfl⟩
    · exact raised known
    · exact shapes left right
  raised := raised

/-- All faults are allowed and none is refused. -/
def exact : Comparison := equality (fun _ => True) (fun _ => False) (fun _ => trivial)
  fun _ _ => trivial

theorem rel_eq_of_eq {left right : Option Value} (same : left = right) :
    Option.Rel Eq left right := by
  subst same
  exact rel_self fun _ _ => rfl

theorem exact_callable {env env' : Environment} {name : String}
    (same : env.call name = env'.call name) : (exact.names env env').callable name := by
  intro args args' all
  have equal : args = args' := by
    rw [← List.forall₂_eq_eq_eq]
    exact all
  rw [equal, same]
  exact Agree.refl fun _ _ => trivial

end Comparison

/-- Outcomes that agree on equal values without refusals are equal. -/
theorem Outcome.Agree.eq {α : Type} {allowed : Fault → Prop} {left right : Except Fault α}
    (agree : Agree allowed (fun _ => False) Eq left right) : left = right := by
  cases agree with
  | ok same => rw [same]
  | error => rfl
  | refused impossible => exact impossible.elim

end Reckoner
