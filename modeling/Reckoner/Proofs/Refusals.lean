import Reckoner.Proofs.Comparison.Equality

/-!
# Refusals

The number of calls around a scope is compared with the limit and matters nowhere else.  What is
evaluated without a refusal has the same outcome in every scope with fewer calls around.
-/

namespace Reckoner
namespace Comparison

/-- The comparison of a run with one that has fewer calls left and may be refused a call. -/
def refusing : Comparison :=
  equality (fun _ => True) (fun fault => ∃ name, fault = .invalidCall name .tooDeep)
    (fun _ => trivial) fun _ _ => trivial

/-- A routine is called alike with more calls left, unless the fewer calls run out. -/
theorem linked_of_le {table : Table} {callsLeft fewer : Nat} (le : fewer ≤ callsLeft)
    (routine : Routine) : refusing.Linked table table callsLeft fewer routine routine := by
  induction fewer generalizing callsLeft routine with
  | zero =>
      rw [Linked]
      cases routine with
      | builtin f => exact .builtin f
      | formula f => exact .formula fun name => .inr ⟨name, rfl⟩
  | succ fewer induction =>
      obtain ⟨callsLeft, rfl⟩ : ∃ more, callsLeft = more + 1 :=
        Nat.exists_eq_add_one_of_ne_zero (by omega)
      rw [Linked]
      cases routine with
      | builtin f => exact .builtin f
      | formula f =>
          refine .formula (matchesAll_self (fun _ _ => rfl) (fun _ => trivial) ?_ ?_)
          · exact fun name _ => rel_eq_of_eq rfl
          · exact fun name _ => rel_self fun entry _ =>
              induction (Nat.le_of_succ_le_succ le) entry.routine

end Comparison

namespace Scope

open Comparison

variable {table : Table} {locals : List (String × Value)} {depth deeper : Nat}

/-- Tokens are evaluated alike at two depths unless the greater depth makes a call too deep. -/
theorem agree_evaluate_depths (shallower : depth ≤ deeper) (tokens : List Token) :
    refusing.Agree Eq (evaluate ⟨table, locals, depth⟩ tokens)
      (evaluate ⟨table, locals, deeper⟩ tokens) := by
  have fewer : depthLimit - deeper ≤ depthLimit - depth := by omega
  refine agree_evaluate_scope (matchesAll_self (fun _ _ => rfl) (fun _ => trivial) ?_ ?_)
  · exact fun name _ => rel_eq_of_eq rfl
  · exact fun name _ => rel_self fun entry _ => linked_of_le fewer entry.routine

/-- The depth of a scope never changes an outcome: if the evaluation at the greater of two depths
does not end because a call is too deep, the one at the smaller depth ends in the same way. -/
theorem evaluate_eq_of_depth_le (shallower : depth ≤ deeper) (tokens : List Token)
    (accepted : ∀ name,
      evaluate ⟨table, locals, deeper⟩ tokens ≠ .error (.invalidCall name .tooDeep)) :
    evaluate ⟨table, locals, depth⟩ tokens = evaluate ⟨table, locals, deeper⟩ tokens := by
  have agree := @agree_evaluate_depths table locals depth deeper shallower tokens
  generalize evaluate ⟨table, locals, depth⟩ tokens = outcome at agree ⊢
  generalize evaluate ⟨table, locals, deeper⟩ tokens = outcome' at agree accepted ⊢
  cases agree with
  | ok same => rw [same]
  | error => rfl
  | refused refuses =>
      obtain ⟨name, rfl⟩ := refuses
      exact absurd rfl (accepted name)

/-- Two nested calls have the same value far from the limit and just below it, and one level deeper
the inner call is refused. -/
theorem evaluate_last_two_calls :
    let table := (Table.empty.setFunction "f" ⟨"f(x)=g(x)",
      .formula ⟨["x"], [.functionName "g", .variableName "x"]⟩⟩).setFunction "g"
        ⟨"g(x)=x", .formula ⟨["x"], [.variableName "x"]⟩⟩
    let locals := [("y", Value.scalar 1)]
    let tokens : List Token := [.functionName "f", .variableName "y"]
    (∀ name, evaluate ⟨table, locals, 62⟩ tokens ≠ .error (.invalidCall name .tooDeep)) ∧
      evaluate ⟨table, locals, 5⟩ tokens = evaluate ⟨table, locals, 62⟩ tokens ∧
      evaluate ⟨table, locals, 63⟩ tokens = .error (.invalidCall "g" .tooDeep) := by
  intro table locals tokens
  have accepted : ∀ name,
      evaluate ⟨table, locals, 62⟩ tokens ≠ .error (.invalidCall name .tooDeep) := by
    have value : evaluate ⟨table, locals, 62⟩ tokens = .ok (.scalar 1) := rfl
    intro name refused
    rw [value] at refused
    cases refused
  exact ⟨accepted, evaluate_eq_of_depth_le (by decide) tokens accepted, rfl⟩

end Scope
end Reckoner
