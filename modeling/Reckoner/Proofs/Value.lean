import Reckoner.Function.Builtin
import Reckoner.Proofs.Outcome

/-!
# Faults of arithmetic

Every operator between two operands broadcasts a function of two numbers, which fails only on
lengths.
-/

namespace Reckoner
namespace Value

theorem exists_entry {value : Value} (scalar : value.length = 1) : ∃ entry, value = ⟨[entry]⟩ := by
  obtain ⟨entry, single⟩ := List.length_eq_one_iff.mp scalar
  exact ⟨entry, congrArg Value.mk single⟩

theorem broadcast_eq_error {f : Float → Float → Float} {lhs rhs : Value} {fault : Fault}
    (failed : broadcast f lhs rhs = .error fault) :
    fault = .shapeMismatch lhs.length rhs.length := by
  rw [broadcast] at failed
  split_ifs at failed
  split at failed
  · cases failed
  · cases failed
  · cases failed
    rfl

theorem broadcast_of_length_eq (f : Float → Float → Float) {lhs rhs : Value}
    (same : lhs.length = rhs.length) :
    broadcast f lhs rhs = .ok ⟨List.zipWith (combine f) lhs.entries rhs.entries⟩ := by
  rw [broadcast, if_pos same]

theorem broadcast_scalar_left (f : Float → Float → Float) (entry : Option Float) (rhs : Value) :
    broadcast f ⟨[entry]⟩ rhs = .ok ⟨rhs.entries.map (combine f entry)⟩ := by
  by_cases same : Value.length ⟨[entry]⟩ = rhs.length
  · obtain ⟨other, single⟩ := List.length_eq_one_iff.mp same.symm
    rw [broadcast_of_length_eq f same, single]
    rfl
  · rw [broadcast, if_neg same]

theorem broadcast_scalar_right (f : Float → Float → Float) (lhs : Value) (entry : Option Float) :
    broadcast f lhs ⟨[entry]⟩ = .ok ⟨lhs.entries.map (combine f · entry)⟩ := by
  by_cases same : lhs.length = Value.length ⟨[entry]⟩
  · obtain ⟨other, single⟩ := List.length_eq_one_iff.mp same
    rw [broadcast_of_length_eq f same, single]
    rfl
  · rw [broadcast, if_neg same]
    split
    · rename_i other entries single
      exact absurd (congrArg List.length single) same
    · rename_i other equal _
      cases equal
      rfl
    · rename_i impossible
      exact absurd rfl (impossible entry)

theorem broadcast_mismatch (f : Float → Float → Float) {lhs rhs : Value}
    (different : lhs.length ≠ rhs.length) (left : lhs.length ≠ 1) (right : rhs.length ≠ 1) :
    broadcast f lhs rhs = .error (.shapeMismatch lhs.length rhs.length) := by
  rw [broadcast, if_neg different]
  split
  · rename_i single
    exact absurd (congrArg List.length single) left
  · rename_i single _
    exact absurd (congrArg List.length single) right
  · rfl

/-- Two lengths that broadcast, with the length of the result. -/
inductive Broadcasts : Nat → Nat → Nat → Prop where
  | same (length : Nat) : Broadcasts length length length
  | left (length : Nat) : Broadcasts 1 length length
  | right (length : Nat) : Broadcasts length 1 length

/-- The lengths of two values decide whether they broadcast, and to which length. -/
theorem broadcast_cases (f : Float → Float → Float) (lhs rhs : Value) :
    (∃ value, broadcast f lhs rhs = .ok value ∧
        Broadcasts lhs.length rhs.length value.length) ∨
      lhs.length ≠ rhs.length ∧ lhs.length ≠ 1 ∧ rhs.length ≠ 1 ∧
        broadcast f lhs rhs = .error (.shapeMismatch lhs.length rhs.length) := by
  by_cases same : lhs.length = rhs.length
  · refine .inl ⟨_, broadcast_of_length_eq f same, ?_⟩
    have length : (List.zipWith (combine f) lhs.entries rhs.entries).length = rhs.length := by
      rw [List.length_zipWith]
      exact (congrArg (min · _) same).trans (Nat.min_self _)
    rw [same]
    exact length ▸ .same _
  by_cases left : lhs.length = 1
  · obtain ⟨entry, rfl⟩ := exists_entry left
    refine .inl ⟨_, broadcast_scalar_left f entry rhs, ?_⟩
    have length : (rhs.entries.map (combine f entry)).length = rhs.length := List.length_map _
    exact length ▸ .left _
  by_cases right : rhs.length = 1
  · obtain ⟨entry, rfl⟩ := exists_entry right
    refine .inl ⟨_, broadcast_scalar_right f lhs entry, ?_⟩
    have length : (lhs.entries.map (combine f · entry)).length = lhs.length := List.length_map _
    exact length ▸ .right _
  exact .inr ⟨same, left, right, broadcast_mismatch f same left right⟩

theorem exists_apply_eq_broadcast {op : Operator} (binary : op ≠ .factorial) :
    ∃ f : Float → Float → Float, ∀ lhs rhs, apply op lhs rhs = broadcast f lhs rhs := by
  cases op with
  | factorial => exact absurd rfl binary
  | _ => exact ⟨_, fun _ _ => rfl⟩

end Value

namespace Builtin

theorem call_single (f : Builtin) (name : String) (x : Value) :
    f.call name [x] = .ok (defined (x.map f.onNumber)) := by
  cases f <;> rfl

theorem call_log (name : String) (x base : Value) :
    log.call name [x, base] = (do return defined (← Value.broadcast logBase x base)) := rfl

/-- The fault of a call with a wrong number of arguments. -/
def arityFault (f : Builtin) (got : Nat) : CallFault :=
  if f = log then .arityRange 1 2 got else .arity 1 got

theorem call_other {f : Builtin} {args : List Value} (name : String) (notOne : args.length ≠ 1)
    (notTwo : f = log → args.length ≠ 2) :
    f.call name args = .error (.invalidCall name (f.arityFault args.length)) := by
  match args with
  | [] => cases f <;> rfl
  | [_] => exact absurd rfl notOne
  | [_, _] =>
      cases f with
      | log => exact absurd rfl (notTwo rfl)
      | _ => rfl
  | _ :: _ :: _ :: _ => cases f <;> rfl

/-- The arguments of a built-in function are one number, for the logarithm also a number and a base,
or too few or too many. -/
theorem arguments_cases (f : Builtin) (args : List Value) :
    (∃ x, args = [x]) ∨ (f = log ∧ ∃ x base, args = [x, base]) ∨
      (args.length ≠ 1 ∧ (f = log → args.length ≠ 2)) := by
  match args with
  | [] => exact .inr (.inr ⟨by simp, by simp⟩)
  | [x] => exact .inl ⟨x, rfl⟩
  | [x, base] =>
      by_cases log : f = log
      · exact .inr (.inl ⟨log, x, base, rfl⟩)
      · exact .inr (.inr ⟨by simp, fun same => absurd same log⟩)
  | _ :: _ :: _ :: _ => exact .inr (.inr ⟨by simp, by simp⟩)

theorem call_eq_error {f : Builtin} {name : String} {args : List Value} {fault : Fault}
    (failed : f.call name args = .error fault) :
    (∃ got, fault = .invalidCall name (f.arityFault got)) ∨
      ∃ left right, fault = .shapeMismatch left right := by
  rcases f.arguments_cases args with ⟨x, rfl⟩ | ⟨rfl, x, base, rfl⟩ | ⟨notOne, notTwo⟩
  · rw [call_single] at failed
    cases failed
  · rw [call_log] at failed
    cases broadcast : Value.broadcast logBase x base with
    | ok value =>
        rw [broadcast] at failed
        cases failed
    | error cause =>
        rw [broadcast] at failed
        cases failed
        exact .inr ⟨_, _, Value.broadcast_eq_error broadcast⟩
  · rw [call_other name notOne notTwo] at failed
    cases failed
    exact .inl ⟨_, rfl⟩

end Builtin
end Reckoner
