import Reckoner.Proofs.Comparison.Equality
import Reckoner.Proofs.Passes

/-!
# Faults that are not about brackets

Once the brackets of a sequence have been evaluated, the passes over the rest do not complain about
brackets by themselves.
-/

namespace Reckoner

open Evaluation Outcome

/-- Whether a fault is about brackets that do not match. -/
def Fault.isGrouping : Fault → Bool
  | unbalancedGrouping _ => true
  | _ => false

variable {allowed : Fault → Prop}

namespace Evaluation

section Arithmetic

variable (expressions : ∀ cause, allowed (.malformedExpression cause))
  (shapes : ∀ left right, allowed (.shapeMismatch left right))
include expressions shapes

theorem failsOnly_apply (op : Operator) (lhs rhs : Value) :
    FailsOnly allowed (Value.apply op lhs rhs) := by
  by_cases binary : op = .factorial
  · subst binary
    exact .error (expressions _)
  · obtain ⟨f, broadcasts⟩ := Value.exists_apply_eq_broadcast binary
    intro fault failed
    rw [broadcasts] at failed
    rw [Value.broadcast_eq_error failed]
    exact shapes _ _

theorem failsOnly_combineFrom (picks : Operator → Bool) (written : List Token) (afterNumber : Bool)
    (tokens : List Token) : FailsOnly allowed (combineFrom picks written afterNumber tokens) := by
  fun_induction combineFrom picks written afterNumber tokens with
  | case1 => exact .ok _
  | case2 => exact .error (expressions _)
  | case3 _ _ _ _ _ _ _ induction =>
      exact .bind (failsOnly_apply expressions shapes _ _ _) induction
  | case4 => exact .error (expressions _)
  | case5 _ _ _ _ _ _ _ induction => exact induction
  | case6 _ _ _ _ _ induction => exact induction
  | case7 _ _ _ _ _ induction => exact induction

omit shapes in
theorem failsOnly_result (tokens : List Token) : FailsOnly allowed (result tokens) := by
  unfold result
  split
  · exact .error (expressions _)
  · split
    · exact .ok _
    · exact .error (expressions _)
    · exact .error (expressions _)

/-- Calculation fails for the form of the expression or for the lengths of its values. -/
theorem failsOnly_calculate (tokens : List Token) : FailsOnly allowed (calculate tokens) :=
  .bind (failsOnly_combineFrom expressions shapes _ _ _ _) fun _ =>
    .bind (failsOnly_combineFrom expressions shapes _ _ _ _) fun _ =>
      .bind (failsOnly_combineFrom expressions shapes _ _ _ _) fun _ =>
        failsOnly_result expressions _

end Arithmetic

section Others

variable (others : ∀ fault : Fault, fault.isGrouping = false → allowed fault)
include others

theorem failsOnly_applyFrom {call : String → List Value → Except Fault Value}
    (calls : ∀ name args, FailsOnly allowed (call name args)) (state : CallState)
    (tokens : List Token) : FailsOnly allowed (applyFrom call state tokens) := by
  fun_induction applyFrom call state tokens with
  | case1 => exact .ok _
  | case2 name rest induction => exact induction
  | case3 token rest _ induction => exact .bind induction fun _ => .ok _
  | case4 name => exact .error (others _ rfl)
  | case5 name value rest induction =>
      exact .bind (calls _ _) fun _ => .bind induction fun _ => .ok _
  | case6 name rest induction =>
      exact .bind (calls _ _) fun _ => .bind induction fun _ => .ok _
  | case7 name rest _ induction => exact induction
  | case8 name token rest => exact .error (others _ rfl)
  | case9 name => exact .error (others _ rfl)
  | case10 name args value rest induction => exact induction
  | case11 name args token rest => exact .error (others _ rfl)
  | case12 name args => exact .error (others _ rfl)
  | case13 name args rest induction => exact induction
  | case14 name args rest induction =>
      exact .bind (calls _ _) fun _ => .bind induction fun _ => .ok _
  | case15 name args token rest => exact .error (others _ rfl)

/-- A reduction fails because of brackets only if one of its calls does. -/
theorem failsOnly_reduce {env : Environment}
    (calls : ∀ name args, FailsOnly allowed (env.call name args)) (tokens : List Token) :
    FailsOnly allowed (reduce env tokens) :=
  .bind (failsOnly_applyFrom others calls _ _) fun _ =>
    failsOnly_calculate (fun _ => others _ rfl) (fun _ _ => others _ rfl) _

end Others

end Evaluation
end Reckoner
