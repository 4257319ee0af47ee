import Reckoner.Proofs.Comparison.Equality

/-!
# Calls as substitution

A formula is called with its parameters bound as local variables, which are looked up only when the
groups around them have been taken apart.  The result is that of its body with the arguments written
in place of the parameters, seen from the table alone.
-/

namespace Reckoner
namespace Formula

/-- The argument for a name: of a parameter given twice the last argument counts. -/
def argument? : List String → List Value → String → Option Value
  | parameter :: parameters, arg :: args, name =>
      (argument? parameters args name).or (if parameter = name then some arg else none)
  | _, _, _ => none

/-- The body of a formula with the arguments in place of the parameters. -/
def instantiate (f : Formula) (args : List Value) : List Token :=
  Evaluation.substitute (argument? f.parameters args) f.body

theorem argument?_eq_none_iff {parameters : List String} {args : List Value} {name : String}
    (arity : parameters.length = args.length) :
    argument? parameters args name = none ↔ name ∉ parameters := by
  induction parameters generalizing args with
  | nil => simp [argument?]
  | cons parameter parameters induction =>
      cases args with
      | nil => cases arity
      | cons first args =>
          rw [argument?, Option.or_eq_none_iff, induction (Nat.succ.inj arity), List.mem_cons,
            not_or, and_comm, ite_eq_right_iff, eq_comm]
          simp

/-- A parameter stands for the argument at the last place where it is given. -/
theorem argument?_eq_some_iff {parameters : List String} {args : List Value} {name : String}
    {arg : Value} (arity : parameters.length = args.length) :
    argument? parameters args name = some arg ↔
      ∃ i : Nat, parameters[i]? = some name ∧ args[i]? = some arg ∧
        ∀ j, i < j → parameters[j]? ≠ some name := by
  induction parameters generalizing args with
  | nil => simp [argument?]
  | cons parameter parameters induction =>
      cases args with
      | nil => cases arity
      | cons first args =>
          replace arity := Nat.succ.inj arity
          constructor
          · intro found
            cases later : argument? parameters args name with
            | some value =>
                rw [argument?, later, Option.some_or] at found
                obtain ⟨i, given, bound, last⟩ := (induction arity).mp (later.trans found)
                refine ⟨i + 1, given, bound, ?_⟩
                rintro (_ | j) after
                · cases after
                · exact last j (Nat.lt_of_succ_lt_succ after)
            | none =>
                rw [argument?, later, Option.none_or] at found
                split_ifs at found with same
                cases found
                refine ⟨0, congrArg some same, rfl, ?_⟩
                rintro (_ | j) after again
                · cases after
                · exact (argument?_eq_none_iff arity).mp later (List.mem_of_getElem? again)
          · rintro ⟨_ | i, given, bound, last⟩
            · cases given
              cases bound
              have absent : name ∉ parameters := by
                intro member
                obtain ⟨j, again⟩ := List.mem_iff_getElem?.mp member
                exact last (j + 1) (Nat.succ_pos j) again
              rw [argument?, (argument?_eq_none_iff arity).mpr absent, Option.none_or, if_pos rfl]
            · have later : argument? parameters args name = some arg :=
                (induction arity).mpr ⟨i, given, bound, fun j after =>
                  last (j + 1) (Nat.succ_lt_succ after)⟩
              rw [argument?, later, Option.some_or]

theorem argument?_eq_lookup (parameters : List String) (args : List Value) (name : String) :
    argument? parameters args name = (parameters.zip args).reverse.lookup name := by
  induction parameters generalizing args with
  | nil => rfl
  | cons parameter parameters induction =>
      cases args with
      | nil => rfl
      | cons arg args =>
          rw [argument?, List.zip_cons_cons, List.reverse_cons, List.lookup_append, induction]
          congr 1
          by_cases same : parameter = name
          · simp [same]
          · simp [List.lookup_cons, same, beq_false_of_ne (Ne.symm same)]

end Formula

namespace Scope

open Comparison Formula

theorem valueOf?_bind_zip (scope : Scope) (parameters : List String) (args : List Value)
    (name : String) :
    (scope.bind (parameters.zip args)).valueOf? name =
      (argument? parameters args name).or (scope.table.valueOf? name) := by
  rw [argument?_eq_lookup]
  rfl

/-- A parameter that is given only once has the value of its argument. -/
theorem valueOf?_bind_zip_of_nodup (scope : Scope) {parameters : List String} {args : List Value}
    {name : String} {value : Value} (arity : parameters.length = args.length)
    (distinct : parameters.Nodup) (member : (name, value) ∈ parameters.zip args) :
    (scope.bind (parameters.zip args)).valueOf? name = some value := by
  obtain ⟨i, pair⟩ := List.mem_iff_getElem?.mp member
  obtain ⟨given, bound⟩ := List.getElem?_zip_eq_some.mp pair
  have last : ∀ j, i < j → parameters[j]? ≠ some name := by
    intro j after again
    have inside : i < parameters.length := (List.getElem?_eq_some_iff.mp given).1
    exact Nat.ne_of_lt after ((List.getElem?_inj inside distinct).mp (given.trans again.symm))
  rw [valueOf?_bind_zip, (argument?_eq_some_iff arity).mpr ⟨i, given, bound, last⟩,
    Option.some_or]

theorem matches_instantiate (scope : Scope) (f : Formula) (args : List Value) :
    exact.MatchesAll
      (exact.names (scope.bind (f.parameters.zip args)).environment
        (Scope.environment ⟨scope.table, [], scope.depth + 1⟩))
      f.body (f.instantiate args) := by
  refine List.forall₂_map_right_iff.mpr (List.forall₂_same.mpr fun token _ => ?_)
  cases token with
  | number value => exact .number rfl
  | opening shape => exact .opening fun _ => trivial
  | closing shape => exact .closing shape
  | operator op => exact .operator op
  | separator => exact .separator
  | variableName name =>
      cases found : argument? f.parameters args name with
      | none =>
          rw [Evaluation.resolve, found]
          refine .variableName (rel_eq_of_eq ?_)
          calc
            (scope.bind (f.parameters.zip args)).valueOf? name = scope.table.valueOf? name := by
              rw [valueOf?_bind_zip, found, Option.none_or]
            _ = Scope.valueOf? ⟨scope.table, [], scope.depth + 1⟩ name := rfl
      | some value =>
          rw [Evaluation.resolve, found]
          refine .replaced ⟨value, ?_, rfl⟩
          calc
            (scope.bind (f.parameters.zip args)).valueOf? name = some value := by
              rw [valueOf?_bind_zip, found, Option.some_or]
  | functionName name =>
      -- Functions are looked up in the table only, so that no parameter captures the name.
      have same := @environment_call_congr (scope.bind (f.parameters.zip args))
        ⟨scope.table, [], scope.depth + 1⟩ rfl rfl
      exact .functionName (exact_callable (congrFun same name))

/-- A formula is called by evaluating its instance outside the caller's scope. -/
theorem call_eq_evaluate_instantiate (scope : Scope) {entry : FunctionEntry} {f : Formula}
    (name : String) {args : List Value} (routine : entry.routine = .formula f)
    (arity : f.parameters.length = args.length) (shallow : scope.depth < depthLimit) :
    scope.call entry name args =
      Scope.evaluate ⟨scope.table, [], scope.depth + 1⟩ (f.instantiate args) := by
  obtain ⟨description, _⟩ := entry
  obtain rfl := routine
  rw [call_formula scope description f name args arity shallow]
  exact (agree_evaluate (matches_instantiate scope f args)).eq

/-- A repeated parameter that the caller has given another value. -/
theorem call_repeated_parameter :
    Scope.call ⟨.empty, [("x", .scalar 5)], 63⟩
        ⟨"f(x,x)=x", .formula ⟨["x", "x"], [.variableName "x"]⟩⟩ "f" [.scalar 1, .scalar 4] =
      Scope.evaluate ⟨.empty, [], 64⟩
        (instantiate ⟨["x", "x"], [.variableName "x"]⟩ [.scalar 1, .scalar 4]) ∧
      instantiate ⟨["x", "x"], [.variableName "x"]⟩ [.scalar 1, .scalar 4] =
        [.number (.scalar 4)] := by
  constructor
  · exact call_eq_evaluate_instantiate _ "f" rfl rfl (by decide)
  · rfl

end Scope
end Reckoner
