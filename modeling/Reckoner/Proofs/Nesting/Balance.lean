import Reckoner.Proofs.Grammar.Descent
import Reckoner.Proofs.Nesting.Evaluation

/-!
# Balanced sequences

What has a value is well nested, and well-nested sequences are never refused for their brackets.
-/

namespace Reckoner

open Evaluation Outcome Grammar

/-! ## What has a value is well nested -/

theorem Grammar.wellNested_hereditary (env : Environment) :
    Hereditary env (fun _ _ tokens => WellNested tokens) (fun _ tokens => WellNested tokens) where
  number _ := .single rfl
  variableName _ := .single rfl
  array _ entries := .bracketed .square entries
  operand operand := operand
  group _ inner := .bracketed .round inner
  emptyCall _ := .plain rfl (.bracketed .round .nil)
  listCall _ _ arguments := .plain rfl (.bracketed .round arguments)
  bareCall _ operand := .plain rfl operand
  atom atom := atom
  factorial argument := argument.append (.single rfl)
  unsigned product := product
  negated product := .plain rfl product
  first item := item
  join _ left right _ := left.append (.plain rfl right)
  last expression := expression
  more expression others := expression.append (.plain rfl others)

theorem wellNested_of_evaluate {env : Environment} {tokens : List Token} {value : Value}
    (evaluated : evaluate env tokens = .ok value) : WellNested tokens :=
  (wellNested_hereditary env).derives (evaluate_eq_ok_iff.mp evaluated)

/-! ## What is well nested is not refused for its brackets -/

/-- The body of every formula in a table is well nested. -/
def Table.NestedBodies (table : Table) : Prop :=
  ∀ name entry f, table.function? name = some entry → entry.routine = .formula f →
    WellNested f.body

/-- The faults of evaluation come from calls or are not about brackets. -/
theorem failsOnly_evaluate {env : Environment} {allowed : Fault → Prop} {tokens : List Token}
    (others : ∀ fault : Fault, fault.isGrouping = false → allowed fault)
    (calls : ∀ name args, FailsOnly allowed (env.call name args)) (nested : WellNested tokens) :
    FailsOnly allowed (evaluate env tokens) :=
  (Condenses.agree_evaluate others calls (.refl nested)).failsOnly

theorem Builtin.isGrouping_of_call {f : Builtin} {name : String} {args : List Value} {fault : Fault}
    (failed : f.call name args = .error fault) : fault.isGrouping = false := by
  obtain ⟨got, rfl⟩ | ⟨left, right, rfl⟩ := call_eq_error failed <;> rfl

namespace Scope

variable {scope : Scope}

/-- No call over a table with well-nested bodies is refused because of brackets. -/
theorem failsOnly_call (bodies : scope.table.NestedBodies) (name : String) (args : List Value) :
    FailsOnly (fun fault => fault.isGrouping = false) (scope.environment.call name args) := by
  refine @environment_call_induction (fun _ => FailsOnly _) scope ?_ (fun _ _ => .error rfl)
    (fun _ _ _ => .error rfl) (fun _ _ => .error rfl) ?_ name args
  · exact fun _ _ _ _ => Builtin.isGrouping_of_call
  · intro name entry f args callEntry found routine calls
    exact failsOnly_evaluate (fun _ other => other) calls (bodies name entry f found routine)

/-- What has a value is well nested, and over well-nested bodies nothing that is well nested is
refused because of its brackets. -/
theorem evaluate_wellNested (scope : Scope) (tokens : List Token) :
    (∀ value, scope.evaluate tokens = .ok value → WellNested tokens) ∧
      (WellNested tokens → scope.table.NestedBodies →
        ∀ cause, scope.evaluate tokens ≠ .error (.unbalancedGrouping cause)) := by
  constructor
  · exact fun _ => wellNested_of_evaluate
  · intro nested bodies cause failed
    have others := failsOnly_evaluate (fun _ other => other) (failsOnly_call bodies) nested _ failed
    cases others

/-- Brackets that cross have no value, and a call that nests them twice is not refused for them. -/
theorem evaluate_wellNested_crossing :
    let table := Table.empty.setFunction "f" ⟨"f(x)=[x,(x)]", .formula ⟨["x"],
      [.opening .square, .variableName "x", .separator, .opening .round, .variableName "x",
        .closing .round, .closing .square]⟩⟩
    let crossing := [.opening .square, .opening .round, .number (.scalar 1), .closing .square,
      .closing .round]
    let call := [.functionName "f", .opening .round, .number (.scalar 1), .closing .round]
    (∀ value, Scope.evaluate ⟨table, [], 0⟩ crossing ≠ .ok value) ∧
      ∀ cause, Scope.evaluate ⟨table, [], 0⟩ call ≠ .error (.unbalancedGrouping cause) := by
  intro table crossing call
  constructor
  · intro value evaluated
    have nested := (evaluate_wellNested ⟨table, [], 0⟩ crossing).1 value evaluated
    revert nested
    decide
  · refine (evaluate_wellNested ⟨table, [], 0⟩ call).2 (by decide) ?_
    intro name entry f found routine
    simp only [table, Table.function?_setFunction, Table.function?_empty] at found
    split_ifs at found
    cases found
    cases routine
    decide

end Scope
end Reckoner
