import Reckoner.Proofs.Nesting.Evaluation

/-!
# Replacing a group by its value

A group in brackets can be replaced by its value wherever it stands, also behind the name of a
function and inside other groups.
-/

namespace Reckoner
namespace Scope

/-- A sequence with a group in brackets has the same outcome as the sequence with the value of the
group in its place. -/
theorem evaluate_replace (scope : Scope) {shape : Bracket} {front inner back : List Token}
    {value : Value} (inside : WellNested inner)
    (nested : WellNested (front ++ (.opening shape :: (inner ++ [.closing shape])) ++ back))
    (evaluated : scope.evaluate (.opening shape :: (inner ++ [.closing shape])) = .ok value) :
    scope.evaluate (front ++ (.opening shape :: (inner ++ [.closing shape])) ++ back) =
      scope.evaluate (front ++ [.number value] ++ back) := by
  have whole : front ++ (.opening shape :: (inner ++ [.closing shape])) ++ back =
      front ++ .opening shape :: (inner ++ .closing shape :: back) := by simp
  have short : front ++ [.number value] ++ back = front ++ .number value :: back := by simp
  rw [whole] at nested ⊢
  rw [short]
  have condenses : Condenses (Evaluates scope.environment) _ _ :=
    .of_wellNested inside evaluated nested
  exact (@Condenses.agree_evaluate _ (fun _ => True) _ _ (fun _ _ => trivial)
    (fun _ _ _ _ => trivial) condenses).eq

/-- An array can be replaced as the argument of a function inside a group. -/
theorem evaluate_replace_argument :
    let scope : Scope := ⟨Table.empty.setFunction "f" ⟨"f(x,y)=y", .formula ⟨["x", "y"],
      [.variableName "y"]⟩⟩, [], 0⟩
    let front := [.functionName "f", .opening .round, .number (.scalar 3), .separator]
    let array := [.opening .square, .number (.scalar 1), .separator, .opening .round,
      .number (.scalar 2), .closing .round, .closing .square]
    let back := [.closing .round]
    scope.evaluate (front ++ array ++ back) = .ok ⟨[some 1, some 2]⟩ ∧
      scope.evaluate (front ++ array ++ back) =
        scope.evaluate (front ++ [.number ⟨[some 1, some 2]⟩] ++ back) := by
  intro scope front array back
  have replaced : scope.evaluate (front ++ array ++ back) =
      scope.evaluate (front ++ [.number ⟨[some 1, some 2]⟩] ++ back) :=
    @evaluate_replace scope .square front
      [.number (.scalar 1), .separator, .opening .round, .number (.scalar 2), .closing .round] back
      _ (by decide) (by decide) rfl
  exact ⟨rfl, replaced⟩

end Scope
end Reckoner
