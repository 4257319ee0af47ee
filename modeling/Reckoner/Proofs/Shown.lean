import Reckoner.Proofs.Turns

/-!
# What an assignment shows

A session shows what it finds under the name in a line once the line is assigned.  The name is read
from the line with its newlines, while an assignment stores under the name without them.  So a line
shows what it has stored unless there is a newline inside its name.
-/

namespace Reckoner

theorem Key.newline_notMem {input : List Char} {name : String}
    (named : Key.ofText input = .value name ∨ Key.ofText input = .function name) :
    '\n' ∉ name.toList := by
  have filtered : ∀ target : List Char,
      '\n' ∉ Text.trim (Text.before '(' (Text.before '=' (target.filter (· != '\n')))) := by
    intro target member
    have inside := (List.takeWhile_sublist _).mem (Statement.mem_of_mem_targetName member)
    simpa using (List.mem_filter.mp inside).2
  have same : name.toList =
      Text.trim (Text.before '(' (Text.before '=' (input.filter (· != '\n')))) := by
    rw [ofText] at named
    split_ifs at named
    · rcases named with impossible | same
      · cases impossible
      · rw [← Key.function.inj same, String.toList_ofList]
    · rcases named with same | impossible
      · rw [← Key.value.inj same, String.toList_ofList]
      · cases impossible
  rw [same]
  exact filtered input

namespace Session

variable {session : Session} {line target rest : List Char} {tokens : List Token} {after : Table}

theorem runLine_of_assign (cut : Text.cutAt? '=' line = some (target, rest))
    (assigned : session.table.assign (line ++ ['\n']) = .ok (tokens, after)) :
    session.runLine line =
      match stored after target with
      | .value value => (⟨after, some value⟩, some value.text)
      | .definition text => (⟨after, session.last?⟩, some text) := by
  have visible : Text.trim line ≠ [] := by
    intro blank
    obtain ⟨rfl, -⟩ := Text.cutAt?_eq_some_iff.mp cut
    cases Text.trim_eq_nil_iff.mp blank '=' (by simp)
  rw [runLine, if_neg visible, perform_assignment cut, Table.assign_eq_ok.mp assigned]
  dsimp only
  cases stored after target with
  | value value => rfl
  | definition text => rfl

/-- A name that no assignment can store shows itself if the table has nothing under it. -/
theorem stored_define_of_newline {table : Table} {defined : Definition} {input : List Char}
    (named : defined.key = Key.ofText input) (newline : '\n' ∈ Statement.targetName target)
    (noValue : table.valueOf? (String.ofList (Statement.targetName target)) = none)
    (noFunction : table.function? (String.ofList (Statement.targetName target)) = none) :
    stored (table.define defined) target =
      .definition (String.ofList (Statement.targetName target)) := by
  have different : ∀ name, Key.ofText input = .value name ∨ Key.ofText input = .function name →
      name ≠ String.ofList (Statement.targetName target) := by
    rintro name named rfl
    exact Key.newline_notMem named (by rwa [String.toList_ofList])
  cases defined with
  | value name value =>
      simp [stored, Table.define, different name (.inl named.symm), noValue, noFunction]
  | function name entry =>
      simp [stored, Table.define, different name (.inr named.symm), noValue, noFunction]

/-- A line that is assigned puts one definition into the table.  If there is no newline inside the
name in the line, the line shows that definition: the value of a variable, which becomes the last
one, or the description of a function, and the last value stays.  If there is one, and the table has
nothing under the name with the newline, the line shows this name and the last value stays. -/
theorem runLine_assignment (cut : Text.cutAt? '=' line = some (target, rest))
    (assigned : session.table.assign (line ++ ['\n']) = .ok (tokens, after)) :
    let name := String.ofList (Statement.targetName target)
    ∃ defined : Definition, after = session.table.define defined ∧
      ('\n' ∉ Statement.targetName target →
        session.runLine line =
          match defined with
          | .value _ value => (⟨after, some value⟩, some value.text)
          | .function _ entry => (⟨after, session.last?⟩, some entry.description)) ∧
      ('\n' ∈ Statement.targetName target → session.table.valueOf? name = none →
        session.table.function? name = none →
          session.runLine line = (⟨after, session.last?⟩, some name)) := by
  intro name
  have assigns := Update.assigns_perform session.table (line ++ ['\n'])
  rw [Table.assign_eq_ok.mp assigned] at assigns
  cases assigns with
  | previewed unfinished => exact absurd (by simp) unfinished
  | @committed _ defined _ named gives =>
      refine ⟨defined, rfl, fun oneLine => ?_, fun newline noValue noFunction => ?_⟩
      · rw [runLine_of_assign cut assigned, stored_define cut oneLine named]
        cases defined <;> rfl
      · rw [runLine_of_assign cut assigned,
          stored_define_of_newline named newline noValue noFunction]

/-- A variable assigned over two lines, where a function has the same name. -/
theorem runLine_assignment_vector :
    let identity : FunctionEntry := ⟨"v(x) = x", .formula ⟨["x"], [.variableName "x"]⟩⟩
    let session : Session := ⟨Table.empty.setFunction "v" identity, some (.scalar 7)⟩
    let line := "v = [1,\n2]".toList
    let after := ((Update.assign (line ++ ['\n'])).perform session.table).2
    (∃ tokens, session.table.assign (line ++ ['\n']) = .ok (tokens, after)) ∧
      after.valueOf? "v" = some (.ofList [1, 2]) ∧
      session.runLine line = (⟨after, some (.ofList [1, 2])⟩, some (Value.ofList [1, 2]).text) := by
  intro identity session line after
  have performed : ((Update.assign (line ++ ['\n'])).perform session.table).1 =
      .ok [.opening .square, .number (.scalar 1), .separator, .number (.scalar 2),
        .closing .square] := by decide +kernel
  have assigned : session.table.assign (line ++ ['\n']) = .ok (_, after) :=
    Table.assign_eq_ok.mpr (Prod.ext performed rfl)
  have bound : after.valueOf? "v" = some (.ofList [1, 2]) := by decide +kernel
  have cut : Text.cutAt? '=' line = some ("v ".toList, " [1,\n2]".toList) := rfl
  obtain ⟨defined, stores, output, -⟩ := runLine_assignment cut assigned
  refine ⟨⟨_, assigned⟩, bound, ?_⟩
  rw [output (by decide)]
  rw [stores] at bound
  cases defined with
  | value name value =>
      rw [Table.define, Table.valueOf?_setVariable] at bound
      split_ifs at bound
      · cases bound
        rfl
      · cases bound
  | function name entry => cases bound

/-- A newline inside a name is shown and not stored. -/
theorem runLine_assignment_newline :
    let session : Session := ⟨.empty, none⟩
    let after := ((Update.assign "a\nb=1\n".toList).perform .empty).2
    Table.empty.assign "a\nb=1\n".toList = .ok ([.number (.scalar 1)], after) ∧
      after.valueOf? "ab" = some (.scalar 1) ∧
      (session.runLine "a\nb=1".toList).2 = some "a\nb" ∧
      (session.runLine "a\nb=1".toList).1.last? = none := by
  intro session after
  have performed : ((Update.assign "a\nb=1\n".toList).perform .empty).1 =
      .ok [.number (.scalar 1)] := by decide +kernel
  refine ⟨Table.assign_eq_ok.mpr (Prod.ext performed rfl), ?_, ?_, ?_⟩
  · decide +kernel
  · decide +kernel
  · decide +kernel

end Session
end Reckoner
