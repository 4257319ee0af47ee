import Reckoner.Proofs.Grammar.Descent
import Reckoner.Proofs.Names
import Reckoner.Proofs.Transaction

/-!
# Using stored names

An assignment takes the name of what it stores, and the parameters of a function, from its text as
they are.  They can be used in an expression if they are readable, and not otherwise.
-/

namespace Reckoner

namespace Statement

variable {input : List Char} {statement : Statement}

theorem name_ne_empty (found : read input = .ok statement) : statement.name ≠ "" := by
  obtain ⟨-, -, named⟩ := read_eq_ok_iff.mp found
  simpa [name] using named

theorem ne_empty_of_mem_parameters {target : List Char} {parameters : List String}
    {parameter : String} (found : parameters? target = .ok (some parameters))
    (member : parameter ∈ parameters) : parameter ≠ "" := by
  rw [parameters?] at found
  split at found
  · cases found
  · split at found
    · cases found
    · cases found
      obtain ⟨text, kept, rfl⟩ := List.mem_map.mp member
      simpa using (List.mem_filter.mp kept).2

end Statement

namespace Table

variable {table after : Table} {input : List Char} {tokens : List Token}

theorem evaluateText_name {name : String} {value : Value} (readable : Readable name)
    (filled : name ≠ "") (bound : table.valueOf? name = some value) :
    table.evaluateText name.toList = .ok value := by
  have read := (Lexer.tokenize_variableName_iff filled).mpr readable
  rw [evaluateText, Scope.evaluateText, read, Outcome.ok_bind]
  exact evaluate_of_derives (.first (.unsigned (.first (.first (.atom (.operand
    (.variableName bound)))))))

/-- What a finished assignment stores can be used under the readable ones of its names, and under no
other one: a variable has its value, a function can be called, and its body can name its
parameters. -/
theorem assign_names (finished : '\n' ∈ input)
    (assigned : table.assign input = .ok (tokens, after)) :
    match Key.ofText input with
    | .value name =>
        ∃ value, after = table.setVariable name value ∧
          (Lexer.tokenize name.toList = .ok [.variableName name] ↔ Readable name) ∧
          (Readable name → after.evaluateText name.toList = .ok value)
    | .function name =>
        ∃ description parameters,
          after = table.setFunction name ⟨description, .formula ⟨parameters, tokens⟩⟩ ∧
          (Lexer.tokenize (name.toList ++ ['(']) = .ok [.functionName name, .opening .round] ↔
            Readable name) ∧
          ∀ parameter ∈ parameters,
            (Lexer.tokenize parameter.toList = .ok [.variableName parameter] ↔
              Readable parameter) := by
  obtain ⟨stored?, planned, carried⟩ := Update.perform_assign_eq_ok.mp (assign_eq_ok.mp assigned)
  obtain ⟨statement, prepared, stores⟩ := plan_eq_ok.mp planned
  obtain ⟨found, -⟩ := Statement.prepare_eq_ok.mp prepared
  rw [if_pos finished] at stores
  obtain ⟨defined, defines, rfl⟩ := stores
  have filled := Statement.name_ne_empty found
  rw [← Statement.key_of_read found, ← (Statement.key_of_definition defines).1]
  rcases Statement.definition_cases defines with ⟨value, -, -, rfl⟩ | ⟨parameters, listed, rfl⟩
  · refine ⟨value, carried.symm, Lexer.tokenize_variableName_iff filled, fun readable => ?_⟩
    subst carried
    exact evaluateText_name readable filled (by simp [carryOut, define])
  · refine ⟨_, parameters, carried.symm, Lexer.tokenize_functionName_iff filled, ?_⟩
    intro parameter member
    exact Lexer.tokenize_variableName_iff (Statement.ne_empty_of_mem_parameters listed member)

/-- A function of two parameters, one of them outside ASCII, and then a variable. -/
theorem assign_names_product :
    let product := "f(ä, b) = ä*b\n".toList
    let number := "x = 2\n".toList
    let between := ((Update.assign product).perform .empty).2
    let after := ((Update.assign number).perform between).2
    (∃ tokens, empty.assign product = .ok (tokens, between)) ∧
      Lexer.tokenize ("f".toList ++ ['(']) = .ok [.functionName "f", .opening .round] ∧
      Lexer.tokenize "ä".toList = .ok [.variableName "ä"] ∧
      between.assign number = .ok ([.number (.scalar 2)], after) ∧
      ∃ value, after.valueOf? "x" = some value ∧ after.evaluateText "x".toList = .ok value := by
  intro product number between after
  let body : List Token := [.variableName "ä", .operator .mul, .variableName "b"]
  have defines : empty.assign product = .ok (body, between) :=
    assign_eq_ok.mpr (Prod.ext (by decide +kernel) rfl)
  have entry : between.function? "f" =
      some ⟨"f(ä, b) = ä*b", .formula ⟨["ä", "b"], body⟩⟩ := by decide +kernel
  have assigns : between.assign number = .ok ([.number (.scalar 2)], after) :=
    assign_eq_ok.mpr (Prod.ext (by decide +kernel) rfl)
  have function := assign_names (by decide) defines
  rw [show Key.ofText product = .function "f" by decide] at function
  obtain ⟨description, parameters, stored, named, parameter⟩ := function
  rw [stored, function?_setFunction, if_pos rfl] at entry
  cases entry
  have variable_ := assign_names (by decide) assigns
  rw [show Key.ofText number = .value "x" by decide] at variable_
  obtain ⟨value, stored, -, evaluated⟩ := variable_
  have readable : Readable "f" ∧ Readable "ä" ∧ Readable "x" := by decide
  refine ⟨⟨body, defines⟩, named.mpr readable.1, (parameter "ä" (by simp)).mpr readable.2.1,
    assigns, value, ?_, evaluated readable.2.2⟩
  rw [stored, valueOf?_setVariable, if_pos rfl]

/-- A digit is stored as the name of a variable but still read as a number. -/
theorem assign_names_digit :
    let after := ((Update.assign "1 = 2\n".toList).perform .empty).2
    Table.empty.assign "1 = 2\n".toList = .ok ([.number (.scalar 2)], after) ∧
      after.valueOf? "1" = some (.scalar 2) ∧
      after.evaluateText "1".toList = .ok (.scalar 1) ∧
      after.evaluateText "1".toList ≠ .ok (.scalar 2) := by
  intro after
  have performed : ((Update.assign "1 = 2\n".toList).perform .empty).1 =
      .ok [.number (.scalar 2)] := by decide +kernel
  refine ⟨assign_eq_ok.mpr (Prod.ext performed rfl), ?_, ?_, ?_⟩
  · decide +kernel
  · decide +kernel
  · decide +kernel

end Table

end Reckoner
