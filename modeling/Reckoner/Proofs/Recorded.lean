import Reckoner.Proofs.Filled
import Reckoner.Proofs.Transaction
import Reckoner.Proofs.WrittenValues

/-!
# Definitions and the lines that write them

A formula keeps the line that defined it, and the value of a variable can be written behind its
name.  Whatever assignments put into a table is defined by its line once more, over every table.
-/

namespace Reckoner

/-! ## Lines -/

namespace Statement

variable {input : List Char} {statement : Statement}

theorem newline_notMem_line (found : read input = .ok statement) : '\n' ∉ statement.line := by
  obtain ⟨line, -, -⟩ := read_eq_ok_iff.mp found
  rw [line]
  intro newline
  simpa using (List.mem_filter.mp (Text.mem_of_mem_trim newline)).2

theorem read_line (found : read input = .ok statement) :
    read (statement.line ++ ['\n']) = .ok statement := by
  obtain ⟨line, cut, named⟩ := read_eq_ok_iff.mp found
  refine read_eq_ok_iff.mpr ⟨?_, cut, named⟩
  rw [filter_newline (newline_notMem_line found), line, (Text.trimmed_trim _).trim_eq]

/-- A text that can stand before an `=` as the name of a variable. -/
structure IsVariableName (name : List Char) : Prop where
  filled : name ≠ []
  trimmed : Text.Trimmed name
  oneLine : '\n' ∉ name
  unmarked : '=' ∉ name
  unbracketed : '(' ∉ name

theorem isVariableName_of_read (found : read input = .ok statement)
    (noBracket : '(' ∉ statement.target) : IsVariableName (targetName statement.target) := by
  obtain ⟨-, cut, named⟩ := read_eq_ok_iff.mp found
  obtain ⟨line, unmarked⟩ := Text.cutAt?_eq_some_iff.mp cut
  have oneLine : '\n' ∉ statement.target := by
    have whole := newline_notMem_line found
    rw [line, List.mem_append, not_or] at whole
    exact whole.1
  have target : targetName statement.target = Text.trim statement.target := by
    rw [targetName, Text.before_of_notMem noBracket]
  rw [target] at named ⊢
  exact ⟨named, Text.trimmed_trim _, fun member => oneLine (Text.mem_of_mem_trim member),
    fun member => unmarked (Text.mem_of_mem_trim member),
    fun member => noBracket (Text.mem_of_mem_trim member)⟩

theorem IsVariableName.targetName_eq {name : List Char} (named : IsVariableName name) :
    targetName (name ++ [' ']) = name := by
  rw [targetName, Text.before_of_notMem (by simp [named.unbracketed]),
    Text.trim_append_blanks (List.forall_mem_singleton.mpr (by decide)), named.trimmed.trim_eq]

theorem read_variable {name text : List Char} (named : IsVariableName name) (filled : text ≠ [])
    (trimmed : Text.Trimmed text) (oneLine : '\n' ∉ text) :
    read (name ++ " = ".toList ++ text ++ ['\n']) =
      .ok ⟨name ++ " = ".toList ++ text, name ++ [' '], ' ' :: text⟩ := by
  have whole : Text.Trimmed (name ++ " = ".toList ++ text) := by
    constructor
    · intro c first
      refine named.trimmed.first c ?_
      rwa [List.append_assoc, List.head?_append_of_ne_nil _ named.filled] at first
    · intro c last
      refine trimmed.last c ?_
      rwa [List.getLast?_append_of_ne_nil _ filled] at last
  have single : '\n' ∉ name ++ " = ".toList ++ text := by
    simp [named.oneLine, oneLine]
  refine read_eq_ok_iff.mpr ⟨?_, ?_, ?_⟩
  · rw [filter_newline single, whole.trim_eq]
  · refine Text.cutAt?_eq_some_iff.mpr ⟨by simp, ?_⟩
    simp [named.unmarked]
  · rw [named.targetName_eq]
    exact named.filled

end Statement

namespace Definition

/-- The line that defines a definition once more: the description of a formula, and the value of a
variable behind its name if its entries are all finite numbers. -/
def line? : Definition → Option (List Char)
  | .value name result =>
      if result.isFinite then some (name.toList ++ " = ".toList ++ result.write) else none
  | .function _ entry =>
      match entry.routine with
      | .formula _ => some entry.description.toList
      | .builtin _ => none

/-- What assignments put into a table, and the built-in functions. -/
inductive Recorded : Definition → Prop where
  | builtin (name description : String) (f : Builtin) :
      Recorded (.function name ⟨description, .builtin f⟩)
  | formula {input : List Char} {statement : Statement} {tokens : List Token}
      {parameters : List String} (prepared : Statement.prepare input = .ok (statement, tokens))
      (listed : Statement.parameters? statement.target = .ok (some parameters)) :
      Recorded (.function statement.name
        ⟨String.ofList statement.line, .formula ⟨parameters, tokens⟩⟩)
  | value {name : List Char} {result : Value} (named : Statement.IsVariableName name)
      (filled : result.Filled) : Recorded (.value (String.ofList name) result)

variable {definition : Definition} {line : List Char}

/-- The line of a definition defines it over every table. -/
theorem Recorded.exists_plan (recorded : definition.Recorded)
    (written : definition.line? = some line) (table : Table) :
    ∃ tokens, table.plan (line ++ ['\n']) = .ok (tokens, some definition) := by
  cases recorded with
  | builtin => cases written
  | @formula input statement tokens parameters prepared listed =>
      obtain ⟨found, tokenized⟩ := Statement.prepare_eq_ok.mp prepared
      obtain rfl : statement.line = line := by simpa [line?] using written
      refine ⟨tokens, Table.plan_eq_ok.mpr ⟨statement,
        Statement.prepare_eq_ok.mpr ⟨Statement.read_line found, tokenized⟩, ?_⟩⟩
      rw [if_pos (by simp)]
      refine ⟨_, ?_, rfl⟩
      rw [Statement.definition, listed]
      rfl
  | @value name result named filled =>
      simp only [line?] at written
      split_ifs at written with finite
      cases written
      obtain ⟨tokens, tokenized, evaluated⟩ :=
        result.exists_tokens_of_write finite (List.ne_nil_of_length_pos filled)
      have found := Statement.read_variable named (result.write_ne_nil finite)
        (result.trimmed_write finite) (result.newline_notMem_write finite)
      refine ⟨tokens, Table.plan_eq_ok.mpr ⟨_, Statement.prepare_eq_ok.mpr
        ⟨by rw [String.toList_ofList]; exact found, tokenized⟩, ?_⟩⟩
      rw [if_pos (by simp)]
      have unlisted : Statement.parameters? (name ++ [' ']) = .ok none := by
        rw [Statement.parameters?,
          Text.cutAt?_eq_none_iff.mpr (by simp [named.unbracketed])]
      refine ⟨_, ?_, rfl⟩
      rw [Statement.definition, unlisted, Outcome.ok_bind, Table.evaluate, Scope.evaluate,
        evaluated, Statement.name, named.targetName_eq]
      rfl

end Definition

/-! ## Tables -/

namespace Table

variable {table : Table}

/-- A table in which every definition is one that assignments put there, or a built-in function. -/
def Recorded (table : Table) : Prop :=
  ∀ key definition, table.definition? key = some definition → definition.Recorded

namespace Recorded

theorem define (recorded : table.Recorded) {definition : Definition}
    (added : definition.Recorded) : (table.define definition).Recorded := by
  intro key other found
  rw [definition?_define] at found
  split_ifs at found
  · cases found
    exact added
  · exact recorded key other found

theorem filled (recorded : table.Recorded) : table.Filled where
  values name result bound := by
    have found : table.definition? (.value name) = some (.value name result) := by
      rw [definition?, bound, Option.map_some]
    cases recorded _ _ found with
    | value _ filled => exact filled
  bodies name entry f bound routine := by
    have found : table.definition? (.function name) = some (.function name entry) := by
      rw [definition?, bound, Option.map_some]
    cases recorded _ _ found with
    | builtin => cases routine
    | formula prepared =>
        cases routine
        exact Lexer.numbersFilled_of_tokenize (Statement.prepare_eq_ok.mp prepared).2

end Recorded

/-- Only definitions that are recorded are put into a recorded table. -/
theorem Recorded.of_plan (recorded : table.Recorded) {input : List Char} {tokens : List Token}
    {definition : Definition} (planned : table.plan input = .ok (tokens, some definition)) :
    definition.Recorded := by
  obtain ⟨statement, prepared, stores⟩ := plan_eq_ok.mp planned
  split_ifs at stores
  obtain ⟨_, defines, same⟩ := stores
  cases same
  obtain ⟨found, tokenized⟩ := Statement.prepare_eq_ok.mp prepared
  rcases Statement.definition_cases defines with
    ⟨result, unlisted, evaluated, rfl⟩ | ⟨parameters, listed, rfl⟩
  · have noBracket : '(' ∉ statement.target := fun member =>
      (Statement.mem_of_parameters? unlisted).mp member rfl
    refine .value (Statement.isVariableName_of_read found noBracket) ?_
    exact Scope.filled_of_evaluate recorded.filled (Scope.localsFilled_ofTable table)
      (Lexer.numbersFilled_of_tokenize tokenized) evaluated
  · exact .formula prepared listed

theorem recorded_empty : empty.Recorded := by
  intro key definition found
  cases key <;> simp [definition?] at found

theorem recorded_initial : initial.Recorded := by
  have constants : ((empty.setVariable "pi" (.scalar Factorial.pi)).setVariable "e"
      (.scalar Factorial.e)).Recorded := by
    have pi : Statement.IsVariableName ['p', 'i'] :=
      ⟨by decide, ⟨by rintro c ⟨⟩; decide, by rintro c ⟨⟩; decide⟩, by decide, by decide, by decide⟩
    have e : Statement.IsVariableName ['e'] :=
      ⟨by decide, ⟨by rintro c ⟨⟩; decide, by rintro c ⟨⟩; decide⟩, by decide, by decide, by decide⟩
    exact (recorded_empty.define (.value pi (Value.filled_scalar _))).define
      (.value e (Value.filled_scalar _))
  have functions : ∀ (builtins : List Builtin) (table : Table), table.Recorded →
      (builtins.foldl (fun table f => table.setFunction f.name ⟨f.name, .builtin f⟩)
        table).Recorded := by
    intro builtins
    induction builtins with
    | nil => exact fun _ recorded => recorded
    | cons f builtins induction =>
        exact fun table recorded => induction _ (recorded.define (.builtin f.name f.name f))
  exact functions _ _ constants

theorem Recorded.update (recorded : table.Recorded) (request : Request) :
    (request.update.perform table).2.Recorded := by
  rw [snd_perform_update]
  cases request with
  | evaluate text => exact recorded
  | assign text =>
      simp only
      rcases planned : table.plan text with fault | ⟨tokens, - | definition⟩
      · exact recorded
      · exact recorded
      · exact recorded.define (recorded.of_plan planned)

theorem Recorded.after (recorded : table.Recorded) (requests : List Request) :
    (table.after requests).Recorded := by
  induction requests generalizing table with
  | nil => exact recorded
  | cons request requests induction => exact induction (recorded.update request)

end Table
end Reckoner
