import Reckoner.Assignment
import Reckoner.Proofs.Text

/-!
# Definitions in a table

A table maps keys, the names of variables and those of functions, to definitions.  Assigning puts
one definition into the table, whose key can be read off the text.
-/

namespace Reckoner

/-- What a table finds a definition under: variables and functions do not share their names. -/
inductive Key where
  | value (name : String)
  | function (name : String)
deriving DecidableEq

/-- A variable with its value or a function with its entry. -/
inductive Definition where
  | value (name : String) (value : Value)
  | function (name : String) (entry : FunctionEntry)

/-- The key under which a definition is found. -/
def Definition.key : Definition → Key
  | value name _ => .value name
  | function name _ => .function name

namespace Table

variable {table table' : Table} {definition : Definition} {key : Key}

/-- The definition under a key, if there is one. -/
def definition? (table : Table) : Key → Option Definition
  | .value name => (table.valueOf? name).map (.value name)
  | .function name => (table.function? name).map (.function name)

/-- Put a definition into a table, in place of an older one with the same key. -/
def define (table : Table) : Definition → Table
  | .value name value => table.setVariable name value
  | .function name entry => table.setFunction name entry

theorem definition?_define (table : Table) (definition : Definition) (key : Key) :
    (table.define definition).definition? key =
      if definition.key = key then some definition else table.definition? key := by
  cases definition with
  | value name value =>
      cases key with
      | value other =>
          by_cases same : name = other
          · simp [define, definition?, Definition.key, same]
          · simp [define, definition?, Definition.key, same]
      | function other => simp [define, definition?, Definition.key]
  | function name entry =>
      cases key with
      | value other => simp [define, definition?, Definition.key]
      | function other =>
          by_cases same : name = other
          · simp [define, definition?, Definition.key, same]
          · simp [define, definition?, Definition.key, same]

@[simp]
theorem definition?_value_eq_iff {name : String} :
    table.definition? (.value name) = table'.definition? (.value name) ↔
      table.valueOf? name = table'.valueOf? name :=
  Option.map_inj_right fun _ _ same => (Definition.value.inj same).2

@[simp]
theorem definition?_function_eq_iff {name : String} :
    table.definition? (.function name) = table'.definition? (.function name) ↔
      table.function? name = table'.function? name :=
  Option.map_inj_right fun _ _ same => (Definition.function.inj same).2

/-- A table is determined by its definitions. -/
theorem ext_definition? (same : ∀ key, table.definition? key = table'.definition? key) :
    table = table' := by
  refine Table.ext (fun name => ?_) fun name => ?_
  · exact definition?_value_eq_iff.mp (same (.value name))
  · exact definition?_function_eq_iff.mp (same (.function name))

/-- Definitions with different keys can be put into a table in either order. -/
theorem define_comm {first second : Definition} (different : first.key ≠ second.key) :
    (table.define first).define second = (table.define second).define first := by
  refine ext_definition? fun key => ?_
  simp only [definition?_define]
  split_ifs with here there
  · exact absurd (there.trans here.symm) different
  · rfl
  · rfl
  · rfl

end Table
end Reckoner
