import Std.Data.ExtTreeMap
import Reckoner.Function.Entry

/-!
# Symbol tables

A symbol table keeps variables and functions under their names, each kind in a name space of its
own and in the order of the names.  Entries are added or overwritten and never removed.
-/

namespace Reckoner

/-- The variables and functions that expressions can refer to. -/
structure Table where
  /-- The values of the variables. -/
  values : Std.ExtTreeMap String Value
  /-- The entries of the functions. -/
  functions : Std.ExtTreeMap String FunctionEntry

namespace Table

/-- The table without entries. -/
def empty : Table := ⟨∅, ∅⟩

/-- The value of a variable, if there is one. -/
def valueOf? (table : Table) (name : String) : Option Value := table.values[name]?

/-- The entry of a function, if there is one. -/
def function? (table : Table) (name : String) : Option FunctionEntry :=
  table.functions[name]?

/-- Give a variable a value. -/
def setVariable (table : Table) (name : String) (value : Value) : Table :=
  { table with values := table.values.insert name value }

/-- Give a function an entry. -/
def setFunction (table : Table) (name : String) (entry : FunctionEntry) : Table :=
  { table with functions := table.functions.insert name entry }

/-- The table with the constants `pi` and `e` and the built-in functions. -/
def initial : Table :=
  Builtin.all.foldl (fun table f => table.setFunction f.name ⟨f.name, .builtin f⟩)
    ((empty.setVariable "pi" (.scalar Factorial.pi)).setVariable "e" (.scalar Factorial.e))

@[simp]
theorem valueOf?_empty (name : String) : empty.valueOf? name = none := by
  simp [empty, valueOf?]

@[simp]
theorem function?_empty (name : String) : empty.function? name = none := by
  simp [empty, function?]

@[simp]
theorem valueOf?_setVariable (table : Table) (name : String) (value : Value)
    (other : String) :
    (table.setVariable name value).valueOf? other =
      if name = other then some value else table.valueOf? other := by
  simp [setVariable, valueOf?, Std.ExtTreeMap.getElem?_insert]

@[simp]
theorem function?_setVariable (table : Table) (name : String) (value : Value)
    (other : String) : (table.setVariable name value).function? other = table.function? other := rfl

@[simp]
theorem function?_setFunction (table : Table) (name : String) (entry : FunctionEntry)
    (other : String) :
    (table.setFunction name entry).function? other =
      if name = other then some entry else table.function? other := by
  simp [setFunction, function?, Std.ExtTreeMap.getElem?_insert]

@[simp]
theorem valueOf?_setFunction (table : Table) (name : String) (entry : FunctionEntry)
    (other : String) : (table.setFunction name entry).valueOf? other = table.valueOf? other := rfl

@[ext]
theorem ext {left right : Table}
    (sameValues : ∀ name, left.valueOf? name = right.valueOf? name)
    (sameFunctions : ∀ name, left.function? name = right.function? name) : left = right := by
  cases left
  cases right
  simp only [valueOf?, function?] at sameValues sameFunctions
  simp only [mk.injEq]
  exact ⟨Std.ExtTreeMap.ext_getElem? sameValues, Std.ExtTreeMap.ext_getElem? sameFunctions⟩

end Table
end Reckoner
