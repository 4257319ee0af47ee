import Reckoner.Number.Numeral

/-!
# Values

A value is an ordered sequence of entries.  An entry is a number or absent; absent entries stand
for results that do not exist and take part in further calculation without stopping it.  A value
with one entry is a scalar.
-/

namespace Reckoner

/-- An ordered sequence of numbers and absent entries. -/
structure Value where
  /-- The entries in order, `none` for an absent one. -/
  entries : List (Option Float)
deriving DecidableEq

namespace Value

/-- The value with a single number. -/
def scalar (x : Float) : Value := ⟨[some x]⟩

/-- The value whose entries are the given numbers. -/
def ofList (xs : List Float) : Value := ⟨xs.map some⟩

/-- The number of entries. -/
def length (value : Value) : Nat := value.entries.length

/-- The only entry of a scalar, and nothing for a value of another length. -/
def scalar? (value : Value) : Option (Option Float) :=
  match value.entries with
  | [entry] => some entry
  | _ => none

/-- Apply a function to every number and keep absent entries absent. -/
def map (f : Float → Float) (value : Value) : Value := ⟨value.entries.map (Option.map f)⟩

/-- Apply a function that may have no result to every number. -/
def filterMap (f : Float → Option Float) (value : Value) : Value :=
  ⟨value.entries.map (·.bind f)⟩

@[simp]
theorem length_map (f : Float → Float) (value : Value) : (value.map f).length = value.length := by
  simp [map, length]

@[simp]
theorem length_filterMap (f : Float → Option Float) (value : Value) :
    (value.filterMap f).length = value.length := by
  simp [filterMap, length]

/-- The text of an entry. -/
def writeEntry : Option Float → List Char
  | some x => Numeral.write x
  | none => "null".toList

/-- The text of a value: the bare entry of a scalar, otherwise all entries in brackets. -/
def write (value : Value) : List Char :=
  match value.entries with
  | [entry] => writeEntry entry
  | entries => '[' :: ", ".toList.intercalate (entries.map writeEntry) ++ [']']

/-- The text of a value as a string. -/
def text (value : Value) : String := String.ofList value.write

end Value
end Reckoner
