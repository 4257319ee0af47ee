import Reckoner.CommandLine.Run
import Reckoner.Proofs.Recorded

/-!
# Dumps of a table

The lines that list a table define it once more.  Performed in any order over the initial table,
they restore every formula and every variable whose entries are all finite numbers.
-/

namespace Reckoner
namespace Table

variable {table source : Table} {definition : Definition} {key : Key}

/-! ## Listing -/

/-- All definitions of a table, variables first. -/
def definitions (table : Table) : List Definition :=
  table.values.toList.map (fun (name, value) => .value name value) ++
    table.functions.toList.map fun (name, entry) => .function name entry

/-- The lines that define the definitions of a table once more. -/
def dump (table : Table) : List (List Char) := table.definitions.filterMap Definition.line?

theorem mem_definitions_iff :
    definition ∈ table.definitions ↔ table.definition? definition.key = some definition := by
  cases definition with
  | value name value =>
      simp [definitions, Definition.key, definition?, valueOf?,
        Std.ExtTreeMap.mem_toList_iff_getElem?_eq_some]
  | function name entry =>
      simp [definitions, Definition.key, definition?, function?,
        Std.ExtTreeMap.mem_toList_iff_getElem?_eq_some]

/-- The definitions that have lines. -/
def listed (table : Table) : List Definition :=
  table.definitions.filter fun definition => definition.line?.isSome

theorem forall₂_dump (table : Table) :
    List.Forall₂ (fun line definition => Definition.line? definition = some line) table.dump
      table.listed := by
  rw [dump, listed]
  induction table.definitions with
  | nil => exact .nil
  | cons definition definitions induction =>
      cases written : definition.line? with
      | none => simpa [written] using induction
      | some line => simpa [written] using induction

theorem mem_dump_iff {line : List Char} :
    line ∈ table.dump ↔
      ∃ definition, table.definition? definition.key = some definition ∧
        definition.line? = some line := by
  simp only [dump, List.mem_filterMap, mem_definitions_iff]

/-- Every line of the dump is shown, indented, where the tables are listed. -/
theorem mem_tableLines_of_mem_dump {line : List Char} (listed : line ∈ table.dump) :
    String.ofList (' ' :: ' ' :: line) ∈ CommandLine.tableLines table := by
  obtain ⟨definition, found, written⟩ := mem_dump_iff.mp listed
  rw [← mem_definitions_iff] at found
  rw [CommandLine.tableLines, List.mem_append, List.mem_cons, List.mem_cons]
  rw [definitions, List.mem_append] at found
  rcases found with found | found
  · left
    right
    obtain ⟨⟨name, value⟩, member, rfl⟩ := List.mem_map.mp found
    refine List.mem_map.mpr ⟨⟨name, value⟩, member, ?_⟩
    simp only [Definition.line?] at written
    split_ifs at written
    cases written
    simp [← String.toList_inj, Value.text, toString]
  · right
    right
    obtain ⟨⟨name, entry⟩, member, rfl⟩ := List.mem_map.mp found
    refine List.mem_map.mpr ⟨⟨name, entry⟩, member, ?_⟩
    simp only [Definition.line?] at written
    split at written
    · cases written
      simp [← String.toList_inj, toString]
    · cases written

/-! ## Performing lines -/

/-- Perform lines in order, each finished by a newline. -/
def assignLines (table : Table) : List (List Char) → Except Fault Table
  | [] => .ok table
  | line :: lines => do
      let (_, after) ← table.assign (line ++ ['\n'])
      after.assignLines lines

/-- The lines of definitions define them in order. -/
theorem assignLines_eq_ok {lines : List (List Char)} {definitions : List Definition}
    (written : List.Forall₂ (fun line definition => Definition.line? definition = some line) lines
      definitions)
    (recorded : ∀ definition ∈ definitions, definition.Recorded) (table : Table) :
    table.assignLines lines = .ok (definitions.foldl define table) := by
  induction written generalizing table with
  | nil => rfl
  | @cons line definition lines definitions first _ induction =>
      obtain ⟨head, tail⟩ := List.forall_mem_cons.mp recorded
      obtain ⟨tokens, planned⟩ := head.exists_plan first table
      have assigned : table.assign (line ++ ['\n']) = .ok (tokens, table.define definition) :=
        assign_eq_ok.mpr (Update.perform_assign_eq_ok.mpr ⟨_, planned, rfl⟩)
      rw [assignLines, assigned]
      exact induction tail _

theorem definition?_foldl_define {definitions : List Definition}
    (known : ∀ definition ∈ definitions, source.definition? definition.key = some definition)
    (table : Table) (key : Key) :
    (definitions.foldl define table).definition? key =
      if key ∈ definitions.map Definition.key then source.definition? key
      else table.definition? key := by
  induction definitions generalizing table with
  | nil => simp
  | cons definition definitions induction =>
      obtain ⟨first, others⟩ := List.forall_mem_cons.mp known
      simp only [List.foldl_cons, induction others, definition?_define, List.map_cons,
        List.mem_cons]
      by_cases later : key ∈ definitions.map Definition.key
      · simp [later]
      · by_cases here : definition.key = key
        · subst here
          simp [later, first]
        · simp [later, here, Ne.symm here]

/-- The lines that list the tables of a session, performed in any order over the initial table,
define again under their names the formulas and the variables whose entries are all finite
numbers, and change nothing else. -/
theorem assignLines_dump (requests : List Request) {lines : List (List Char)}
    (order : lines.Perm (initial.after requests).dump) :
    ∃ restored, initial.assignLines lines = .ok restored ∧
      (∀ definition line, (initial.after requests).definition? definition.key = some definition →
        definition.line? = some line → restored.definition? definition.key = some definition) ∧
      ∀ key, (∀ definition, (initial.after requests).definition? key = some definition →
        definition.line? = none) → restored.definition? key = initial.definition? key := by
  have recorded := recorded_initial.after requests
  generalize initial.after requests = source at order recorded ⊢
  obtain ⟨definitions, written, permuted⟩ := List.perm_comp_forall₂ order source.forall₂_dump
  have member_iff : ∀ definition, definition ∈ definitions ↔
      source.definition? definition.key = some definition ∧ definition.line?.isSome = true := by
    intro definition
    rw [permuted.mem_iff, listed, List.mem_filter, mem_definitions_iff]
  have known : ∀ definition ∈ definitions,
      source.definition? definition.key = some definition :=
    fun definition member => ((member_iff definition).mp member).1
  have found := definition?_foldl_define known initial
  refine ⟨_, assignLines_eq_ok written (fun definition member =>
    recorded _ _ (known definition member)) initial, ?_, ?_⟩
  · intro definition line known lined
    have member : definition ∈ definitions := (member_iff definition).mpr ⟨known, by simp [lined]⟩
    rw [found, if_pos (List.mem_map_of_mem member), known]
  · intro key unlined
    rw [found, if_neg]
    intro keyed
    obtain ⟨definition, member, rfl⟩ := List.mem_map.mp keyed
    obtain ⟨known, lined⟩ := (member_iff definition).mp member
    rw [unlined definition known] at lined
    cases lined

/-- A value with a negative zero and a formula over it, restored in reverse order. -/
theorem assignLines_dump_negative_zero :
    let zero : Value := ⟨[some (-0), some 2]⟩
    let entry : FunctionEntry := ⟨"f(x) = x+v",
      .formula ⟨["x"], [.variableName "x", .operator .add, .variableName "v"]⟩⟩
    let after := initial.after [.assign "v = [-0, 2]\n".toList, .assign "f(x) = x+v\n".toList]
    ∃ restored, initial.assignLines after.dump.reverse = .ok restored ∧
      restored.definition? (.value "v") = some (.value "v" zero) ∧
      restored.definition? (.function "f") = some (.function "f" entry) := by
  intro zero entry after
  have bound : after.valueOf? "v" = some zero := by decide +kernel
  have found : after.function? "f" = some entry := by decide +kernel
  have finite : zero.isFinite = true := by decide +kernel
  have line : (Definition.value "v" zero).line? =
      some ("v".toList ++ " = ".toList ++ zero.write) := by
    rw [Definition.line?, if_pos finite]
  obtain ⟨restored, performed, same, -⟩ := assignLines_dump _ (List.reverse_perm after.dump)
  refine ⟨restored, performed, same (.value "v" zero) _ ?_ line,
    same (.function "f" entry) _ ?_ rfl⟩
  · rw [Definition.key, definition?, bound, Option.map_some]
  · rw [Definition.key, definition?, found, Option.map_some]

end Table
end Reckoner
