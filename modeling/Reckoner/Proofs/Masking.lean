import Reckoner.Proofs.Comparison.Scope
import Reckoner.Proofs.Value

/-!
# Absent entries

Two runs over values of the same lengths end in the same fault or in values of the same length,
whatever the entries are.  If the entries of the second run are those of the first with some of them
made absent, then so are the entries of its result.
-/

namespace Reckoner

/-- A relation between the entries of two runs that no function of numbers breaks. -/
structure EntryRelation where
  /-- Whether two entries correspond. -/
  related : Option Float → Option Float → Prop
  absent : related none none
  bind (f : Float → Option Float) {entry entry' : Option Float} (entries : related entry entry') :
    related (entry.bind f) (entry'.bind f)
  combine (f : Float → Float → Float) {left left' right right' : Option Float}
    (lefts : related left left') (rights : related right right') :
    related (Value.combine f left right) (Value.combine f left' right')

/-- The second entry is the first or absent. -/
def Masks (entry masked : Option Float) : Prop := masked = entry ∨ masked = none

namespace EntryRelation

/-- Entries may be made absent. -/
def masking : EntryRelation where
  related := Masks
  absent := .inl rfl
  bind f := by
    rintro _ _ (rfl | rfl)
    · exact .inl rfl
    · exact .inr rfl
  combine f := by
    rintro _ left _ right (rfl | rfl) (rfl | rfl)
    · exact .inl rfl
    · exact .inr (by cases left <;> rfl)
    · exact .inr rfl
    · exact .inr rfl

/-- Entries may differ in every way. -/
def arbitrary : EntryRelation where
  related _ _ := True
  absent := trivial
  bind _ _ _ _ := trivial
  combine _ _ _ _ _ _ _ := trivial

end EntryRelation

/-- Two values with as many entries, which correspond one by one. -/
def Value.Alike (related : Option Float → Option Float → Prop) (value value' : Value) : Prop :=
  List.Forall₂ related value.entries value'.entries

/-- Two numbers whose values correspond, or the same token that is no number. -/
inductive Token.Alike (related : Option Float → Option Float → Prop) : Token → Token → Prop where
  | number {value value' : Value} (values : value.Alike related value') :
      Alike related (.number value) (.number value')
  | other {token : Token} (other : token.isNumber = false) : Alike related token token

/-- Two tables with the same names, in which the variables have values that correspond and the
functions are the same built-in ones or formulas that differ in their numbers only. -/
structure Table.Alike (related : Option Float → Option Float → Prop) (table table' : Table) :
    Prop where
  values (name : String) :
    Option.Rel (Value.Alike related) (table.valueOf? name) (table'.valueOf? name)
  functions (name : String) :
    Option.Rel
      (fun entry entry' => Comparison.MatchesRoutine (List.Forall₂ (Token.Alike related))
        entry.routine entry'.routine)
      (table.function? name) (table'.function? name)

namespace Value.Alike

variable {relation : EntryRelation} {value value' : Value}

theorem length_eq {related : Option Float → Option Float → Prop}
    (values : value.Alike related value') : value.length = value'.length :=
  List.Forall₂.length_eq values

theorem scalar {related : Option Float → Option Float → Prop} {entry : Option Float}
    (values : Alike related ⟨[entry]⟩ value') :
    ∃ entry', value' = ⟨[entry']⟩ ∧ related entry entry' := by
  obtain ⟨entries⟩ := value'
  cases values with
  | cons first rest =>
      cases rest
      exact ⟨_, rfl, first⟩

theorem map {related : Option Float → Option Float → Prop} {f g : Option Float → Option Float}
    (values : value.Alike related value')
    (keeps : ∀ entry entry', related entry entry' → related (f entry) (g entry')) :
    Alike related ⟨value.entries.map f⟩ ⟨value'.entries.map g⟩ :=
  List.rel_map (fun entry entry' entries => keeps entry entry' entries) values

theorem filterMap (f : Float → Option Float) (values : value.Alike relation.related value') :
    (value.filterMap f).Alike relation.related (value'.filterMap f) :=
  values.map fun _ _ entries => relation.bind f entries

theorem mapNumbers (f : Float → Float) (values : value.Alike relation.related value') :
    (value.map f).Alike relation.related (value'.map f) := by
  refine values.map fun entry entry' entries => ?_
  simpa only [Option.map_eq_bind] using relation.bind (some ∘ f) entries

theorem scalar?_join (values : value.Alike relation.related value') :
    relation.related value.scalar?.join value'.scalar?.join := by
  obtain ⟨entries⟩ := value
  obtain ⟨entries'⟩ := value'
  cases values with
  | nil => exact relation.absent
  | cons first rest =>
      cases rest with
      | nil => exact first
      | cons => exact relation.absent

theorem zipWith (f : Float → Float → Float) {lefts lefts' rights rights' : List (Option Float)}
    (left : List.Forall₂ relation.related lefts lefts')
    (right : List.Forall₂ relation.related rights rights') :
    List.Forall₂ relation.related (List.zipWith (Value.combine f) lefts rights)
      (List.zipWith (Value.combine f) lefts' rights') := by
  induction left generalizing rights rights' with
  | nil => exact .nil
  | cons first _ induction =>
      cases right with
      | nil => exact .nil
      | cons second rest => exact .cons (relation.combine f first second) (induction rest)

/-- The lengths alone decide whether values broadcast. -/
theorem broadcast (f : Float → Float → Float) {lhs lhs' rhs rhs' : Value}
    (left : lhs.Alike relation.related lhs') (right : rhs.Alike relation.related rhs') :
    Outcome.Agree (fun _ => True) (fun _ => False) (Value.Alike relation.related)
      (Value.broadcast f lhs rhs) (Value.broadcast f lhs' rhs') := by
  have leftLength := left.length_eq
  have rightLength := right.length_eq
  by_cases same : lhs.length = rhs.length
  · rw [broadcast_of_length_eq f same,
      broadcast_of_length_eq f (leftLength.symm.trans (same.trans rightLength))]
    exact .ok (zipWith f left right)
  by_cases leftScalar : lhs.length = 1
  · obtain ⟨entry, rfl⟩ := exists_entry leftScalar
    obtain ⟨entry', rfl, first⟩ := left.scalar
    rw [broadcast_scalar_left, broadcast_scalar_left]
    exact .ok (right.map fun _ _ second => relation.combine f first second)
  by_cases rightScalar : rhs.length = 1
  · obtain ⟨entry, rfl⟩ := exists_entry rightScalar
    obtain ⟨entry', rfl, second⟩ := right.scalar
    rw [broadcast_scalar_right, broadcast_scalar_right]
    exact .ok (left.map fun _ _ first => relation.combine f first second)
  · rw [broadcast_mismatch f same leftScalar rightScalar, leftLength, rightLength,
      broadcast_mismatch f (leftLength ▸ rightLength ▸ same) (leftLength ▸ leftScalar)
        (rightLength ▸ rightScalar)]
    exact .error trivial

end Value.Alike

namespace Comparison

open Outcome Value

/-- The comparison of two runs entry by entry. -/
def entrywise (relation : EntryRelation) : Comparison where
  related := Value.Alike relation.related
  allowed _ := True
  refused _ := False
  arrays := True
  apply op binary := by
    intro lhs lhs' rhs rhs' left right
    obtain ⟨f, broadcasts⟩ := exists_apply_eq_broadcast binary
    rw [broadcasts, broadcasts]
    exact left.broadcast f right
  factorial argument := argument.filterMap _
  neg argument := argument.mapNumbers _
  array _ := by
    intro values values' _ all
    exact List.rel_map (fun _ _ values => values.scalar?_join) all
  builtin f name := by
    intro args args' all
    rcases f.arguments_cases args with ⟨x, rfl⟩ | ⟨rfl, x, base, rfl⟩ | ⟨notOne, notTwo⟩
    · cases all with
      | cons argument none =>
          cases none
          rw [Builtin.call_single, Builtin.call_single]
          exact .ok ((argument.mapNumbers _).filterMap _)
    · cases all with
      | cons argument others =>
          cases others with
          | cons baseArgument none =>
              cases none
              rw [Builtin.call_log, Builtin.call_log]
              refine (argument.broadcast Builtin.logBase baseArgument).bind fun _ _ values => ?_
              exact .ok (values.filterMap _)
    · have lengths := all.length_eq
      rw [Builtin.call_other name notOne notTwo, lengths,
        Builtin.call_other name (lengths ▸ notOne) (lengths ▸ notTwo)]
      exact .error trivial
  raised _ := trivial

variable {relation : EntryRelation} {table table' : Table}

theorem matches_of_alike {names : Names} {token token' : Token}
    (tokens : token.Alike relation.related token') (shared : ∀ name, names.shared name)
    (callable : ∀ name, names.callable name) :
    (entrywise relation).Matches names token token' := by
  cases tokens with
  | number values => exact .number values
  | other other =>
      refine matches_self ?_ (fun _ => trivial) (fun name _ => shared name)
        (fun name _ => callable name)
      rintro value rfl
      cases other

/-- Formulas that differ in their numbers only are called alike at every depth. -/
theorem linked_of_alike (tables : table.Alike relation.related table') {callsLeft : Nat}
    {routine routine' : Routine}
    (routines : MatchesRoutine (List.Forall₂ (Token.Alike relation.related)) routine routine') :
    (entrywise relation).Linked table table' callsLeft callsLeft routine routine' := by
  refine linked_of_simulation
    (fun _ => MatchesRoutine (List.Forall₂ (Token.Alike relation.related))) ?_ ?_ routines
  · intro routine routine' routines
    exact routines.imp fun _ _ _ _ => trivial
  · intro _ routine routine' routines
    exact routines.imp fun body body' all => all.imp fun token token' tokens =>
      matches_of_alike tokens tables.values tables.functions

theorem agree_evaluate_of_alike (tables : table.Alike relation.related table')
    {tokens tokens' : List Token}
    (all : List.Forall₂ (Token.Alike relation.related) tokens tokens') :
    (entrywise relation).Agree (Value.Alike relation.related) (table.evaluate tokens)
      (table'.evaluate tokens') := by
  refine agree_evaluate_scope (all.imp fun token token' tokens => ?_)
  refine matches_of_alike tokens ?_ ?_
  · exact tables.values
  · intro name
    exact rel_imp (tables.functions name) fun _ _ => linked_of_alike tables

end Comparison

namespace Table

open Comparison

/-- Making entries of the variables, of the numbers in bodies and of the numbers evaluated absent
keeps a fault as it is and makes entries of a result absent at most.  Whether there is a fault,
which one, and the length of a result do not depend on the entries at all. -/
theorem evaluate_masked :
    (∀ {table masked : Table} {tokens maskedTokens : List Token}, table.Alike Masks masked →
      List.Forall₂ (Token.Alike Masks) tokens maskedTokens →
        (∃ fault, table.evaluate tokens = .error fault ∧
            masked.evaluate maskedTokens = .error fault) ∨
          ∃ value value', table.evaluate tokens = .ok value ∧
            masked.evaluate maskedTokens = .ok value' ∧ value.Alike Masks value') ∧
      ∀ {table other : Table} {tokens otherTokens : List Token},
        table.Alike (fun _ _ => True) other →
        List.Forall₂ (Token.Alike fun _ _ => True) tokens otherTokens →
          (∃ fault, table.evaluate tokens = .error fault ∧
              other.evaluate otherTokens = .error fault) ∨
            ∃ value value', table.evaluate tokens = .ok value ∧
              other.evaluate otherTokens = .ok value' ∧ value.length = value'.length := by
  constructor
  · intro table masked tokens maskedTokens tables all
    have agree := @agree_evaluate_of_alike .masking table masked tables tokens maskedTokens all
    exact agree.fault_or_related
  · intro table other tokens otherTokens tables all
    have agree := @agree_evaluate_of_alike .arbitrary table other tables tokens otherTokens all
    rcases agree.fault_or_related with failed | ⟨value, value', left, right, values⟩
    · exact .inl failed
    · exact .inr ⟨value, value', left, right, values.length_eq⟩

/-- A function that adds one to its argument, called on a variable with an absent entry, times a
number with another one. -/
theorem evaluate_masked_call :
    let successor : FunctionEntry := ⟨"f(y)=y+1",
      .formula ⟨["y"], [.variableName "y", .operator .add, .number (.scalar 1)]⟩⟩
    let table := (empty.setVariable "x" ⟨[some 1, some 2, some 3]⟩).setFunction "f" successor
    let masked := (empty.setVariable "x" ⟨[some 1, none, some 3]⟩).setFunction "f" successor
    let product (factor : Value) : List Token :=
      [.functionName "f", .variableName "x", .operator .mul, .number factor]
    ∃ value,
      table.evaluate (product ⟨[some 4, some 5, some 6]⟩) = .ok value ∧
        masked.evaluate (product ⟨[some 4, some 5, none]⟩) =
          .ok ⟨[some ((1 + 1) * 4), none, none]⟩ ∧
        value.Alike Masks ⟨[some ((1 + 1) * 4), none, none]⟩ := by
  intro successor table masked product
  have tables : table.Alike Masks masked := by
    constructor
    · intro name
      simp only [table, masked, valueOf?_setFunction, valueOf?_setVariable, valueOf?_empty]
      split_ifs
      · exact .some (.cons (.inl rfl) (.cons (.inr rfl) (.cons (.inl rfl) .nil)))
      · exact .none
    · intro name
      simp only [table, masked, function?_setFunction, function?_setVariable, function?_empty]
      split_ifs
      · exact .some (.formula (List.forall₂_same.mpr fun token member => by
          rcases token with value | _ | _ | _ | _ | _ | _
          · exact .number (List.forall₂_same.mpr fun _ _ => .inl rfl)
          all_goals exact .other rfl))
      · exact .none
  have tokens : List.Forall₂ (Token.Alike Masks) (product ⟨[some 4, some 5, some 6]⟩)
      (product ⟨[some 4, some 5, none]⟩) :=
    .cons (.other rfl) (.cons (.other rfl) (.cons (.other rfl)
      (.cons (.number (.cons (.inl rfl) (.cons (.inl rfl) (.cons (.inr rfl) .nil)))) .nil)))
  have result : masked.evaluate (product ⟨[some 4, some 5, none]⟩) =
      .ok ⟨[some ((1 + 1) * 4), none, none]⟩ := rfl
  rcases evaluate_masked.1 tables tokens with ⟨fault, -, failed⟩ | ⟨value, _, left, right, values⟩
  · cases result.symm.trans failed
  · cases result.symm.trans right
    exact ⟨value, left, result, values⟩

end Table
end Reckoner
