import Reckoner.Proofs.Comparison.Scope
import Reckoner.Proofs.Value
import Reckoner.Sampling

/-!
# Calls point by point

As long as everything constant is a scalar, a function called on many numbers at once gives at each
of them what it gives when called on that number alone.
-/

namespace Reckoner

/-- The second value is a scalar with the entry that the first has at an index, where a scalar has
the same entry at all indices. -/
inductive Value.Picks (count index : Nat) : Value → Value → Prop where
  | constant (entry : Option Float) : Picks count index ⟨[entry]⟩ ⟨[entry]⟩
  | varying {entries : List (Option Float)} {entry : Option Float}
      (length : entries.length = count) (picked : entries[index]? = some entry) :
      Picks count index ⟨entries⟩ ⟨[entry]⟩

namespace Value.Picks

variable {count index : Nat} {value single : Value}

theorem map (f : Option Float → Option Float) (picks : Picks count index value single) :
    Picks count index ⟨value.entries.map f⟩ ⟨single.entries.map f⟩ := by
  cases picks with
  | constant entry => exact .constant (f entry)
  | varying length picked =>
      refine .varying ?_ ?_
      · rw [List.length_map, length]
      · rw [List.getElem?_map, picked, Option.map_some]

theorem length (picks : Picks count index value single) :
    value.length = 1 ∨ value.length = count := by
  cases picks with
  | constant entry => exact .inl rfl
  | varying length _ => exact .inr length

theorem getElem?_eq {entry : Option Float} (picks : Picks count index value ⟨[entry]⟩)
    (inside : index < count) :
    value.entries[if value.length = 1 then 0 else index]? = some entry := by
  cases picks with
  | constant => rfl
  | varying length picked =>
      split_ifs with single
      · have only : index = 0 := by
          have same := length.symm.trans single
          omega
        rw [← only, picked]
      · exact picked

theorem broadcast (f : Float → Float → Float) {lhs rhs left right : Value}
    (first : Picks count index lhs left) (second : Picks count index rhs right) :
    ∃ value single, broadcast f lhs rhs = .ok value ∧ broadcast f left right = .ok single ∧
      Picks count index value single := by
  cases first with
  | constant entry =>
      rw [broadcast_scalar_left, broadcast_scalar_left]
      exact ⟨_, _, rfl, rfl, second.map _⟩
  | @varying entries entry length picked =>
      cases second with
      | constant other =>
          rw [broadcast_scalar_right, broadcast_scalar_right]
          exact ⟨_, _, rfl, rfl, (varying length picked).map _⟩
      | @varying others other lengthOther pickedOther =>
          have same : Value.length ⟨entries⟩ = Value.length ⟨others⟩ :=
            length.trans lengthOther.symm
          rw [broadcast_of_length_eq f same, broadcast_scalar_left]
          refine ⟨_, _, rfl, rfl, .varying ?_ ?_⟩
          · rw [List.length_zipWith, length, lengthOther, Nat.min_self]
          · rw [List.getElem?_zipWith, picked, pickedOther]

end Value.Picks

namespace Comparison

open Outcome Value

/-- The comparison of a run on many numbers with the run on the number at an index. -/
def pointwise (count index : Nat) : Comparison where
  related := Picks count index
  allowed _ := True
  refused _ := False
  arrays := False
  apply op binary := by
    intro lhs lhs' rhs rhs' left right
    obtain ⟨f, broadcasts⟩ := exists_apply_eq_broadcast binary
    obtain ⟨value, single, many, one, picks⟩ := left.broadcast f right
    rw [broadcasts, broadcasts, many, one]
    exact .ok picks
  factorial argument := argument.map (·.bind Reckoner.factorial)
  neg argument := argument.map (Option.map fun x => -x)
  array impossible := impossible.elim
  builtin f name := by
    intro args args' all
    rcases f.arguments_cases args with ⟨x, rfl⟩ | ⟨rfl, x, base, rfl⟩ | ⟨notOne, notTwo⟩
    · cases all with
      | cons argument none =>
          cases none
          rw [Builtin.call_single, Builtin.call_single]
          exact .ok ((argument.map _).map _)
    · cases all with
      | cons argument others =>
          cases others with
          | cons baseArgument none =>
              cases none
              obtain ⟨value, single, many, one, picks⟩ :=
                argument.broadcast Builtin.logBase baseArgument
              rw [Builtin.call_log, Builtin.call_log, many, one]
              exact .ok (picks.map _)
    · have lengths := all.length_eq
      rw [Builtin.call_other name notOne notTwo, lengths,
        Builtin.call_other name (lengths ▸ notOne) (lengths ▸ notTwo)]
      exact .error trivial
  raised _ := trivial

end Comparison

/-- A function entry leads to another through the function names in formula bodies. -/
inductive Table.Reaches (table : Table) : FunctionEntry → FunctionEntry → Prop where
  | refl (entry : FunctionEntry) : Reaches table entry entry
  | body {entry next reached : FunctionEntry} {f : Formula} {name : String}
      (routine : entry.routine = .formula f) (calls : .functionName name ∈ f.body)
      (found : table.function? name = some next) (onward : Reaches table next reached) :
      Reaches table entry reached

/-- Token sequences without arrays in which all numbers are scalars. -/
structure Scalars (tokens : List Token) : Prop where
  noOpening : .opening .square ∉ tokens
  noClosing : .closing .square ∉ tokens
  numbers : ∀ value, .number value ∈ tokens → value.length = 1

/-- The constants of a table are scalars, and so is everything constant in the bodies that an entry
leads to. -/
structure Table.ScalarsFrom (table : Table) (entry : FunctionEntry) : Prop where
  constants : ∀ name value, table.valueOf? name = some value → value.length = 1
  bodies : ∀ reached f, table.Reaches entry reached → reached.routine = .formula f →
    Scalars f.body

theorem Table.ScalarsFrom.next {table : Table} {entry next : FunctionEntry} {f : Formula}
    {name : String} (scalars : table.ScalarsFrom entry) (routine : entry.routine = .formula f)
    (calls : .functionName name ∈ f.body) (found : table.function? name = some next) :
    table.ScalarsFrom next where
  constants := scalars.constants
  bodies reached f onward := scalars.bodies reached f (.body routine calls found onward)

namespace Comparison

open Outcome Value

theorem picks_self {count index : Nat} {value : Value} (scalar : value.length = 1) :
    Picks count index value value := by
  obtain ⟨entry, rfl⟩ := exists_entry scalar
  exact .constant entry

theorem linked_of_scalarsFrom {table : Table} {entry : FunctionEntry} (count index callsLeft : Nat)
    (scalars : table.ScalarsFrom entry) :
    (pointwise count index).Linked table table callsLeft callsLeft entry.routine
      entry.routine := by
  refine linked_of_invariant (fun _ => table.ScalarsFrom) ?_ ?_ ?_ ?_ ?_ scalars
  · intro entry f scalars routine name
    trivial
  · intro callsLeft entry f name next scalars routine calls found
    exact scalars.next routine calls found
  · intro callsLeft entry f value scalars routine member
    exact picks_self ((scalars.bodies entry f (.refl entry) routine).numbers value member)
  · intro callsLeft entry f scalars routine member
    exact (scalars.bodies entry f (.refl entry) routine).noOpening member
  · intro name value bound
    exact picks_self (scalars.constants name value bound)

end Comparison

namespace Scope

open Comparison Value

theorem picks_ofList {xs : List Float} {i : Nat} (inside : i < xs.length) :
    Picks xs.length i (.ofList xs) (.scalar xs[i]) := by
  refine .varying (List.length_map ..) ?_
  rw [List.getElem?_map, List.getElem?_eq_getElem inside, Option.map_some]

/-- A call on many numbers and the call on one of them fail alike or have results that
correspond. -/
theorem call_ofList_cases (scope : Scope) {entry : FunctionEntry} (name : String)
    (scalars : scope.table.ScalarsFrom entry) {xs : List Float} {i : Nat}
    (inside : i < xs.length) :
    (∃ fault, scope.call entry name [.ofList xs] = .error fault ∧
        scope.call entry name [.scalar xs[i]] = .error fault) ∨
      ∃ value y, scope.call entry name [.ofList xs] = .ok value ∧
        scope.call entry name [.scalar xs[i]] = .ok ⟨[y]⟩ ∧ Picks xs.length i value ⟨[y]⟩ := by
  have linked := linked_of_scalarsFrom xs.length i scope.callsLeft scalars
  have agree : (pointwise xs.length i).Agree (Picks xs.length i)
      (scope.call entry name [.ofList xs]) (scope.call entry name [.scalar xs[i]]) :=
    agree_callWithin linked (.cons (picks_ofList inside) .nil)
  rcases agree.fault_or_related with failed | ⟨value, single, many, one, picks⟩
  · exact .inl failed
  · cases picks with
    | constant y => exact .inr ⟨_, y, many, one, .constant y⟩
    | @varying _ y length picked => exact .inr ⟨_, y, many, one, .varying length picked⟩

variable (scope : Scope) {entry : FunctionEntry} (name : String)
  (scalars : scope.table.ScalarsFrom entry) {xs : List Float}
include scalars

theorem call_ofList_eq_error_iff {i : Nat} (inside : i < xs.length) (fault : Fault) :
    scope.call entry name [.ofList xs] = .error fault ↔
      scope.call entry name [.scalar xs[i]] = .error fault := by
  rcases scope.call_ofList_cases name scalars inside with
    ⟨cause, many, one⟩ | ⟨value, y, many, one, -⟩
  · rw [many, one]
  · rw [many, one]
    constructor
    · intro impossible
      cases impossible
    · intro impossible
      cases impossible

theorem length_of_call_ofList (filled : xs ≠ []) {value : Value}
    (called : scope.call entry name [.ofList xs] = .ok value) :
    value.length = 1 ∨ value.length = xs.length := by
  have first : 0 < xs.length := List.length_pos_of_ne_nil filled
  rcases scope.call_ofList_cases name scalars first with
    ⟨cause, many, -⟩ | ⟨other, y, many, -, picks⟩
  · cases called.symm.trans many
  · cases called.symm.trans many
    exact picks.length

theorem exists_entry_of_call_ofList {value : Value}
    (called : scope.call entry name [.ofList xs] = .ok value) {i : Nat} (inside : i < xs.length) :
    ∃ y, value.entries[if value.length = 1 then 0 else i]? = some y ∧
      scope.call entry name [.scalar xs[i]] = .ok ⟨[y]⟩ := by
  rcases scope.call_ofList_cases name scalars inside with
    ⟨cause, many, -⟩ | ⟨other, y, many, one, picks⟩
  · cases called.symm.trans many
  · cases called.symm.trans many
    exact ⟨y, picks.getElem?_eq inside, one⟩

end Scope

namespace Sampling

/-- The result of a function at a point, if there is a finite one. -/
def resultAt (scope : Scope) (entry : FunctionEntry) (name : String) (x : Float) : Option Float :=
  match scope.call entry name [.scalar x] with
  | .ok value => value.scalar?.join.filter Float.isFinite
  | .error _ => none

theorem length_points (first last : Float) (count : Nat) :
    (points first last count).length = count := by
  match count with
  | 0 => rfl
  | 1 => rfl
  | count + 2 => simp [points]

theorem entryAt_of_picks {count index : Nat} {value : Value} {entry : Option Float}
    (picks : Value.Picks count index value ⟨[entry]⟩) : entryAt value index = entry := by
  cases picks with
  | constant => rfl
  | @varying entries _ length picked =>
      match entries with
      | [] => cases picked
      | [only] =>
          cases index with
          | zero => exact Option.some.inj picked
          | succ index => cases picked
      | _ :: _ :: _ =>
          rw [entryAt, Value.scalar?, picked]
          rfl

theorem sample_eq_map (scope : Scope) {entry : FunctionEntry} (name : String)
    (scalars : scope.table.ScalarsFrom entry) (first last : Float) (count : Nat) :
    sample scope entry name first last count =
      (points first last count).map fun x => ⟨x, resultAt scope entry name x⟩ := by
  refine List.ext_getElem? fun i => ?_
  rw [sample, List.getElem?_mapIdx, List.getElem?_map]
  cases point : (points first last count)[i]? with
  | none => rfl
  | some x =>
      obtain ⟨inside, rfl⟩ := List.getElem?_eq_some_iff.mp point
      rw [Option.map_some, Option.map_some, resultAt]
      rcases scope.call_ofList_cases name scalars inside with
        ⟨fault, many, one⟩ | ⟨value, y, many, one, picks⟩
      · have absent : Value.Picks (points first last count).length i
            ⟨(points first last count).map fun _ => none⟩ ⟨[none]⟩ :=
          .varying (List.length_map ..) (by rw [List.getElem?_map, point, Option.map_some])
        rw [many, one, entryAt_of_picks absent]
        rfl
      · rw [many, one, entryAt_of_picks picks]
        rfl

end Sampling

/-- A function whose constants are scalars fails on many numbers as it does on each of them, gives
for each of them what it gives for it alone, and is sampled accordingly. -/
theorem Scope.call_pointwise (scope : Scope) {entry : FunctionEntry} (name : String)
    (scalars : scope.table.ScalarsFrom entry) :
    (∀ xs : List Float, xs ≠ [] → ∀ fault (i : Nat) (inside : i < xs.length),
      scope.call entry name [.ofList xs] = .error fault ↔
        scope.call entry name [.scalar xs[i]] = .error fault) ∧
      (∀ xs : List Float, xs ≠ [] → ∀ value, scope.call entry name [.ofList xs] = .ok value →
        (value.length = 1 ∨ value.length = xs.length) ∧
          ∀ (i : Nat) (inside : i < xs.length), ∃ y,
            value.entries[if value.length = 1 then 0 else i]? = some y ∧
              scope.call entry name [.scalar xs[i]] = .ok ⟨[y]⟩) ∧
      ∀ first last count,
        (Sampling.sample scope entry name first last count).length = count ∧
          Sampling.sample scope entry name first last count =
            (Sampling.points first last count).map fun x =>
              ⟨x, Sampling.resultAt scope entry name x⟩ := by
  refine ⟨?_, ?_, ?_⟩
  · intro xs _ fault i inside
    exact scope.call_ofList_eq_error_iff name scalars inside fault
  · intro xs filled value called
    refine ⟨scope.length_of_call_ofList name scalars filled called, ?_⟩
    intro i inside
    exact scope.exists_entry_of_call_ofList name scalars called inside
  · intro first last count
    have sampled := Sampling.sample_eq_map scope name scalars first last count
    refine ⟨?_, sampled⟩
    rw [sampled, List.length_map, Sampling.length_points]

/-- Half the double of a number, with the half in a variable and the double in a function. -/
theorem Scope.sample_half_double :
    let table := (Table.empty.setVariable "half" (.scalar 0.5)).setFunction "double"
      ⟨"double(x)=x+x",
        .formula ⟨["x"], [.variableName "x", .operator .add, .variableName "x"]⟩⟩
    let entry : FunctionEntry := ⟨"f(x)=half*double x",
      .formula ⟨["x"], [.variableName "half", .operator .mul, .functionName "double",
        .variableName "x"]⟩⟩
    Sampling.sample (.ofTable table) entry "f" 0 1 3 =
      (Sampling.points 0 1 3).map fun x =>
        ⟨x, Sampling.resultAt (.ofTable table) entry "f" x⟩ := by
  intro table entry
  have constants : ∀ name value, table.valueOf? name = some value → value.length = 1 := by
    intro name value bound
    simp only [table, Table.valueOf?_setFunction, Table.valueOf?_setVariable] at bound
    split_ifs at bound
    · cases bound
      rfl
    · simp [Table.empty, Table.valueOf?] at bound
  have bodies : ∀ reached f, table.Reaches entry reached → reached.routine = .formula f →
      Scalars f.body := by
    intro reached f onward routine
    cases onward with
    | refl =>
        cases routine
        exact ⟨by simp, by simp, by simp⟩
    | @body _ next _ g name first calls found onward =>
        cases first
        obtain rfl : name = "double" := by simpa using calls
        simp only [table, Table.function?_setFunction, ↓reduceIte, Option.some.injEq] at found
        subst found
        cases onward with
        | refl =>
            cases routine
            exact ⟨by simp, by simp, by simp⟩
        | body first calls =>
            cases first
            simp at calls
  exact ((Scope.ofTable table).call_pointwise "f" ⟨constants, bodies⟩).2.2 0 1 3 |>.2

end Reckoner
