import Reckoner.Proofs.Comparison.Scope
import Reckoner.Proofs.Lexemes
import Reckoner.Proofs.Value

/-!
# Values with entries

Calculation never loses all entries of a value: results have entries if the values in the table do,
and a text writes no value without.
-/

namespace Reckoner

/-- A value with at least one entry. -/
def Value.Filled (value : Value) : Prop := 0 < value.length

/-- A token sequence whose numbers have entries. -/
def NumbersFilled (tokens : List Token) : Prop := ∀ value, .number value ∈ tokens → value.Filled

/-! ## Arithmetic -/

namespace Value

variable {lhs rhs value : Value}

theorem filled_scalar (x : Float) : (scalar x).Filled := Nat.one_pos

theorem Filled.broadcast {f : Float → Float → Float} (left : lhs.Filled) (right : rhs.Filled)
    (applied : Value.broadcast f lhs rhs = .ok value) : value.Filled := by
  rcases broadcast_cases f lhs rhs with ⟨_, done, broadcasts⟩ | ⟨-, -, -, failed⟩
  · cases done.symm.trans applied
    rw [Filled] at left right ⊢
    generalize lhs.length = l, rhs.length = r, value.length = n at *
    cases broadcasts <;> assumption
  · cases failed.symm.trans applied

theorem Filled.neg (argument : value.Filled) : value.neg.Filled := by
  rwa [Filled, Value.neg, length_map]

theorem Filled.factorial (argument : value.Filled) : value.factorial.Filled := by
  rwa [Filled, Value.factorial, length_filterMap]

end Value

theorem Builtin.filled_of_call {f : Builtin} {name : String} {args : List Value} {value : Value}
    (arguments : ∀ arg ∈ args, arg.Filled) (called : f.call name args = .ok value) :
    value.Filled := by
  rcases f.arguments_cases args with ⟨x, rfl⟩ | ⟨rfl, x, base, rfl⟩ | ⟨notOne, notTwo⟩
  · rw [call_single] at called
    cases called
    rw [Value.Filled, defined, Value.length_filterMap, Value.length_map]
    exact arguments x List.mem_cons_self
  · rw [call_log] at called
    obtain ⟨logarithm, broadcast, done⟩ := Outcome.bind_eq_ok.mp called
    cases done
    rw [Value.Filled, defined, Value.length_filterMap]
    exact (arguments x (by simp)).broadcast (arguments base (by simp)) broadcast
  · rw [call_other name notOne notTwo] at called
    cases called

/-! ## Faults of arithmetic -/

/-- If the fault is a mismatch, it is one of two different lengths, each of two or more. -/
def Fault.ShapesApart : Fault → Prop
  | .shapeMismatch left right => 2 ≤ left ∧ 2 ≤ right ∧ left ≠ right
  | _ => True

theorem Fault.Raised.shapesApart {fault : Fault} (raised : fault.Raised) : fault.ShapesApart := by
  cases raised <;> trivial

theorem Value.Filled.failsOnly_broadcast (f : Float → Float → Float) {lhs rhs : Value}
    (left : lhs.Filled) (right : rhs.Filled) :
    Outcome.FailsOnly Fault.ShapesApart (Value.broadcast f lhs rhs) := by
  rcases broadcast_cases f lhs rhs with ⟨_, done, -⟩ | ⟨different, leftMany, rightMany, failed⟩
  · rw [done]
    exact .ok _
  · rw [failed]
    exact .error ⟨Nat.lt_of_le_of_ne left leftMany.symm, Nat.lt_of_le_of_ne right rightMany.symm,
      different⟩

theorem Builtin.failsOnly_call {f : Builtin} {name : String} {args : List Value}
    (arguments : ∀ arg ∈ args, arg.Filled) :
    Outcome.FailsOnly Fault.ShapesApart (f.call name args) := by
  rcases f.arguments_cases args with ⟨x, rfl⟩ | ⟨rfl, x, base, rfl⟩ | ⟨notOne, notTwo⟩
  · rw [call_single]
    exact .ok _
  · rw [call_log]
    exact ((arguments x (by simp)).failsOnly_broadcast _ (arguments base (by simp))).bind
      fun _ => .ok _
  · rw [call_other name notOne notTwo]
    exact .error trivial

/-! ## Checked calls -/

/-- The environment in which every call is checked before it is made: one with arguments that are
not accepted ends in the fault `refusal`. -/
def Environment.checked (accepts : List Value → Bool) (refusal : Fault) (env : Environment) :
    Environment where
  valueOf? := env.valueOf?
  call name args := if accepts args then env.call name args else .error refusal

namespace Scope

/-- Call a function under a name, with `callsLeft` as the greatest number of nested formula calls,
where the calls in bodies are checked. -/
def callChecked (accepts : List Value → Bool) (refusal : Fault) :
    Nat → Scope → FunctionEntry → String → List Value → Except Fault Value
  | callsLeft, scope, entry, name, args =>
      match entry.routine with
      | .builtin f => f.call name args
      | .formula f =>
          if f.parameters.length = args.length then
            match callsLeft with
            | 0 => .error (.invalidCall name .tooDeep)
            | callsLeft + 1 =>
                let inner := scope.bind (f.parameters.zip args)
                Reckoner.evaluate ((inner.environmentWith
                  (callChecked accepts refusal callsLeft inner)).checked accepts refusal) f.body
          else .error (.invalidCall name (.arity f.parameters.length args.length))

/-- Evaluate a token sequence where all calls are checked. -/
def evaluateChecked (accepts : List Value → Bool) (refusal : Fault) (scope : Scope)
    (tokens : List Token) : Except Fault Value :=
  Reckoner.evaluate ((scope.environmentWith
    (callChecked accepts refusal scope.callsLeft scope)).checked accepts refusal) tokens

/-- All calls that an evaluation makes, those in bodies included, have arguments that are accepted:
checking them makes no difference, whatever fault a check ends in. -/
def CallsOnly (accepts : List Value → Bool) (scope : Scope) (tokens : List Token) : Prop :=
  ∀ refusal, scope.evaluateChecked accepts refusal tokens = scope.evaluate tokens

end Scope

/-! ## Evaluation -/

/-- A table without empty values, neither of variables nor in the bodies of formulas. -/
structure Table.Filled (table : Table) : Prop where
  values (name : String) (value : Value) (bound : table.valueOf? name = some value) :
    value.Filled
  bodies (name : String) (entry : FunctionEntry) (f : Formula)
    (found : table.function? name = some entry) (routine : entry.routine = .formula f) :
    NumbersFilled f.body

namespace Comparison

open Outcome

theorem forall₂_filled_iff {args args' : List Value} :
    List.Forall₂ (fun value value' : Value => value.Filled ∧ value = value') args args' ↔
      (∀ arg ∈ args, arg.Filled) ∧ args = args' := by
  rw [List.forall₂_and_left, List.forall₂_eq_eq_eq]

/-- The comparison of a run over values with entries with itself. -/
def filled : Comparison where
  related value value' := value.Filled ∧ value = value'
  allowed := Fault.ShapesApart
  refused _ := False
  arrays := True
  apply op binary := by
    rintro lhs _ rhs _ ⟨left, rfl⟩ ⟨right, rfl⟩
    obtain ⟨f, broadcasts⟩ := Value.exists_apply_eq_broadcast binary
    rw [broadcasts]
    exact .of_results (fun _ => left.broadcast right) (left.failsOnly_broadcast f right)
  factorial := by
    rintro value _ ⟨argument, rfl⟩
    exact ⟨argument.factorial, rfl⟩
  neg := by
    rintro value _ ⟨argument, rfl⟩
    exact ⟨argument.neg, rfl⟩
  array _ := by
    intro values values' filled entries
    obtain ⟨-, rfl⟩ := forall₂_filled_iff.mp entries
    exact ⟨by simpa [Value.Filled, Value.length, List.length_pos_iff] using filled, rfl⟩
  builtin f name := by
    intro args args' all
    obtain ⟨arguments, rfl⟩ := forall₂_filled_iff.mp all
    exact .of_results (fun _ => Builtin.filled_of_call arguments)
      (Builtin.failsOnly_call arguments)
  raised := Fault.Raised.shapesApart

end Comparison

namespace Scope

open Comparison Outcome

variable {scope : Scope} {accepts : List Value → Bool} {refusal : Fault} {tokens : List Token}

/-- The locals of a scope have entries. -/
def LocalsFilled (scope : Scope) : Prop := ∀ name value, (name, value) ∈ scope.locals → value.Filled

theorem localsFilled_ofTable (table : Table) : (ofTable table).LocalsFilled := by
  simp [LocalsFilled, ofTable]

theorem filled_of_valueOf? (table : scope.table.Filled) (locals : scope.LocalsFilled)
    {name : String} {value : Value} (bound : scope.valueOf? name = some value) : value.Filled := by
  rw [valueOf?, Option.or_eq_some_iff] at bound
  rcases bound with bound | ⟨-, bound⟩
  · obtain ⟨front, back, split, -⟩ := List.lookup_eq_some_iff.mp bound
    refine locals name value (List.mem_reverse.mp ?_)
    rw [split]
    simp
  · exact table.values name value bound

section Checked

variable (accepted : ∀ args : List Value, (∀ arg ∈ args, arg.Filled) → accepts args = true)

include accepted

/-- Evaluation agrees with checked evaluation if calls with entries do. -/
theorem agree_checked_of_calls (table : scope.table.Filled) (locals : scope.LocalsFilled)
    {callEntry callEntry' : FunctionEntry → String → List Value → Except Fault Value}
    (calls : ∀ name entry args, scope.table.function? name = some entry →
      (∀ arg ∈ args, arg.Filled) →
      filled.Agree filled.related (callEntry entry name args) (callEntry' entry name args))
    (numbers : NumbersFilled tokens) :
    filled.Agree filled.related (Reckoner.evaluate (scope.environmentWith callEntry) tokens)
      (Reckoner.evaluate ((scope.environmentWith callEntry').checked accepts refusal) tokens) := by
  refine agree_evaluate (matchesAll_self ?_ (fun _ => trivial) ?_ ?_)
  · exact fun value member => ⟨numbers value member, rfl⟩
  · exact fun name _ => rel_self fun value bound => ⟨filled_of_valueOf? table locals bound, rfl⟩
  · intro name _ args args' all
    obtain ⟨arguments, rfl⟩ := forall₂_filled_iff.mp all
    simp only [Environment.checked, accepted args arguments, ↓reduceIte, environmentWith]
    cases found : scope.table.function? name with
    | none => exact .error (filled.raised (.unknown name))
    | some entry => exact calls name entry args found arguments

theorem agree_callChecked (table : scope.table.Filled) (callsLeft : Nat) {name : String}
    {entry : FunctionEntry} {args : List Value} (found : scope.table.function? name = some entry)
    (arguments : ∀ arg ∈ args, arg.Filled) :
    filled.Agree filled.related (callWithin callsLeft scope entry name args)
      (callChecked accepts refusal callsLeft scope entry name args) := by
  induction callsLeft generalizing scope name entry args with
  | zero =>
      rw [callWithin, callChecked]
      cases routine : entry.routine with
      | builtin f => exact filled.builtin f name (forall₂_filled_iff.mpr ⟨arguments, rfl⟩)
      | formula f =>
          dsimp only
          split_ifs
          · exact .error trivial
          · exact .error trivial
  | succ callsLeft induction =>
      rw [callWithin, callChecked]
      cases routine : entry.routine with
      | builtin f => exact filled.builtin f name (forall₂_filled_iff.mpr ⟨arguments, rfl⟩)
      | formula f =>
          dsimp only
          split_ifs
          · refine @agree_checked_of_calls (scope.bind (f.parameters.zip args)) _ _ _ accepted
              table ?_ _ _ ?_ ?_
            · exact fun _ value member => arguments value (List.of_mem_zip member).2
            · exact fun name entry args found arguments =>
                @induction (scope.bind _) table name entry args found arguments
            · exact table.bodies name entry f found routine
          · exact .error trivial

theorem agree_evaluateChecked (table : scope.table.Filled) (locals : scope.LocalsFilled)
    (numbers : NumbersFilled tokens) :
    filled.Agree filled.related (scope.evaluate tokens)
      (scope.evaluateChecked accepts refusal tokens) :=
  agree_checked_of_calls accepted table locals
    (fun _ _ _ found arguments => agree_callChecked accepted table scope.callsLeft found arguments)
    numbers

end Checked

variable (table : scope.table.Filled) (locals : scope.LocalsFilled) (numbers : NumbersFilled tokens)

include table locals numbers

/-- If the values in the table, the locals and the tokens have entries, then so have all
arguments. -/
theorem callsOnly_of_filled
    (accepted : ∀ args : List Value, (∀ arg ∈ args, arg.Filled) → accepts args = true) :
    scope.CallsOnly accepts tokens := by
  intro refusal
  have agree := @agree_evaluateChecked scope accepts refusal tokens accepted table locals numbers
  rcases agree.fault_or_related with ⟨fault, failed, same⟩ | ⟨value, _, left, right, -, rfl⟩
  · rw [failed, same]
  · rw [left, right]

theorem agree_evaluate_self : filled.Agree filled.related (scope.evaluate tokens)
    (scope.evaluate tokens) := by
  have agree := @agree_evaluateChecked scope (fun _ => true) (.malformedExpression .empty) tokens
    (fun _ _ => rfl) table locals numbers
  rwa [callsOnly_of_filled table locals numbers fun _ _ => rfl] at agree

theorem filled_of_evaluate {value : Value} (evaluated : scope.evaluate tokens = .ok value) :
    value.Filled := by
  have agree := agree_evaluate_self table locals numbers
  rw [evaluated] at agree
  cases agree with
  | ok results => exact results.1

theorem shapesApart_of_evaluate : FailsOnly Fault.ShapesApart (scope.evaluate tokens) :=
  (agree_evaluate_self table locals numbers).failsOnly

end Scope

theorem Lexer.numbersFilled_of_tokenize {text : List Char} {tokens : List Token}
    (tokenized : tokenize text = .ok tokens) : NumbersFilled tokens := by
  intro value member
  obtain ⟨lexeme, scanned, read⟩ := exists_lexeme_of_mem tokenized member
  obtain ⟨front, back, -, -, reads⟩ := (covers_scan text).exists_place scanned
  rw [outcome_eq_ok_iff.mpr read] at reads
  generalize lexeme.piece = piece at reads
  cases reads with
  | number => exact Value.filled_scalar _

end Reckoner
