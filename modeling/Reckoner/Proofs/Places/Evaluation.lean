import Reckoner.Proofs.Grammar.Descent
import Reckoner.Proofs.Places.Slices

/-!
# Access out of range

Evaluation by position has the outcome of evaluation, whatever fault an access out of range ends in:
there is no such access.
-/

namespace Reckoner
namespace Evaluation

/-! ## Brackets around single values -/

/-- The tokens of an evaluated group with its brackets. -/
def bracketTokens (values : List Value) : List Token :=
  .opening .round :: ((values.map Token.number).intersperse .separator ++ [.closing .round])

/-- A sequence with brackets around all evaluated groups, and the same one with single values
bare. -/
inductive Collapses : List Token → List Token → Prop where
  | nil : Collapses [] []
  | plain {token : Token} {flat short : List Token} (noClosing : token ≠ .closing .round)
      (tails : Collapses flat short) : Collapses (token :: flat) (token :: short)
  | group (values : List Value) {flat short : List Token} (tails : Collapses flat short) :
      Collapses (bracketTokens values ++ flat) (groupTokens values ++ short)

section Collapse

variable (outside : Fault)

theorem closesSingle_of_ne {token : Token} (noClosing : token ≠ .closing .round)
    (written : List Token) : closesSingle outside written token = .ok false := by
  rw [closesSingle, if_neg fun closes => noClosing closes.1]

theorem closesSingle_append (written : List Token) (first second : Token) :
    closesSingle outside (written ++ [first, second]) (.closing .round) =
      .ok (decide (first = .opening .round) && second.isNumber) := by
  have length : (written ++ [first, second]).length = written.length + 2 := by simp
  have before : itemAt outside (written ++ [first, second])
      ((written ++ [first, second]).length - 2) = .ok first := by simp [itemAt]
  have last : itemAt outside (written ++ [first, second])
      ((written ++ [first, second]).length - 1) = .ok second := by simp [itemAt]
  rw [closesSingle, if_pos ⟨rfl, by omega⟩, before, last]
  by_cases opening : first = .opening .round <;> simp [opening]

theorem closesSingle_empty (written : List Token) :
    closesSingle outside (written ++ [.opening .round]) (.closing .round) = .ok false := by
  rcases List.eq_nil_or_concat' written with rfl | ⟨earlier, last, rfl⟩
  · rfl
  · rw [List.append_assoc, List.singleton_append, closesSingle_append]
    exact congrArg Except.ok (Bool.and_false _)

theorem removeAt_append (written : List Token) (first second : Token) :
    removeAt outside (written ++ [first, second]) ((written ++ [first, second]).length - 2) =
      .ok (written ++ [second]) := by
  simp [removeAt, List.eraseIdx_append_of_length_le]

theorem collapse_cons {written : List Token} {token : Token}
    (kept : closesSingle outside written token = .ok false) (rest : List Token) :
    collapse outside written (token :: rest) = collapse outside (written ++ [token]) rest := by
  rw [collapse, kept]
  rfl

theorem collapse_append (front : List Token) (noClosing : ∀ token ∈ front, token ≠ .closing .round)
    (written rest : List Token) :
    collapse outside written (front ++ rest) = collapse outside (written ++ front) rest := by
  induction front generalizing written with
  | nil => rw [List.nil_append, List.append_nil]
  | cons token front induction =>
      obtain ⟨first, others⟩ := List.forall_mem_cons.mp noClosing
      rw [List.cons_append, collapse_cons outside (closesSingle_of_ne outside first written),
        induction others, List.append_assoc, List.singleton_append]

theorem exists_intersperse_eq (first second : Value) (values : List Value) :
    ∃ front last, ((first :: second :: values).map Token.number).intersperse .separator =
      front ++ [.separator, .number last] := by
  induction values generalizing first second with
  | nil => exact ⟨[.number first], second, rfl⟩
  | cons third values induction =>
      obtain ⟨front, last, same⟩ := induction second third
      refine ⟨.number first :: .separator :: front, last, ?_⟩
      rw [List.map_cons, List.map_cons, List.intersperse_cons_cons, ← List.map_cons, same]
      rfl

/-- Brackets are removed around a single value and kept otherwise. -/
theorem collapse_bracketTokens (values : List Value) (written rest : List Token) :
    collapse outside written (bracketTokens values ++ rest) =
      collapse outside (written ++ groupTokens values) rest := by
  have noClosing : ∀ token ∈ (values.map Token.number).intersperse .separator,
      token ≠ .closing .round := forall_mem_intersperse (fun _ => by simp) (by simp) values
  have opened := collapse_append outside
    (.opening .round :: (values.map Token.number).intersperse .separator)
    (List.forall_mem_cons.mpr ⟨by simp, noClosing⟩) written (.closing .round :: rest)
  rw [bracketTokens, ← List.cons_append, List.append_assoc, List.singleton_append, opened]
  match values with
  | [] =>
      refine (collapse_cons outside (closesSingle_empty outside written) rest).trans ?_
      rw [List.append_assoc]
      rfl
  | [value] =>
      have single := closesSingle_append outside written (.opening .round) (.number value)
      simp only [List.map_cons, List.map_nil, List.intersperse_singleton]
      rw [collapse, single]
      simp only [decide_true, Token.isNumber, Bool.and_true, Outcome.ok_bind, ↓reduceIte,
        removeAt_append]
      rfl
  | first :: second :: values =>
      obtain ⟨front, last, same⟩ := exists_intersperse_eq first second values
      have many := closesSingle_append outside (written ++ .opening .round :: front) .separator
        (.number last)
      rw [List.append_assoc, List.cons_append] at many
      rw [same, collapse_cons outside many, groupTokens, same]
      · simp
      · simp

theorem collapse_of_collapses {flat short : List Token} (collapses : Collapses flat short)
    (written : List Token) : collapse outside written flat = .ok (written ++ short) := by
  induction collapses generalizing written with
  | nil => rw [collapse, List.append_nil]
  | plain noClosing _ induction =>
      rw [collapse_cons outside (closesSingle_of_ne outside noClosing written), induction,
        List.append_assoc, List.singleton_append]
  | group values _ induction =>
      rw [collapse_bracketTokens, induction, List.append_assoc]

end Collapse

/-! ## Evaluation -/

/-- A sequence with a value does not end with the name of a function. -/
theorem getLast?_hereditary (env : Environment) :
    Grammar.Hereditary env
      (fun _ _ tokens => ∃ front last, tokens = front ++ [last] ∧ last.isFunctionName = false)
      fun _ _ => True where
  number value := ⟨[], .number value, rfl, rfl⟩
  variableName {name _} _ := ⟨[], .variableName name, rfl, rfl⟩
  array _ _ := ⟨_ :: _, _, rfl, rfl⟩
  operand operand := operand
  group _ _ := ⟨_ :: _, _, rfl, rfl⟩
  emptyCall _ := ⟨[_, _], _, rfl, rfl⟩
  listCall _ _ _ := ⟨_ :: _ :: _, _, rfl, rfl⟩
  bareCall := by
    rintro name _ _ _ _ ⟨front, last, rfl, plain⟩
    exact ⟨.functionName name :: front, last, rfl, plain⟩
  atom atom := atom
  factorial _ := ⟨_, _, rfl, rfl⟩
  unsigned product := product
  negated := by
    rintro _ _ ⟨front, last, rfl, plain⟩
    exact ⟨.operator .sub :: front, last, rfl, plain⟩
  first item := item
  join := by
    rintro _ op _ _ _ left _ _ _ ⟨front, last, rfl, plain⟩ _
    exact ⟨left ++ .operator op :: front, last, by simp, plain⟩
  last _ := trivial
  more _ _ := trivial

section Runs

variable {outside : Fault} {evaluate : List Token → Except Fault Value} {tokens : List Token}
  (complete : ∀ slice value, evaluate slice = .ok value →
    slice.getLast?.any Token.isFunctionName = false)
include complete

/-- The gaps of a bracket are filled in with the values of their slices, unless there is nothing in
a bracket behind the name of a function. -/
theorem fillGaps_eq {called : Bool} {gaps : List Gap} {slices : List (List Token)}
    (located : LocatedGaps tokens called gaps slices) :
    fillGaps outside evaluate tokens gaps =
      if called && slices = [[]] then .ok [.closing .round]
      else do
        let values ← slices.mapM evaluate
        return (values.map Token.number).intersperse .separator ++ [.closing .round] := by
  induction located with
  | @last gap slice spans =>
      rw [fillGaps, spans.slice_eq_ok, Outcome.ok_bind, spans.isEmptyCall_eq_ok, Outcome.ok_bind]
      have empty : (slice.isEmpty && calledAt tokens gap.before) = true ↔
          (calledAt tokens gap.before && decide ([slice] = [[]])) = true := by
        simp [and_comm]
      simp only [empty]
      split_ifs
      · rfl
      · cases done : evaluate slice <;> simp [done]
  | @more gap slice gaps slices spans others induction =>
      obtain ⟨next, later, second, further, rfl, rfl⟩ := others.exists_cons
      rw [fillGaps, evaluateGap_of_spans spans, if_neg (by simp), List.mapM_cons]
      · cases done : evaluate slice with
        | error fault => rfl
        | ok value =>
            -- The slice has a value, so the next one is not behind the name of a function.
            rw [Outcome.ok_bind, Outcome.ok_bind, induction, complete slice value done,
              if_neg (by simp)]
            cases rest : (second :: further).mapM evaluate with
            | error fault => rfl
            | ok values =>
                obtain ⟨first, others, rfl⟩ : ∃ first others, values = first :: others := by
                  cases Outcome.mapM_eq_ok.mp rest
                  exact ⟨_, _, rfl⟩
                rfl
      · simp

/-- Evaluating groups by position evaluates them, if nothing that ends with the name of a function
has a value. -/
theorem flattenGroupsAt_eq (outside : Fault) (tokens : List Token) :
    flattenGroupsAt outside evaluate tokens = flattenGroups evaluate tokens := by
  have joined : ∀ called gaps slices, LocatedGaps tokens called gaps slices →
      Outcome.Agree (fun _ => True) (fun _ => False)
        (fun flat short => ∃ values, flat = bracketTokens values ∧ short = groupTokens values)
        (joinGroupAt outside evaluate tokens gaps) (joinGroup evaluate called slices) := by
    intro called gaps slices located
    rw [joinGroupAt, fillGaps_eq complete located, joinGroup]
    split_ifs
    · exact .ok ⟨[], rfl, rfl⟩
    · cases slices.mapM evaluate with
      | error fault => exact .error trivial
      | ok values => exact .ok ⟨values, rfl, rfl⟩
  have flat := (located_ofTokens .round tokens).agree_fill outside evaluate joined
    Collapses.nil
    (fun _ _ _ noClosing tails => Collapses.plain noClosing tails)
    (by
      rintro _ _ _ _ ⟨values, rfl, rfl⟩ tails
      exact Collapses.group values tails)
  rw [flattenGroupsAt, flattenGroups]
  rcases flat.fault_or_related with ⟨fault, left, right⟩ | ⟨long, short, left, right, collapses⟩
  · rw [left, right]
    rfl
  · rw [left, right, Outcome.ok_bind, collapse_of_collapses outside collapses]
    rfl

end Runs

theorem evaluateAt_eq (outside : Fault) (env : Environment) (size : Nat) :
    evaluateAt outside env size = evaluateWithin env size := by
  induction size with
  | zero => funext tokens; cases tokens <;> rfl
  | succ size induction =>
      funext tokens
      cases tokens with
      | nil => rfl
      | cons token rest =>
          have complete : ∀ slice value, evaluateWithin env size slice = .ok value →
              slice.getLast?.any Token.isFunctionName = false := by
            intro slice value evaluated
            obtain ⟨front, last, rfl, plain⟩ :=
              (getLast?_hereditary env).derives (derives_of_evaluateWithin evaluated)
            simpa using plain
          rw [evaluateAt, evaluateWithin, induction, buildArraysAt_eq]
          · refine Outcome.bind_congr fun built _ => ?_
            rw [flattenGroupsAt_eq complete outside]
          · simp
          · simp

end Evaluation

/-! ## Operands and arguments -/

open Evaluation

theorem Value.broadcastAt_eq (outside : Fault) (f : Float → Float → Float) (lhs rhs : Value) :
    broadcastAt outside f lhs rhs = broadcast f lhs rhs := by
  rw [broadcastAt]
  split_ifs with same left right
  · rw [broadcast_of_length_eq f same]
  · obtain ⟨entry, rfl⟩ := exists_entry left
    rw [broadcast_scalar_left]
    rfl
  · obtain ⟨entry, rfl⟩ := exists_entry right
    rw [broadcast_scalar_right]
    rfl
  · rw [broadcast_mismatch f same left right]

theorem Builtin.callAt_eq (outside : Fault) (f : Builtin) (name : String) (args : List Value) :
    f.callAt outside name args = f.call name args := by
  rcases f.arguments_cases args with ⟨x, rfl⟩ | ⟨rfl, x, base, rfl⟩ | ⟨notOne, notTwo⟩
  · rw [call_single]
    by_cases log : f = .log <;> simp [callAt, log, itemAt]
  · rw [call_log]
    simp [callAt, Value.broadcastAt_eq]
  · rw [call_other name notOne notTwo]
    unfold callAt
    split_ifs with log within
    · have := notTwo log
      omega
    · rw [arityFault, if_pos log]
    · rw [arityFault, if_neg log]

namespace Scope

theorem callWithinAt_eq (outside : Fault) (callsLeft : Nat) (scope : Scope) :
    callWithinAt outside callsLeft scope = callWithin callsLeft scope := by
  induction callsLeft generalizing scope with
  | zero =>
      funext entry name args
      cases routine : entry.routine with
      | builtin f =>
          rw [callWithin_builtin routine, callWithinAt]
          simp only [routine, Builtin.callAt_eq]
      | formula f =>
          rw [callWithin_zero routine, callWithinAt]
          simp only [routine]
  | succ callsLeft induction =>
      funext entry name args
      cases routine : entry.routine with
      | builtin f =>
          rw [callWithin_builtin routine, callWithinAt]
          simp only [routine, Builtin.callAt_eq]
      | formula f =>
          rw [callWithin_succ routine, callWithinAt]
          simp only [routine, induction, Evaluation.evaluateAt_eq]
          rfl

/-- Nothing that evaluation looks up by position is out of range: what would be raised for that
makes no difference. -/
theorem evaluateAt_eq_evaluate (outside : Fault) (scope : Scope) (tokens : List Token) :
    scope.evaluateAt outside tokens = scope.evaluate tokens := by
  rw [evaluateAt, Evaluation.evaluateAt_eq, callWithinAt_eq]
  rfl

end Scope
end Reckoner
