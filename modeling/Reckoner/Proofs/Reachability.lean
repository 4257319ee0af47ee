import Reckoner.Proofs.Comparison.Equality
import Reckoner.Proofs.Transaction

/-!
# Reachable names

Evaluation looks up the names in the tokens and those in the bodies of the formulas it calls, and
nothing else.  Hence assignments that cannot reach each other's keys may be made in either order.
-/

namespace Reckoner

/-- The token that names what is found under a key. -/
def Key.token : Key → Token
  | .value name => .variableName name
  | .function name => .functionName name

namespace Table

/-- A key is reachable from tokens: one of them names it, or it is reachable from the body of a
formula that the table has under the name of one of them. -/
inductive Reachable (table : Table) : List Token → Key → Prop where
  | named {tokens : List Token} {key : Key} (occurs : key.token ∈ tokens) :
      Reachable table tokens key
  | body {tokens : List Token} {name : String} {entry : FunctionEntry} {f : Formula} {key : Key}
      (occurs : .functionName name ∈ tokens) (found : table.function? name = some entry)
      (routine : entry.routine = .formula f) (onward : Reachable table f.body key) :
      Reachable table tokens key

/-- What no formula of a table names is reachable only from tokens that name it. -/
theorem Reachable.token_mem {table : Table} {tokens : List Token} {key : Key}
    (unnamed : ∀ name entry f, table.function? name = some entry → entry.routine = .formula f →
      key.token ∉ f.body)
    (reachable : table.Reachable tokens key) : key.token ∈ tokens := by
  induction reachable with
  | named occurs => exact occurs
  | body occurs found routine onward induction =>
      exact absurd (induction unnamed) (unnamed _ _ _ found routine)

/-- Two tables agree on all that is reachable from tokens in the first. -/
def AgreeFrom (table table' : Table) (tokens : List Token) : Prop :=
  ∀ key, table.Reachable tokens key → table.definition? key = table'.definition? key

variable {table table' : Table} {tokens : List Token}

namespace AgreeFrom

variable {name : String}

theorem valueOf? (agree : table.AgreeFrom table' tokens) (occurs : .variableName name ∈ tokens) :
    table.valueOf? name = table'.valueOf? name :=
  definition?_value_eq_iff.mp (agree (.value name) (.named occurs))

theorem function? (agree : table.AgreeFrom table' tokens) (occurs : .functionName name ∈ tokens) :
    table.function? name = table'.function? name :=
  definition?_function_eq_iff.mp (agree (.function name) (.named occurs))

/-- Tables that agree from tokens agree from the bodies of the formulas that they name. -/
theorem body {entry : FunctionEntry} {f : Formula} (agree : table.AgreeFrom table' tokens)
    (occurs : .functionName name ∈ tokens) (found : table.function? name = some entry)
    (routine : entry.routine = .formula f) : table.AgreeFrom table' f.body :=
  fun key onward => agree key (.body occurs found routine onward)

end AgreeFrom

end Table

namespace Comparison

open Table

variable {table table' : Table} {tokens : List Token}

/-- The same routine, from whose body two tables agree. -/
def SameRoutine (table table' : Table) (routine routine' : Routine) : Prop :=
  routine = routine' ∧ ∀ f, routine = .formula f → table.AgreeFrom table' f.body

theorem matchesAll_of_agreeFrom (agree : table.AgreeFrom table' tokens) :
    exact.MatchesAll (exact.tableNames table table' (SameRoutine table table')) tokens tokens := by
  refine matchesAll_self (fun _ _ => rfl) (fun _ => trivial) ?_ ?_
  · exact fun name member => rel_eq_of_eq (agree.valueOf? member)
  · intro name member
    simp only [tableNames, ← agree.function? member]
    exact rel_self fun entry found => ⟨rfl, fun f routine => agree.body member found routine⟩

/-- A routine from whose body two tables agree is called alike at every depth, in cycles too. -/
theorem linked_of_sameRoutine {callsLeft : Nat} {routine routine' : Routine}
    (same : SameRoutine table table' routine routine') :
    exact.Linked table table' callsLeft callsLeft routine routine' := by
  refine linked_of_simulation (fun _ => SameRoutine table table') ?_ ?_ same
  · rintro routine _ ⟨rfl, -⟩
    cases routine with
    | builtin f => exact .builtin f
    | formula f => exact .formula fun _ => trivial
  · rintro _ routine _ ⟨rfl, agree⟩
    cases routine with
    | builtin f => exact .builtin f
    | formula f => exact .formula (matchesAll_of_agreeFrom (agree f rfl))

end Comparison

namespace Table

open Comparison

variable {table table' : Table} {tokens : List Token}

theorem AgreeFrom.evaluate_eq (agree : table.AgreeFrom table' tokens) :
    table.evaluate tokens = table'.evaluate tokens := by
  have agreeing : exact.Agree Eq (table.evaluate tokens) (table'.evaluate tokens) := by
    refine agree_evaluate_scope ((matchesAll_of_agreeFrom agree).imp fun _ _ matching => ?_)
    refine matching.imp (fun _ shared => shared) (fun name entries => ?_) fun _ _ none => none.elim
    exact rel_imp entries fun _ _ => linked_of_sameRoutine
  exact agreeing.eq

/-- A definition that is not reachable from tokens does not matter to their value. -/
theorem evaluate_define {defined : Definition} (apart : ¬ table.Reachable tokens defined.key) :
    (table.define defined).evaluate tokens = table.evaluate tokens := by
  refine (AgreeFrom.evaluate_eq fun key reachable => ?_).symm
  rw [definition?_define, if_neg]
  rintro rfl
  exact apart reachable

/-- A key is reachable from the expression in the text of an assignment. -/
def ReachableFromText (table : Table) (input : List Char) (key : Key) : Prop :=
  ∃ tokens, (Statement.prepare input).map Prod.snd = .ok tokens ∧ table.Reachable tokens key

theorem definition_define {statement : Statement} {defined : Definition}
    (apart : ¬ table.Reachable tokens defined.key) :
    statement.definition (table.define defined) tokens = statement.definition table tokens := by
  rw [Statement.definition, Statement.definition, evaluate_define apart]

theorem plan_define {input : List Char} {defined : Definition}
    (apart : ¬ table.ReachableFromText input defined.key) :
    (table.define defined).plan input = table.plan input := by
  rw [plan, plan]
  cases prepared : Statement.prepare input with
  | error fault => simp only [Outcome.error_bind]
  | ok parts =>
      obtain ⟨statement, tokens⟩ := parts
      have apart : ¬ table.Reachable tokens defined.key :=
        fun reachable => apart ⟨tokens, by rw [prepared]; rfl, reachable⟩
      simp only [Outcome.ok_bind, definition_define apart]

/-- An assignment does not matter to one whose expression does not reach its key. -/
theorem plan_carryOut {first second : List Char}
    (apart : ¬ table.ReachableFromText second (Key.ofText first)) :
    (table.carryOut (table.plan first)).plan second = table.plan second := by
  cases planned : table.plan first with
  | error fault => rfl
  | ok parts =>
      obtain ⟨tokens, stored⟩ := parts
      cases stored with
      | none => rfl
      | some defined =>
          obtain ⟨-, named, -⟩ := of_plan_some planned
          exact plan_define (named ▸ apart)

theorem carryOut_comm {first second : List Char}
    (different : Key.ofText first ≠ Key.ofText second) :
    (table.carryOut (table.plan first)).carryOut (table.plan second) =
      (table.carryOut (table.plan second)).carryOut (table.plan first) := by
  cases planned : table.plan first with
  | error fault => rfl
  | ok parts =>
      cases planned' : table.plan second with
      | error fault => rfl
      | ok parts' =>
          obtain ⟨tokens, stored⟩ := parts
          obtain ⟨tokens', stored'⟩ := parts'
          cases stored with
          | none => rfl
          | some defined =>
              cases stored' with
              | none => rfl
              | some defined' =>
                  obtain ⟨-, named, -⟩ := of_plan_some planned
                  obtain ⟨-, named', -⟩ := of_plan_some planned'
                  refine define_comm ?_
                  rw [named, named']
                  exact different

/-- Evaluation depends only on what is reachable from the tokens.  Hence two assignments to
different keys, neither of which reaches the key of the other from its expression, have the same
outcomes and leave the same table in either order. -/
theorem evaluate_reachable (table : Table) :
    (∀ (table' : Table) (tokens : List Token),
      (∀ key, table.Reachable tokens key → table.definition? key = table'.definition? key) →
        table.evaluate tokens = table'.evaluate tokens) ∧
      ∀ first second : List Char, Key.ofText first ≠ Key.ofText second →
        ¬ table.ReachableFromText first (Key.ofText second) →
        ¬ table.ReachableFromText second (Key.ofText first) →
          let done := (Update.assign first).perform table
          let done' := (Update.assign second).perform table
          ∃ after, (Update.assign second).perform done.2 = (done'.1, after) ∧
            (Update.assign first).perform done'.2 = (done.1, after) := by
  refine ⟨fun table' tokens agree => AgreeFrom.evaluate_eq agree, ?_⟩
  intro first second different apart apart'
  simp only [Update.perform_assign, plan_carryOut apart, plan_carryOut apart']
  exact ⟨_, rfl, by rw [carryOut_comm different]⟩

/-- Two functions that call each other, a variable that neither of them reaches, and a function that
is defined through them before or after that variable gets a value. -/
theorem evaluate_reachable_cycle :
    let table := ((empty.setFunction "f" ⟨"f(x)=g(x)",
      .formula ⟨["x"], [.functionName "g", .variableName "x"]⟩⟩).setFunction "g" ⟨"g(x)=f(x)",
      .formula ⟨["x"], [.functionName "f", .variableName "x"]⟩⟩).setVariable "b" (.scalar 2)
    let tokens : List Token := [.functionName "f", .variableName "b"]
    let first := "a=b\n".toList
    let second := "h(x)=f(b)\n".toList
    table.evaluate tokens = (table.setVariable "a" (.scalar 3)).evaluate tokens ∧
      ∃ after, (Update.assign second).perform ((Update.assign first).perform table).2 =
          (.ok [.functionName "f", .opening .round, .variableName "b", .closing .round], after) ∧
        (Update.assign first).perform ((Update.assign second).perform table).2 =
          (.ok [.variableName "b"], after) := by
  intro table tokens first second
  let call : List Token := [.functionName "f", .opening .round, .variableName "b", .closing .round]
  have apart (key : Key) (unreached : key.token ≠ .functionName "f" ∧
      key.token ≠ .functionName "g" ∧ key.token ≠ .variableName "x") {tokens : List Token}
      (absent : key.token ∉ tokens) : ¬ table.Reachable tokens key := by
    refine fun reachable => absent (reachable.token_mem fun name entry f found routine => ?_)
    simp only [table, function?_setVariable, function?_setFunction, function?_empty] at found
    split_ifs at found
    · cases found
      cases routine
      simp [unreached]
    · cases found
      cases routine
      simp [unreached]
  have tokenized : (Statement.prepare first).map Prod.snd = .ok [.variableName "b"] := by
    decide +kernel
  have tokenized' : (Statement.prepare second).map Prod.snd = .ok call := by decide +kernel
  have outcome : ((Update.assign first).perform table).1 = .ok [.variableName "b"] := by
    decide +kernel
  have outcome' : ((Update.assign second).perform table).1 = .ok call := by decide +kernel
  constructor
  · refine (evaluate_reachable table).1 _ tokens fun key reachable => ?_
    change _ = (table.define (.value "a" (.scalar 3))).definition? key
    rw [definition?_define, if_neg]
    rintro rfl
    exact apart _ (by decide) (by decide) reachable
  · have commute := (evaluate_reachable table).2 first second (by decide) ?_ ?_
    · simpa only [outcome, outcome'] using commute
    · rintro ⟨found, same, reachable⟩
      cases tokenized.symm.trans same
      exact apart _ (by decide) (by decide) reachable
    · rintro ⟨found, same, reachable⟩
      cases tokenized'.symm.trans same
      exact apart _ (by decide) (by decide) reachable

end Table
end Reckoner
