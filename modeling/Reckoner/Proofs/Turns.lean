import Reckoner.Proofs.Transaction
import Reckoner.Session

/-!
# Turns of a session

A session takes its lines in turns.  A turn that fails shows the last value once more and changes
nothing, so that the lines that fail can be deleted from a session without a trace in the others.
-/

namespace Reckoner

namespace Session

variable {session : Session} {table : Table} {line : List Char}

/-! ## One line -/

/-- The outcome of a line: the value of its expression or of the variable that it assigns, and no
value if it is blank or defines a function. -/
def outcome (table : Table) (line : List Char) : Except Fault (Option Value) :=
  if Text.trim line = [] then .ok none
  else
    match Text.cutAt? '=' line with
    | none => do return some (← table.evaluateText line)
    | some (target, _) => do
        let (tokens, _) ← table.assign (line ++ ['\n'])
        if '(' ∈ target then return none
        return some (← table.evaluate tokens)

theorem perform_expression (unmarked : Text.cutAt? '=' line = none) :
    (perform line).perform table = ((table.evaluateText line).map .value, table) := by
  simp only [perform, unmarked, Update.perform_bind, Update.perform_get, Update.perform_liftM]
  cases table.evaluateText line <;> rfl

theorem perform_assignment {target rest : List Char}
    (cut : Text.cutAt? '=' line = some (target, rest)) :
    (perform line).perform table =
      match (Update.assign (line ++ ['\n'])).perform table with
      | (.ok _, after) => (.ok (stored after target), after)
      | (.error fault, after) => (.error fault, after) := by
  simp only [perform, cut, Update.perform_bind, Update.perform_get, Update.perform_pure]
  obtain ⟨performed, after⟩ := (Update.assign (line ++ ['\n'])).perform table
  cases performed <;> rfl

theorem stored_define {target rest : List Char} {defined : Definition}
    (cut : Text.cutAt? '=' line = some (target, rest))
    (oneLine : '\n' ∉ Statement.targetName target)
    (named : defined.key = Key.ofText (line ++ ['\n'])) :
    stored (table.define defined) target =
      match defined with
      | .value _ value => .value value
      | .function _ entry => .definition entry.description := by
  rw [Key.ofText_line cut oneLine] at named
  by_cases bracket : '(' ∈ target
  · rw [if_pos bracket] at named
    cases defined with
    | value => cases named
    | function name entry =>
        cases named
        simp [stored, Statement.definesFunction, bracket, Table.define]
  · rw [if_neg bracket] at named
    cases defined with
    | value name value =>
        cases named
        simp [stored, Statement.definesFunction, bracket, Table.define]
    | function => cases named

/-- A visible line is performed as its outcome says, and it leaves the table alone if it fails. -/
inductive Performs (table : Table) :
    Except Fault (Option Value) → Except Fault Shown × Table → Prop where
  | failed (fault : Fault) : Performs table (.error fault) (.error fault, table)
  | valued (value : Value) (after : Table) :
      Performs table (.ok (some value)) (.ok (.value value), after)
  | defined (text : String) (after : Table) :
      Performs table (.ok none) (.ok (.definition text), after)

theorem performs_outcome (oneLine : '\n' ∉ line) (visible : Text.trim line ≠ []) :
    Performs table (outcome table line) ((perform line).perform table) := by
  rw [outcome, if_neg visible]
  cases cut : Text.cutAt? '=' line with
  | none =>
      rw [perform_expression cut]
      cases table.evaluateText line with
      | error fault => exact .failed fault
      | ok value => exact .valued value table
  | some parts =>
      obtain ⟨target, rest⟩ := parts
      have assigns := Update.assigns_perform table (line ++ ['\n'])
      rw [perform_assignment cut]
      simp only [Table.assign]
      generalize (Update.assign (line ++ ['\n'])).perform table = result at assigns
      cases assigns with
      | failed fault => exact .failed fault
      | previewed unfinished => exact absurd (by simp) unfinished
      | @committed tokens defined _ named gives =>
          have oneLine : '\n' ∉ Statement.targetName target := by
            obtain ⟨rfl, -⟩ := Text.cutAt?_eq_some_iff.mp cut
            exact fun member => oneLine
              (List.mem_append_left _ (Statement.mem_of_mem_targetName member))
          simp only [stored_define cut oneLine named]
          rw [Key.ofText_line cut oneLine] at named
          cases defined with
          | value name value =>
              have noBracket : '(' ∉ target := by
                intro bracket
                rw [if_pos bracket] at named
                cases named
              have evaluated : table.evaluate tokens = .ok value := gives
              simp only [Outcome.ok_bind, if_neg noBracket, evaluated]
              exact .valued value _
          | function name entry =>
              have bracket : '(' ∈ target := by
                by_contra noBracket
                rw [if_neg noBracket] at named
                cases named
              simp only [Outcome.ok_bind, if_pos bracket]
              exact .defined entry.description _

theorem visible_of_outcome (answers : outcome table line ≠ .ok none) : Text.trim line ≠ [] :=
  fun blank => answers (if_pos blank)

theorem runLine_of_error {fault : Fault} (oneLine : '\n' ∉ line)
    (failed : outcome session.table line = .error fault) :
    session.runLine line =
      (session, session.last?.map fun value => s!"{value.text} (last good result)") := by
  have visible : Text.trim line ≠ [] := visible_of_outcome (failed.trans_ne nofun)
  have performs := @performs_outcome session.table line oneLine visible
  rw [runLine, if_neg visible]
  generalize (perform line).perform session.table = result at performs ⊢
  rw [failed] at performs
  cases performs
  rfl

theorem runLine_of_value {value : Value} (oneLine : '\n' ∉ line)
    (succeeds : outcome session.table line = .ok (some value)) :
    ∃ after, session.runLine line = (⟨after, some value⟩, some value.text) := by
  have visible : Text.trim line ≠ [] := visible_of_outcome (succeeds.trans_ne nofun)
  have performs := @performs_outcome session.table line oneLine visible
  rw [runLine, if_neg visible]
  generalize (perform line).perform session.table = result at performs ⊢
  rw [succeeds] at performs
  cases performs with
  | valued _ after => exact ⟨after, rfl⟩

theorem last?_runLine_of_none (oneLine : '\n' ∉ line)
    (succeeds : outcome session.table line = .ok none) :
    (session.runLine line).1.last? = session.last? := by
  rw [runLine]
  split_ifs with blank
  · rfl
  · have performs := @performs_outcome session.table line oneLine blank
    generalize (perform line).perform session.table = result at performs ⊢
    rw [succeeds] at performs
    cases performs
    rfl

/-! ## Turns -/

/-- A line that was run, with its outcome and what it wrote. -/
structure Turn where
  /-- The line. -/
  line : List Char
  /-- Its outcome. -/
  outcome : Except Fault (Option Value)
  /-- The line of output, if there is one. -/
  output : Option String

namespace Turn

/-- Whether the line failed. -/
def Fails (turn : Turn) : Prop := ∃ fault, turn.outcome = .error fault

/-- The value of the line, if it succeeded with one. -/
def value? (turn : Turn) : Option Value := turn.outcome.toOption.join

end Turn

/-- The turns that lines take in a session. -/
def turns (session : Session) : List (List Char) → List Turn
  | [] => []
  | line :: lines =>
      ⟨line, outcome session.table line, (session.runLine line).2⟩ ::
        (session.runLine line).1.turns lines

/-- The value of the latest turn that has one. -/
def lastValue? (turns : List Turn) : Option Value := (turns.filterMap Turn.value?).getLast?

/-- `kept` is left of a list when some of its items, all of them with a property, are deleted. -/
inductive Deletes {α : Type} (deletable : α → Prop) : List α → List α → Prop where
  | nil : Deletes deletable [] []
  | keep {item : α} {items kept : List α} (rest : Deletes deletable items kept) :
      Deletes deletable (item :: items) (item :: kept)
  | delete {item : α} {items kept : List α} (allowed : deletable item)
      (rest : Deletes deletable items kept) : Deletes deletable (item :: items) kept

theorem snd_runLines (session : Session) (lines : List (List Char)) :
    (session.runLines lines).2 = (session.turns lines).filterMap Turn.output := by
  induction lines generalizing session with
  | nil => rfl
  | cons line lines induction =>
      simp only [runLines, turns, List.filterMap_cons, induction]
      cases (session.runLine line).2 <;> rfl

theorem lastValue?_cons (turn : Turn) (turns : List Turn) :
    lastValue? (turn :: turns) = (lastValue? turns).or turn.value? := by
  cases found : turn.value? <;> simp [lastValue?, found, List.getLast?_cons]

/-- The last value of a session is that of the latest line that has one. -/
theorem last?_runLine (oneLine : '\n' ∉ line) :
    (session.runLine line).1.last? =
      (outcome session.table line).toOption.join.or session.last? := by
  rcases result : outcome session.table line with fault | - | value
  · rw [runLine_of_error oneLine result]
    rfl
  · rw [last?_runLine_of_none oneLine result]
    rfl
  · obtain ⟨after, performed⟩ := runLine_of_value oneLine result
    rw [performed]
    rfl

variable {lines : List (List Char)} {turn : Turn}

/-- A turn that fails shows the value of the latest turn before it that has one. -/
theorem output_of_fails {front back : List Turn} (oneLines : ∀ line ∈ lines, '\n' ∉ line)
    (split : session.turns lines = front ++ turn :: back) (fails : turn.Fails) :
    turn.output = ((lastValue? front).or session.last?).map
      fun value => s!"{value.text} (last good result)" := by
  induction front generalizing session lines with
  | nil =>
      cases lines with
      | nil => cases split
      | cons line lines =>
          cases split
          obtain ⟨fault, failed⟩ := fails
          have oneLine := oneLines line List.mem_cons_self
          simp only [runLine_of_error oneLine failed]
          rfl
  | cons first front induction =>
      cases lines with
      | nil => cases split
      | cons line lines =>
          obtain ⟨oneLine, others⟩ := List.forall_mem_cons.mp oneLines
          rw [turns, List.cons_append, List.cons.injEq] at split
          obtain ⟨rfl, split⟩ := split
          rw [induction others split, last?_runLine oneLine, lastValue?_cons, Option.or_assoc]
          rfl

theorem output_of_value {value : Value} (oneLines : ∀ line ∈ lines, '\n' ∉ line)
    (member : turn ∈ session.turns lines) (found : turn.value? = some value) :
    turn.output = some value.text := by
  induction lines generalizing session with
  | nil => cases member
  | cons line lines induction =>
      obtain ⟨oneLine, others⟩ := List.forall_mem_cons.mp oneLines
      rcases List.mem_cons.mp member with rfl | later
      · have succeeds : outcome session.table line = .ok (some value) := by
          rw [← Outcome.toOption_eq_some]
          exact Option.join_eq_some_iff.mp found
        obtain ⟨after, performed⟩ := runLine_of_value oneLine succeeds
        rw [performed]
      · exact induction others later

theorem turns_of_deletes {kept : List Turn} (oneLines : ∀ line ∈ lines, '\n' ∉ line)
    (deletes : Deletes Turn.Fails (session.turns lines) kept) :
    session.turns (kept.map Turn.line) = kept ∧
      (session.runLines (kept.map Turn.line)).1 = (session.runLines lines).1 := by
  induction lines generalizing session kept with
  | nil =>
      cases deletes
      exact ⟨rfl, rfl⟩
  | cons line lines induction =>
      obtain ⟨oneLine, others⟩ := List.forall_mem_cons.mp oneLines
      rw [turns] at deletes
      cases deletes with
      | keep rest =>
          obtain ⟨same, final⟩ := induction others rest
          simp only [List.map_cons, turns, runLines, same, final]
          exact ⟨trivial, trivial⟩
      | delete failed rest =>
          obtain ⟨fault, failed⟩ := failed
          have unchanged : (session.runLine line).1 = session := by
            rw [runLine_of_error oneLine failed]
          rw [unchanged] at rest
          simp only [runLines, unchanged]
          exact induction others rest

/-- In a session over single lines a turn that fails writes the value that the latest turn before it
succeeded with and wrote, if there is one, and nothing otherwise.  Deleting any turns that fail
leaves all others as they are, and the session ends in the same tables with the same last value. -/
theorem runLines_of_failures (lines : List (List Char)) (oneLines : ∀ line ∈ lines, '\n' ∉ line) :
    (initial.runLines lines).2 = (initial.turns lines).filterMap Turn.output ∧
      (∀ turn ∈ initial.turns lines, ∀ value, turn.value? = some value →
        turn.output = some value.text) ∧
      (∀ front turn back, initial.turns lines = front ++ turn :: back → turn.Fails →
        turn.output = (lastValue? front).map fun value => s!"{value.text} (last good result)") ∧
      ∀ kept, Deletes Turn.Fails (initial.turns lines) kept →
        initial.turns (kept.map Turn.line) = kept ∧
          initial.runLines (kept.map Turn.line) =
            ((initial.runLines lines).1, kept.filterMap Turn.output) := by
  refine ⟨snd_runLines _ _, fun _ member _ => output_of_value oneLines member, ?_, ?_⟩
  · intro front turn back split fails
    rw [output_of_fails oneLines split fails, initial, Option.or_none]
  · intro kept deletes
    obtain ⟨same, final⟩ := turns_of_deletes oneLines deletes
    refine ⟨same, Prod.ext final ?_⟩
    rw [snd_runLines, same]

/-- A sum that is not finished, a definition between two values, and the session without the sum. -/
theorem runLines_unfinished_sum :
    let lines := [['2'], ['2', '+'], "f(x)=x".toList, ['f', '('], "v=3".toList, [')']]
    (initial.runLines lines).2 = ["2", "2 (last good result)", "f(x)=x", "2 (last good result)",
        "3", "3 (last good result)"] ∧
      initial.runLines [['2'], "f(x)=x".toList, ['f', '('], "v=3".toList, [')']] =
        ((initial.runLines lines).1,
          ["2", "f(x)=x", "2 (last good result)", "3", "3 (last good result)"]) := by
  intro lines
  have outputs : (initial.runLines lines).2 = ["2", "2 (last good result)", "f(x)=x",
      "2 (last good result)", "3", "3 (last good result)"] := by decide +kernel
  have failed : outcome (initial.runLine ['2']).1.table ['2', '+'] =
      .error (.malformedExpression (.missingOperandAfter .add)) := by decide +kernel
  have deletes : Deletes Turn.Fails (initial.turns lines) _ :=
    .keep (.delete ⟨_, failed⟩ (.keep (.keep (.keep (.keep .nil)))))
  obtain ⟨-, kept⟩ := (runLines_of_failures lines (by decide)).2.2.2 _ deletes
  exact ⟨outputs, kept.trans (Prod.ext rfl (by decide +kernel))⟩

end Session
end Reckoner
