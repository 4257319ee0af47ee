import Reckoner.Assignment

/-!
# Sessions

A session runs lines one after another on a symbol table.  A line with an `=` is an assignment and
every other line an expression, blank lines are passed over.  A line shows the value it has or the
function it defines, and one that fails shows the last value again.
-/

namespace Reckoner

/-- What the lines run so far leave behind. -/
structure Session where
  /-- The variables and functions. -/
  table : Table
  /-- The last value shown. -/
  last? : Option Value

/-- What a line shows. -/
inductive Shown where
  /-- A value, which becomes the last one. -/
  | value (value : Value)
  /-- A definition or a name. -/
  | definition (text : String)
deriving DecidableEq

namespace Session

/-- The session before the first line. -/
def initial : Session := ⟨.initial, none⟩

/-- What an assignment to a target has left in a table. -/
def stored (table : Table) (target : List Char) : Shown :=
  let name := String.ofList (Statement.targetName target)
  let function? := if Statement.definesFunction target then table.function? name else none
  match function?, table.valueOf? name with
  | some entry, _ => .definition entry.description
  | none, some value => .value value
  | none, none => .definition name

/-- Run a line that is not blank, with what it shows. -/
def perform (line : List Char) : Update Shown :=
  match Text.cutAt? '=' line with
  | some (target, _) => do
      let _ ← Update.assign (line ++ ['\n'])
      return stored (← get) target
  | none => do
      return .value (← (← get).evaluateText line)

/-- Run a line, with the session after it and the line of output if there is one. -/
def runLine (session : Session) (line : List Char) : Session × Option String :=
  if Text.trim line = [] then (session, none)
  else
    match (perform line).perform session.table with
    | (.ok (.value value), table) => (⟨table, some value⟩, some value.text)
    | (.ok (.definition text), table) => (⟨table, session.last?⟩, some text)
    | (.error _, table) =>
        (⟨table, session.last?⟩,
          session.last?.map fun value => s!"{value.text} (last good result)")

/-- Run lines in order, with the lines of output. -/
def runLines (session : Session) : List (List Char) → Session × List String
  | [] => (session, [])
  | line :: lines =>
      let (session, output) := session.runLine line
      let (session, outputs) := session.runLines lines
      (session, output.toList ++ outputs)

end Session
end Reckoner
