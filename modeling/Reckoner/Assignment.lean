import Reckoner.Scope
import Reckoner.Text.Split

/-!
# Assignments

A statement `name = expression` gives a variable a value, and `name(a, b) = expression` defines a
function.  A statement is finished once its text contains a newline; before that the tokens of its
expression can be previewed.  A variable is evaluated at once and a formula is kept as it is.

Assignments are updates: they work on a table that keeps what is stored in it even if a later step
fails.  That a failing assignment stores nothing is a consequence of the order of its steps.
-/

namespace Reckoner

/-- Steps on a table that may fail.  What they have stored before they fail stays stored. -/
abbrev Update := ExceptT Fault (StateM Table)

namespace Update

variable {α β : Type} (table : Table)

/-- The outcome of an update and the table it leaves. -/
def perform (update : Update α) (table : Table) : Except Fault α × Table :=
  Id.run (StateT.run (ExceptT.run update) table)

@[simp]
theorem perform_pure (result : α) : perform (pure result) table = (.ok result, table) := rfl

@[simp]
theorem perform_get : perform get table = (.ok table, table) := rfl

@[simp]
theorem perform_modify (change : Table → Table) :
    perform (modify change) table = (.ok (), change table) := rfl

@[simp]
theorem perform_liftM (outcome : Except Fault α) :
    perform (liftM outcome) table = (outcome, table) := rfl

/-- The second step starts from the table that the first one leaves, and a fault of the first one
leaves that table as it is. -/
@[simp]
theorem perform_bind (update : Update α) (next : α → Update β) :
    perform (update >>= next) table =
      match perform update table with
      | (.ok result, after) => perform (next result) after
      | (.error fault, after) => (.error fault, after) := by
  simp only [perform, ExceptT.run_bind, StateT.run_bind, Id.run_bind]
  cases Id.run (StateT.run (ExceptT.run update) table) with
  | mk outcome after => cases outcome <;> rfl

end Update

/-- The text of an assignment, cut at its first `=`. -/
structure Statement where
  /-- The text without newlines and without blank characters at its ends. -/
  line : List Char
  /-- The part before the `=`. -/
  target : List Char
  /-- The part behind the `=`. -/
  expression : List Char

namespace Statement

/-- The name that a target assigns to. -/
def targetName (target : List Char) : List Char := Text.trim (Text.before '(' target)

/-- Whether a target defines a function. -/
def definesFunction (target : List Char) : Bool := target.contains '('

/-- Read the text of an assignment. -/
def read (input : List Char) : Except Fault Statement :=
  let line := Text.trim (input.filter (· != '\n'))
  match Text.cutAt? '=' line with
  | none => .error (.malformedExpression .notAssignment)
  | some (target, expression) =>
      if targetName target = [] then .error (.malformedExpression .missingName)
      else .ok ⟨line, target, expression⟩

/-- The name that a statement assigns to. -/
def name (statement : Statement) : String := String.ofList (targetName statement.target)

/-- The parameters in a target, or nothing if it has no parameter list. -/
def parameters? (target : List Char) : Except Fault (Option (List String)) :=
  match Text.cutAt? '(' target with
  | none => .ok none
  | some (_, inner) =>
      match Text.cutAt? ')' inner with
      | none => .error (.unbalancedGrouping .openParameterList)
      | some (list, _) =>
          .ok (some (((Text.pieces ',' list).map Text.trim |>.filter (· != [])).map String.ofList))

/-- Store what a statement assigns, given the tokens of its expression. -/
def commit (statement : Statement) (tokens : List Token) : Update Unit := do
  match ← parameters? statement.target with
  | some parameters =>
      modify (·.setFunction statement.name
        ⟨String.ofList statement.line, .formula ⟨parameters, tokens⟩⟩)
  | none =>
      let value ← (← get).evaluate tokens
      modify (·.setVariable statement.name value)

end Statement

/-- Perform an assignment if its text is finished.  The result is the tokens of the expression. -/
def Update.assign (input : List Char) : Update (List Token) := do
  let statement ← Statement.read input
  let tokens ← Lexer.tokenize statement.expression
  if input.contains '\n' then statement.commit tokens
  return tokens

namespace Table

/-- Perform an assignment.  The result has the tokens of the expression and the table afterwards. -/
def assign (table : Table) (input : List Char) : Except Fault (List Token × Table) :=
  match (Update.assign input).perform table with
  | (.ok tokens, after) => .ok (tokens, after)
  | (.error fault, _) => .error fault

end Table
end Reckoner
