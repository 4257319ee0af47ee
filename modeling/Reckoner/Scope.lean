import Reckoner.Evaluation.Basic
import Reckoner.Table
import Reckoner.Token.Lexer

/-!
# Scopes

A scope is a symbol table with local variables in front of its own, together with the number of
formula calls it is nested in.  Calling a formula evaluates its body in a new scope over the same
table, in which the parameters are the only locals: the body sees nothing local to its caller.
Formulas cannot be called from a depth of sixty-four on, which ends every runaway recursion.
-/

namespace Reckoner

/-- Names as they are seen inside a number of nested calls. -/
structure Scope where
  /-- The table under the locals. -/
  table : Table
  /-- The local variables; of a name given twice the last one counts. -/
  locals : List (String × Value)
  /-- The number of calls around. -/
  depth : Nat

namespace Scope

/-- A table as the outermost scope. -/
def ofTable (table : Table) : Scope := ⟨table, [], 0⟩

/-- The scope inside a call made from the given one. -/
def bind (scope : Scope) (locals : List (String × Value)) : Scope :=
  ⟨scope.table, locals, scope.depth + 1⟩

/-- The depth from which on formulas cannot be called. -/
def depthLimit : Nat := 64

/-- The value of a variable. -/
def valueOf? (scope : Scope) (name : String) : Option Value :=
  (scope.locals.reverse.lookup name).or (scope.table.valueOf? name)

/-- The environment of a scope when `callEntry` calls its functions. -/
def environmentWith (scope : Scope)
    (callEntry : FunctionEntry → String → List Value → Except Fault Value) : Environment where
  valueOf? := scope.valueOf?
  call name args :=
    match scope.table.function? name with
    | some entry => callEntry entry name args
    | none => .error (.invalidCall name .unknown)

/-- Call a function under a name, with `callsLeft` as the greatest number of nested formula
calls. -/
def callWithin :
    Nat → Scope → FunctionEntry → String → List Value → Except Fault Value
  | callsLeft, scope, entry, name, args =>
      match entry.routine with
      | .builtin f => f.call name args
      | .formula f =>
          if f.parameters.length = args.length then
            match callsLeft with
            | 0 => .error (.invalidCall name .tooDeep)
            | callsLeft + 1 =>
                let inner := scope.bind (f.parameters.zip args)
                Reckoner.evaluate (inner.environmentWith (callWithin callsLeft inner)) f.body
          else .error (.invalidCall name (.arity f.parameters.length args.length))

/-- How many formula calls can be nested inside a scope. -/
def callsLeft (scope : Scope) : Nat := depthLimit - scope.depth

/-- Call a function under a name. -/
def call (scope : Scope) : FunctionEntry → String → List Value → Except Fault Value :=
  callWithin scope.callsLeft scope

/-- What the names in a scope stand for. -/
def environment (scope : Scope) : Environment := scope.environmentWith scope.call

/-- Evaluate a token sequence. -/
def evaluate (scope : Scope) (tokens : List Token) : Except Fault Value :=
  Reckoner.evaluate scope.environment tokens

/-- Evaluate a text. -/
def evaluateText (scope : Scope) (text : List Char) : Except Fault Value := do
  scope.evaluate (← Lexer.tokenize text)

theorem call_builtin (scope : Scope) (description : String) (f : Builtin) (name : String)
    (args : List Value) : scope.call ⟨description, .builtin f⟩ name args = f.call name args := by
  rw [call, callWithin]

/-- A formula with the right number of arguments, called above the depth limit, is evaluated with
its parameters bound. -/
theorem call_formula (scope : Scope) (description : String) (f : Formula) (name : String)
    (args : List Value) (arity : f.parameters.length = args.length)
    (shallow : scope.depth < depthLimit) :
    scope.call ⟨description, .formula f⟩ name args =
      (scope.bind (f.parameters.zip args)).evaluate f.body := by
  have left : scope.callsLeft = (scope.bind (f.parameters.zip args)).callsLeft + 1 := by
    simp only [callsLeft, bind]
    omega
  rw [call, callWithin]
  simp only [arity, ↓reduceIte, left]
  rfl

end Scope

namespace Table

/-- Evaluate a token sequence outside all calls. -/
def evaluate (table : Table) (tokens : List Token) : Except Fault Value :=
  (Scope.ofTable table).evaluate tokens

/-- Evaluate a text outside all calls. -/
def evaluateText (table : Table) (text : List Char) : Except Fault Value :=
  (Scope.ofTable table).evaluateText text

end Table
end Reckoner
