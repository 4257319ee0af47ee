import Reckoner.Proofs.Recorded

/-!
# Lengths of values

However a session goes, no value without entries arises: none is stored, none is a result and none
is passed to a function.  Lengths that do not match are therefore different and greater than one.
-/

namespace Reckoner

open Outcome

theorem Lexer.shapesApart_of_tokenize (text : List Char) :
    FailsOnly Fault.ShapesApart (tokenize text) := by
  intro fault failed
  rw [tokenize_eq_match] at failed
  split at failed
  · cases failed
  · cases failed
    exact trivial

namespace Statement

variable {table : Table}

theorem shapesApart_of_prepare (input : List Char) :
    FailsOnly Fault.ShapesApart (prepare input) := by
  have reading : FailsOnly Fault.ShapesApart (read input) := by
    rw [read]
    split
    · exact .error trivial
    · split_ifs
      · exact .error trivial
      · exact .ok _
  exact reading.bind fun statement =>
    (Lexer.shapesApart_of_tokenize statement.expression).bind fun _ => .ok _

theorem shapesApart_of_definition (filled : table.Filled) (statement : Statement)
    {tokens : List Token} (numbers : NumbersFilled tokens) :
    FailsOnly Fault.ShapesApart (statement.definition table tokens) := by
  have listing : FailsOnly Fault.ShapesApart (parameters? statement.target) := by
    rw [parameters?]
    split
    · exact .ok _
    · split
      · exact .error trivial
      · exact .ok _
  refine listing.bind fun listed => ?_
  cases listed with
  | some parameters => exact .ok _
  | none =>
      exact (Scope.shapesApart_of_evaluate filled (Scope.localsFilled_ofTable table) numbers).bind
        fun _ => .ok _

end Statement

namespace Table

variable {table : Table}

theorem shapesApart_of_evaluateText (filled : table.Filled) (text : List Char) :
    FailsOnly Fault.ShapesApart (table.evaluateText text) :=
  (Lexer.shapesApart_of_tokenize text).bind_of_ok fun _ tokenized =>
    Scope.shapesApart_of_evaluate filled (Scope.localsFilled_ofTable table)
      (Lexer.numbersFilled_of_tokenize tokenized)

theorem shapesApart_of_plan (filled : table.Filled) (input : List Char) :
    FailsOnly Fault.ShapesApart (table.plan input) := by
  refine (Statement.shapesApart_of_prepare input).bind_of_ok fun (statement, tokens) prepared => ?_
  have numbers := Lexer.numbersFilled_of_tokenize (Statement.prepare_eq_ok.mp prepared).2
  dsimp only
  split_ifs
  · exact (Statement.shapesApart_of_definition filled statement numbers).bind fun _ => .ok _
  · exact .ok _

/-- An assignment to a filled table fails for lengths only if they are different and above one. -/
theorem shapesApart_of_assign (filled : table.Filled) (input : List Char) :
    FailsOnly Fault.ShapesApart (table.assign input) := by
  intro fault failed
  rw [assign, Update.perform_assign] at failed
  refine shapesApart_of_plan filled input fault ?_
  cases planned : table.plan input with
  | ok => rw [planned] at failed; cases failed
  | error cause => rw [planned] at failed; cases failed; rfl

end Table

/-- The tokens that a request evaluates, if it comes to that: those of an expression, or those of a
finished assignment to a variable. -/
inductive Request.Evaluates : Request → List Token → Prop where
  | expression {text : List Char} {tokens : List Token}
      (tokenized : Lexer.tokenize text = .ok tokens) : Evaluates (.evaluate text) tokens
  | assignment {text : List Char} {statement : Statement} {tokens : List Token}
      (finished : '\n' ∈ text) (prepared : Statement.prepare text = .ok (statement, tokens))
      (unlisted : Statement.parameters? statement.target = .ok none) :
      Evaluates (.assign text) tokens

theorem Request.Evaluates.numbersFilled {request : Request} {tokens : List Token}
    (evaluates : request.Evaluates tokens) : NumbersFilled tokens := by
  cases evaluates with
  | expression tokenized => exact Lexer.numbersFilled_of_tokenize tokenized
  | assignment _ prepared =>
      exact Lexer.numbersFilled_of_tokenize (Statement.prepare_eq_ok.mp prepared).2

namespace Table

/-- Whatever is asked of the initial or the empty table in whatever order, variables and results
have entries, all arguments that are passed to a function have, and if lengths do not match, then
they are different and greater than one. -/
theorem after_filled {start : Table} (known : start = initial ∨ start = empty)
    (requests : List Request) :
    let table := start.after requests
    (∀ name value, table.valueOf? name = some value → 1 ≤ value.length) ∧
      (∀ text value, table.evaluateText text = .ok value → 1 ≤ value.length) ∧
      (∀ text tokens after, table.assign text = .ok (tokens, after) →
        ∀ value, .number value ∈ tokens → 1 ≤ value.length) ∧
      (∀ (request : Request) (tokens : List Token), request.Evaluates tokens →
        (Scope.ofTable table).CallsOnly (fun args => args.all (1 ≤ ·.length)) tokens) ∧
      ∀ text left right, (table.evaluateText text = .error (.shapeMismatch left right) ∨
          table.assign text = .error (.shapeMismatch left right)) →
        2 ≤ left ∧ 2 ≤ right ∧ left ≠ right := by
  intro table
  have recorded : start.Recorded := by
    rcases known with rfl | rfl
    · exact recorded_initial
    · exact recorded_empty
  have filled : table.Filled := (recorded.after requests).filled
  have locals : (Scope.ofTable table).LocalsFilled := Scope.localsFilled_ofTable table
  refine ⟨filled.values, ?_, ?_, ?_, ?_⟩
  · intro text value evaluated
    obtain ⟨tokens, tokenized, result⟩ := bind_eq_ok.mp evaluated
    exact Scope.filled_of_evaluate filled locals (Lexer.numbersFilled_of_tokenize tokenized) result
  · intro text tokens after assigned
    obtain ⟨_, planned, -⟩ := Update.perform_assign_eq_ok.mp (assign_eq_ok.mp assigned)
    obtain ⟨_, prepared, -⟩ := plan_eq_ok.mp planned
    exact Lexer.numbersFilled_of_tokenize (Statement.prepare_eq_ok.mp prepared).2
  · intro request tokens evaluates
    refine Scope.callsOnly_of_filled filled locals evaluates.numbersFilled fun args arguments => ?_
    exact List.all_eq_true.mpr fun arg member => decide_eq_true (arguments arg member)
  · rintro text left right (failed | failed)
    · exact shapesApart_of_evaluateText filled text _ failed
    · exact shapesApart_of_assign filled text _ failed

/-- A function that adds three entries to its argument, called with two. -/
theorem after_filled_mismatch :
    let table := empty.after
      [.assign "v = [1, 2]\n".toList, .assign "f(x) = x + [1, 2, 3]\n".toList]
    let call := [.functionName "f", .opening .round, .variableName "v", .closing .round]
    table.evaluateText "f(v)".toList = .error (.shapeMismatch 2 3) ∧
      (2 ≤ 2 ∧ 2 ≤ 3 ∧ 2 ≠ 3) ∧
      (Scope.ofTable table).CallsOnly (fun args => args.all (1 ≤ ·.length)) call := by
  intro table call
  obtain ⟨-, -, -, arguments, lengths⟩ := @after_filled empty (.inr rfl)
    [.assign "v = [1, 2]\n".toList, .assign "f(x) = x + [1, 2, 3]\n".toList]
  have failed : table.evaluateText "f(v)".toList = .error (.shapeMismatch 2 3) := by
    decide +kernel
  have tokenized : Lexer.tokenize "f(v)".toList = .ok call := by decide +kernel
  exact ⟨failed, lengths "f(v)".toList 2 3 (.inl failed),
    arguments (.evaluate "f(v)".toList) call (.expression tokenized)⟩

end Table
end Reckoner
