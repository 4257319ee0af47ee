import Reckoner.Proofs.Nesting.Faults
import Reckoner.Proofs.Places.Evaluation
import Reckoner.Proofs.WrittenTokens

/-!
# Faults that never occur

An evaluated group is a list of numbers between separators, and every operator that combines has a
number before it: what checks for something else never finds it.  In tokens that were read from a
text every name of a function stands before a bracket, and evaluation keeps it there.
-/

namespace Reckoner

open Evaluation Outcome

/-! ## Faults of malformed lists and operands -/

/-- The faults of an argument list that is no list of numbers, and of an operator without a first
operand or that takes only one. -/
inductive Fault.Defensive : Fault → Prop where
  | argumentNotNumber (name : String) (position : Nat) (found : Token) :
      Defensive (.invalidCall name (.argumentNotNumber position found))
  | notSeparator (name : String) (found : Token) :
      Defensive (.invalidCall name (.notSeparator found))
  | openArgumentList (name : String) : Defensive (.invalidCall name .openArgumentList)
  | missingOperandBefore (op : Operator) :
      Defensive (.malformedExpression (.missingOperandBefore op))
  | factorialNotBinary : Defensive (.malformedExpression .factorialNotBinary)

namespace Comparison

/-- The comparison of a run with itself, which must not end in a defensive fault. -/
def defended : Comparison :=
  equality (fun fault => ¬fault.Defensive) (fun _ => False)
    (by
      intro fault raised defensive
      cases defensive <;> cases raised)
    (by
      intro left right defensive
      cases defensive)

theorem linked_defended (table : Table) (callsLeft : Nat) (entry : FunctionEntry) :
    defended.Linked table table callsLeft callsLeft entry.routine entry.routine := by
  refine linked_of_invariant (fun _ _ => True) ?_ ?_ ?_ ?_ ?_ trivial
  · intro entry f _ _ name defensive
    cases defensive
  · intros
    trivial
  · intros
    rfl
  · intros
    trivial
  · intros
    rfl

end Comparison

theorem Scope.failsOnly_not_defensive (scope : Scope) (tokens : List Token) :
    FailsOnly (fun fault => ¬fault.Defensive) (scope.evaluate tokens) := by
  have all : Comparison.defended.MatchesAll (Comparison.defended.scopeNames scope scope) tokens
      tokens := by
    refine Comparison.matchesAll_self (fun _ _ => rfl) (fun _ => trivial) (fun _ _ => ?_)
      fun _ _ => ?_
    · exact Comparison.rel_self fun _ _ => rfl
    · exact Comparison.rel_self fun _ _ => Comparison.linked_defended _ _ _
  exact (Comparison.agree_evaluate_scope all).failsOnly

/-! ## Names of functions before brackets -/

namespace CallsBracketed

variable {front back : List Token} {mark : Token}

theorem of_append (calls : CallsBracketed (front ++ back)) : CallsBracketed back := by
  induction front with
  | nil => exact calls
  | cons token front induction => exact induction calls.2

/-- What stands before another token than a round bracket does not end with the name of a
function. -/
theorem before (other : mark ≠ .opening .round) (calls : CallsBracketed (front ++ mark :: back)) :
    CallsBracketed front := by
  induction front with
  | nil => trivial
  | cons token front induction =>
      refine ⟨fun function => ?_, induction calls.2⟩
      have bracket := calls.1 function
      cases front with
      | nil => exact absurd (Option.some.inj bracket) other
      | cons next front => exact bracket

theorem of_mem_intercalate (other : mark ≠ .opening .round) {slices : List (List Token)}
    (calls : CallsBracketed ([.separator].intercalate slices ++ mark :: back)) :
    ∀ slice ∈ slices, CallsBracketed slice := by
  induction slices with
  | nil => simp
  | cons first slices induction =>
      cases slices with
      | nil => simpa using calls.before other
      | cons second slices =>
          rw [List.intercalate_cons_cons, List.append_assoc, List.append_assoc,
            List.singleton_append] at calls
          exact List.forall_mem_cons.mpr ⟨calls.before (by simp), induction calls.of_append.2⟩

end CallsBracketed

namespace Evaluation

theorem callsBracketed_of_mem_slices {shape : Bracket} {inner : Option OpenGroup}
    {tokens : List Token} (calls : CallsBracketed (Outline.source shape inner tokens)) :
    ∀ slice ∈ (Outline.remaining shape inner tokens).slices, CallsBracketed slice := by
  induction tokens generalizing inner with
  | nil =>
      cases inner with
      | none => simp [Outline.remaining, Outline.slices]
      | some group =>
          have inside := calls.2
          rw [OpenGroup.close, List.reverse_cons, List.append_nil] at inside
          by_cases none : group.slices.reverse = []
          · simp [Outline.remaining, Outline.slices, none]
          · have last := intercalate_concat_append [.separator] [] group.slice.reverse
              group.slices.reverse
            rw [List.nil_append, intercalate_concat_nil _ none, List.append_assoc] at last
            rw [last] at inside
            exact inside.of_mem_intercalate (by simp)
  | cons token rest induction =>
      cases inner with
      | none =>
          rw [Outline.remaining]
          split_ifs with closing opening
          · simp [Outline.slices]
          · refine induction ?_
            simpa [Outline.source, OpenGroup.close, OpenGroup.fresh, opening] using calls
          · exact induction calls.2
      | some group =>
          rw [Outline.remaining]
          split_ifs with closing separator
          · rw [Outline.source, closing.1] at calls
            have inside := calls.2
            refine List.forall_mem_append.mpr ⟨?_, induction inside.of_append.2⟩
            exact inside.of_mem_intercalate (by simp)
          · rw [separator.1, ← Outline.source_split] at calls
            exact induction calls
          · rw [← Outline.source_push] at calls
            exact induction calls

theorem callsBracketed_of_fill {evaluate : List Token → Except Fault Value} {called : Bool}
    {outline : Outline} {tokens built : List Token}
    (divides : Outline.Divides .square outline tokens) (calls : CallsBracketed tokens)
    (filled : outline.fill .square evaluate (fun _ => joinArray evaluate) called = .ok built) :
    CallsBracketed built ∧
      (tokens.head? = some (.opening .round) → built.head? = some (.opening .round)) := by
  induction divides generalizing called built with
  | done =>
      cases filled
      exact ⟨trivial, id⟩
  | plain _ _ _ induction =>
      obtain ⟨others, rest, done⟩ := bind_eq_ok.mp filled
      cases done
      obtain ⟨bracketed, head⟩ := induction calls.2 rest
      exact ⟨⟨fun function => head (calls.1 function), bracketed⟩, id⟩
  | group _ _ induction =>
      obtain ⟨first, joined, filled⟩ := bind_eq_ok.mp filled
      obtain ⟨others, rest, done⟩ := bind_eq_ok.mp filled
      obtain ⟨values, -, single⟩ := bind_eq_ok.mp joined
      cases done
      cases single
      refine ⟨⟨nofun, (induction calls.2.of_append.2 rest).1⟩, ?_⟩
      simp

section Calls

variable {allowed : Fault → Prop} {env : Environment}

theorem failsOnly_applyFrom_fill (calls : ∀ name args, FailsOnly allowed (env.call name args))
    {called : Bool} {outline : Outline} {tokens flat : List Token}
    (divides : Outline.Divides .round outline tokens) (bracketed : CallsBracketed tokens)
    (filled : outline.fill .round (evaluate env) (joinGroup (evaluate env)) called = .ok flat) :
    FailsOnly allowed (applyFrom env.call .outside (substitute env.valueOf? flat)) ∧
      (tokens.head? = some (.opening .round) →
        ∀ name, FailsOnly allowed
          (applyFrom env.call (.named name) (substitute env.valueOf? flat))) := by
  induction divides generalizing called flat with
  | done =>
      cases filled
      exact ⟨.ok _, nofun⟩
  | @plain token tail rest noOpening _ _ induction =>
      obtain ⟨others, filledRest, done⟩ := bind_eq_ok.mp filled
      cases done
      obtain ⟨outside, named⟩ := induction bracketed.2 filledRest
      refine ⟨?_, fun head => absurd (Option.some.inj head) noOpening⟩
      by_cases function : token.isFunctionName = true
      · obtain ⟨name, rfl⟩ := Token.exists_functionName function
        exact named (bracketed.1 function) name
      · rw [Bool.not_eq_true, ← isFunctionName_resolve env.valueOf?] at function
        rw [substitute, List.map_cons, applyFrom_outside_cons _ function]
        exact .bind outside fun _ => .ok _
  | group _ _ induction =>
      obtain ⟨first, joined, filled⟩ := bind_eq_ok.mp filled
      obtain ⟨others, filledRest, done⟩ := bind_eq_ok.mp filled
      cases done
      obtain ⟨values, rfl⟩ : ∃ values, first = groupTokens values := by
        rw [joinGroup] at joined
        split_ifs at joined
        · cases joined
          exact ⟨[], rfl⟩
        · obtain ⟨values, -, done⟩ := bind_eq_ok.mp joined
          cases done
          exact ⟨values, rfl⟩
      have outside := (induction bracketed.2.of_append.2 filledRest).1
      rw [substitute_groupTokens]
      refine ⟨?_, fun _ name => ?_⟩
      · rw [applyFrom_outside_groupTokens]
        exact .bind outside fun _ => .ok _
      · rw [applyFrom_named_groupTokens]
        exact .bind (calls _ _) fun _ => .bind outside fun _ => .ok _

/-- Filling in an outline fails for its brackets or for its slices. -/
theorem failsOnly_fill {shape : Bracket} {evaluate : List Token → Except Fault Value}
    {join : Bool → List (List Token) → Except Fault (List Token)} {outline : Outline}
    (grouping : ∀ cause, allowed (.unbalancedGrouping cause))
    (slices : ∀ slice ∈ outline.slices, FailsOnly allowed (evaluate slice))
    (joins : ∀ called slices, (∀ slice ∈ slices, FailsOnly allowed (evaluate slice)) →
      FailsOnly allowed (join called slices)) (called : Bool) :
    FailsOnly allowed (outline.fill shape evaluate join called) := by
  induction outline generalizing called with
  | done => exact .ok _
  | plain token tail induction => exact (induction slices _).bind fun _ => .ok _
  | group parts tail induction =>
      obtain ⟨first, others⟩ := List.forall_mem_append.mp slices
      exact (joins called parts first).bind fun _ => (induction others false).bind fun _ => .ok _
  | stray => exact .error (grouping _)
  | unfinished parts => exact (FailsOnly.mapM slices).bind fun _ => .error (grouping _)

/-- If all names of functions stand before brackets, evaluation fails for its calls, its brackets,
the form of the expression or the lengths of values. -/
theorem failsOnly_evaluate_of_callsBracketed
    (grouping : ∀ cause, allowed (.unbalancedGrouping cause))
    (expressions : ∀ cause, allowed (.malformedExpression cause))
    (shapes : ∀ left right, allowed (.shapeMismatch left right))
    (calls : ∀ name args, FailsOnly allowed (env.call name args)) {tokens : List Token}
    (bracketed : CallsBracketed tokens) : FailsOnly allowed (evaluate env tokens) := by
  induction length : tokens.length using Nat.strongRecOn generalizing tokens with
  | ind length induction =>
      subst length
      have inside : ∀ shape (others : List Token), others.length ≤ tokens.length →
          CallsBracketed others → ∀ slice ∈ (Outline.ofTokens shape others).slices,
            FailsOnly allowed (evaluate env slice) := by
        intro shape others fits callsOthers slice member
        have short := Outline.length_of_mem_slices shape member
        exact induction slice.length (by omega)
          (@callsBracketed_of_mem_slices shape none others callsOthers slice member) rfl
      by_cases filled : tokens = []
      · rw [filled, evaluate_nil]
        exact .error (expressions _)
      · rw [evaluate_eq env filled]
        refine (failsOnly_fill grouping (inside .square tokens (Nat.le_refl _) bracketed) ?_
          false).bind_of_ok fun built builds => ?_
        · exact fun _ slices parts => (FailsOnly.mapM parts).bind fun _ => .ok _
        · have bracketedBuilt :=
            (callsBracketed_of_fill (Outline.divides_of_fill builds) bracketed builds).1
          refine (failsOnly_fill grouping (inside .round built (length_buildArrays_le builds)
            bracketedBuilt) ?_ false).bind_of_ok fun flat flattens => ?_
          · intro called slices parts
            rw [joinGroup]
            split_ifs
            · exact .ok _
            · exact (FailsOnly.mapM parts).bind fun _ => .ok _
          · exact (failsOnly_applyFrom_fill calls (Outline.divides_of_fill flattens)
              bracketedBuilt flattens).1.bind fun _ => failsOnly_calculate expressions shapes _

end Calls

end Evaluation

/-! ## Sequences that were read -/

/-- The faults of the name of a function that stands before something other than arguments. -/
inductive Fault.Argumentless : Fault → Prop where
  | missingArguments (name : String) : Argumentless (.invalidCall name .missingArguments)
  | notArguments (name : String) (found : Token) :
      Argumentless (.invalidCall name (.notArguments found))

/-- The body of every formula in a table was read from a text. -/
def Table.ReadBodies (table : Table) : Prop :=
  ∀ name entry f, table.function? name = some entry → entry.routine = .formula f →
    ∃ text, Lexer.tokenize text = .ok f.body

theorem Builtin.not_argumentless_of_call {f : Builtin} {name : String} {args : List Value}
    {fault : Fault} (failed : f.call name args = .error fault) : ¬fault.Argumentless := by
  intro argumentless
  obtain ⟨got, rfl⟩ | ⟨left, right, rfl⟩ := call_eq_error failed
  · rw [arityFault] at argumentless
    split_ifs at argumentless <;> cases argumentless
  · cases argumentless

namespace Scope

variable {scope : Scope}

theorem failsOnly_not_argumentless {env : Environment} {tokens : List Token}
    (calls : ∀ name args, FailsOnly (fun fault => ¬fault.Argumentless) (env.call name args))
    (read : ∃ text, Lexer.tokenize text = .ok tokens) :
    FailsOnly (fun fault => ¬fault.Argumentless) (Reckoner.evaluate env tokens) := by
  obtain ⟨text, tokenized⟩ := read
  exact failsOnly_evaluate_of_callsBracketed (fun _ => nofun) (fun _ => nofun) (fun _ _ => nofun)
    calls (Lexer.callsBracketed_of_tokenize tokenized)

theorem failsOnly_call_not_argumentless (bodies : scope.table.ReadBodies) (name : String)
    (args : List Value) :
    FailsOnly (fun fault => ¬fault.Argumentless) (scope.environment.call name args) := by
  refine @environment_call_induction (fun _ => FailsOnly _) scope ?_ (fun _ _ => .error nofun)
    (fun _ _ _ => .error nofun) (fun _ _ => .error nofun) ?_ name args
  · exact fun _ _ _ _ => Builtin.not_argumentless_of_call
  · intro name entry f args callEntry found routine calls
    exact failsOnly_not_argumentless calls (bodies name entry f found routine)

/-- No evaluation looks up a token, an argument or an entry out of range, finds anything else than
numbers and separators in an argument list, or misses the number before an operator that takes two.
If the tokens and all bodies were read from texts, it also finds arguments behind every name of a
function. -/
theorem evaluate_defended (scope : Scope) (tokens : List Token) :
    (∀ outside, scope.evaluateAt outside tokens = scope.evaluate tokens ∧
        ∀ f lhs rhs, Value.broadcastAt outside f lhs rhs = Value.broadcast f lhs rhs) ∧
      (∀ fault, scope.evaluate tokens = .error fault → ¬fault.Defensive) ∧
      ((∃ text, Lexer.tokenize text = .ok tokens) → scope.table.ReadBodies →
        ∀ fault, scope.evaluate tokens = .error fault → ¬fault.Argumentless) := by
  refine ⟨fun outside => ⟨?_, ?_⟩, ?_, ?_⟩
  · exact evaluateAt_eq_evaluate outside scope tokens
  · exact Value.broadcastAt_eq outside
  · exact scope.failsOnly_not_defensive tokens
  · intro read bodies
    exact failsOnly_not_argumentless (failsOnly_call_not_argumentless bodies) read

/-- A read call of a read body that calls an unknown function, and a name of a function that was
read without the bracket behind it. -/
theorem evaluate_defended_unknown :
    let body : List Token :=
      [.functionName "g", .opening .round, .variableName "x", .separator, .number (.scalar 1),
        .closing .round]
    let scope := ofTable (Table.empty.setFunction "f" ⟨"f(x)=g(x,1)", .formula ⟨["x"], body⟩⟩)
    let call : List Token :=
      [.functionName "f", .opening .round, .number (.scalar 2), .closing .round]
    (∃ text, Lexer.tokenize text = .ok call) ∧ scope.table.ReadBodies ∧
      scope.evaluate call = .error (.invalidCall "g" .unknown) ∧
      ¬Fault.Argumentless (.invalidCall "g" .unknown) ∧
      ¬Fault.Defensive (.invalidCall "g" .unknown) ∧
      (∀ outside, scope.evaluateAt outside call = .error (.invalidCall "g" .unknown)) ∧
      scope.evaluate [.functionName "f"] = .error (.invalidCall "f" .missingArguments) := by
  intro body scope call
  have read : ∃ text, Lexer.tokenize text = .ok call := ⟨"f(2)".toList, by decide +kernel⟩
  have bodies : scope.table.ReadBodies := by
    intro name entry f found routine
    simp only [scope, ofTable, Table.function?_setFunction, Table.function?_empty] at found
    split_ifs at found
    cases found
    cases routine
    exact ⟨"g(x, 1)".toList, by decide +kernel⟩
  have failed : scope.evaluate call = .error (.invalidCall "g" .unknown) := rfl
  obtain ⟨inside, defended, argued⟩ := evaluate_defended scope call
  exact ⟨read, bodies, failed, argued read bodies _ failed, defended _ failed,
    fun outside => (inside outside).1.trans failed, rfl⟩

end Scope
end Reckoner
