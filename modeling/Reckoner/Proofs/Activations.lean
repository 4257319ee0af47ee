import Mathlib.Data.List.Chain
import Reckoner.Evaluation.Slices
import Reckoner.Proofs.Application
import Reckoner.Proofs.Scope

/-!
# Nested evaluations

Evaluating a token sequence evaluates the slices of its brackets and the bodies of the formulas that
it calls, and these evaluate sequences in their turn.  A slice is shorter than its sequence and a
body is evaluated one call deeper, so that the number of evaluations nested in each other is bounded
even where definitions are cyclic.
-/

namespace Reckoner

open Evaluation

/-- One evaluation within a run. -/
structure Activation where
  /-- The scope in which it looks up names. -/
  scope : Scope
  /-- The token sequence that it evaluates. -/
  tokens : List Token

namespace Activation

/-- The evaluations that an evaluation may start itself. -/
inductive Starts : Activation → Activation → Prop where
  /-- A slice of a square bracket. -/
  | entry {scope : Scope} {tokens slice : List Token}
      (occurs : slice ∈ (Outline.ofTokens .square tokens).slices) :
      Starts ⟨scope, tokens⟩ ⟨scope, slice⟩
  /-- A slice of a round bracket, when the square ones have their values. -/
  | group {scope : Scope} {tokens built slice : List Token}
      (builds : buildArrays scope.evaluate tokens = .ok built)
      (occurs : slice ∈ (Outline.ofTokens .round built).slices) :
      Starts ⟨scope, tokens⟩ ⟨scope, slice⟩
  /-- The body of a formula, when all brackets have their values. -/
  | body {scope : Scope} {tokens built flat : List Token} {name : String} {args : List Value}
      {entry : FunctionEntry} {f : Formula}
      (builds : buildArrays scope.evaluate tokens = .ok built)
      (flattens : flattenGroups scope.evaluate built = .ok flat)
      (occurs : .functionName name ∈ flat) (found : scope.table.function? name = some entry)
      (routine : entry.routine = .formula f) (arity : f.parameters.length = args.length)
      (shallow : scope.depth < Scope.depthLimit) :
      Starts ⟨scope, tokens⟩ ⟨scope.bind (f.parameters.zip args), f.body⟩

end Activation

/-- No body of a formula in the table has more than `longest` tokens. -/
def Table.BodiesWithin (table : Table) (longest : Nat) : Prop :=
  ∀ name entry f, table.function? name = some entry → entry.routine = .formula f →
    f.body.length ≤ longest

namespace Activation

/-- How many evaluations can be nested in an evaluation, itself included: one for each length of a
sequence down to none, at each depth down to the limit. -/
def bound (longest : Nat) (activation : Activation) : Nat :=
  activation.tokens.length + 1 + (Scope.depthLimit - activation.scope.depth) * (longest + 1)

variable {outer inner : Activation} {longest : Nat}

theorem Starts.table_eq (starts : outer.Starts inner) : inner.scope.table = outer.scope.table := by
  cases starts <;> rfl

/-- An evaluation has a smaller bound than the one that starts it. -/
theorem Starts.bound_lt (starts : outer.Starts inner)
    (bodies : outer.scope.table.BodiesWithin longest) :
    inner.bound longest < outer.bound longest := by
  cases starts with
  | entry occurs =>
      have shorter := Outline.length_of_mem_slices .square occurs
      simp only [bound]
      omega
  | group builds occurs =>
      have shorter := Outline.length_of_mem_slices .round occurs
      have built := length_buildArrays_le builds
      simp only [bound]
      omega
  | @body scope _ _ _ _ _ _ _ _ _ _ found routine _ shallow =>
      -- A body may be longer than the tokens that call it; the greater depth makes up for that.
      have short := bodies _ _ _ found routine
      have deeper : Scope.depthLimit - scope.depth =
          Scope.depthLimit - (scope.depth + 1) + 1 := by omega
      simp only [bound, Scope.bind, deeper, Nat.add_mul]
      omega

/-- Evaluations that are nested in each other are no more than the bound of the outermost. -/
theorem length_le_bound {nested : List Activation} (chain : (outer :: nested).IsChain Starts)
    (bodies : outer.scope.table.BodiesWithin longest) :
    (outer :: nested).length ≤ outer.bound longest := by
  induction nested generalizing outer with
  | nil =>
      rw [List.length_singleton, bound]
      omega
  | cons inner nested induction =>
      obtain ⟨starts, rest⟩ := List.isChain_cons_cons.mp chain
      have smaller := starts.bound_lt bodies
      have within := induction rest (starts.table_eq ▸ bodies)
      rw [List.length_cons]
      omega

end Activation

namespace Scope

variable {scope : Scope} {tokens : List Token} {fuel longest : Nat}

/-- Call a function under a name, where `evaluate` evaluates the bodies of formulas. -/
def callThrough (evaluate : Scope → List Token → Except Fault Value) (scope : Scope)
    (entry : FunctionEntry) (name : String) (args : List Value) : Except Fault Value :=
  match entry.routine with
  | .builtin f => f.call name args
  | .formula f =>
      if f.parameters.length = args.length then
        if scope.depth < depthLimit then evaluate (scope.bind (f.parameters.zip args)) f.body
        else .error (.invalidCall name .tooDeep)
      else .error (.invalidCall name (.arity f.parameters.length args.length))

/-- Evaluate a token sequence with at most `fuel` evaluations nested in each other, the outermost
included.  One more of them ends in the fault `exhausted`. -/
def evaluateNested (exhausted : Fault) : Nat → Scope → List Token → Except Fault Value
  | 0, _, _ => .error exhausted
  | _ + 1, _, [] => .error (.malformedExpression .empty)
  | fuel + 1, scope, tokens => do
      let built ← buildArrays (evaluateNested exhausted fuel scope) tokens
      let flat ← flattenGroups (evaluateNested exhausted fuel scope) built
      reduce (scope.environmentWith (callThrough (evaluateNested exhausted fuel) scope)) flat

/-- A call depends on the evaluation of one body only, if it comes to that. -/
theorem callThrough_congr {evaluate other : Scope → List Token → Except Fault Value}
    {entry : FunctionEntry} {args : List Value} (name : String)
    (agree : ∀ f, entry.routine = .formula f → f.parameters.length = args.length →
      scope.depth < depthLimit →
        evaluate (scope.bind (f.parameters.zip args)) f.body =
          other (scope.bind (f.parameters.zip args)) f.body) :
    callThrough evaluate scope entry name args = callThrough other scope entry name args := by
  simp only [callThrough]
  cases routine : entry.routine with
  | builtin f => rfl
  | formula f =>
      dsimp only
      split_ifs with arity shallow
      · exact agree f routine arity shallow
      · rfl
      · rfl

theorem call_eq_callThrough (scope : Scope) : scope.call = callThrough evaluate scope := by
  funext entry name args
  obtain ⟨description, routine⟩ := entry
  cases routine with
  | builtin f => exact scope.call_builtin description f name args
  | formula f =>
      simp only [callThrough]
      split_ifs with arity shallow
      · exact scope.call_formula description f name args arity shallow
      · have none : scope.callsLeft = 0 := Nat.sub_eq_zero_of_le (Nat.le_of_not_lt shallow)
        rw [call, none, callWithin_zero rfl, if_pos arity]
      · rw [call]
        cases scope.callsLeft with
        | zero => rw [callWithin_zero rfl, if_neg arity]
        | succ callsLeft => rw [callWithin_succ rfl, if_neg arity]

/-- Evaluation in a scope as one recursion over slices and bodies. -/
theorem evaluate_eq_callThrough (scope : Scope) (filled : tokens ≠ []) :
    scope.evaluate tokens = (do
      let built ← buildArrays scope.evaluate tokens
      let flat ← flattenGroups scope.evaluate built
      reduce (scope.environmentWith (callThrough evaluate scope)) flat) := by
  rw [← call_eq_callThrough]
  exact evaluate_eq scope.environment filled

/-- If no chain of evaluations is longer than the fuel, the fuel does not matter. -/
theorem evaluateNested_eq (exhausted : Fault)
    (enough : ∀ nested : List Activation, (⟨scope, tokens⟩ :: nested).IsChain Activation.Starts →
      nested.length < fuel) :
    evaluateNested exhausted fuel scope tokens = scope.evaluate tokens := by
  induction fuel generalizing scope tokens with
  | zero => exact absurd (enough [] (.singleton _)) (Nat.not_lt_zero _)
  | succ fuel induction =>
      by_cases filled : tokens = []
      · subst filled
        rw [evaluateNested, Scope.evaluate, evaluate_nil]
      · -- What is started has chains that are shorter by one, so one less of fuel is enough for it.
        have started : ∀ inner : Activation, Activation.Starts ⟨scope, tokens⟩ inner →
            evaluateNested exhausted fuel inner.scope inner.tokens =
              inner.scope.evaluate inner.tokens := by
          refine fun inner starts => induction fun nested chain => ?_
          exact Nat.lt_of_succ_lt_succ (enough (inner :: nested) (.cons_cons starts chain))
        have arrays : buildArrays (evaluateNested exhausted fuel scope) tokens =
            buildArrays scope.evaluate tokens :=
          buildArrays_congr_of_mem fun slice occurs => started ⟨scope, slice⟩ (.entry occurs)
        rw [evaluateNested, evaluate_eq_callThrough scope filled, arrays]
        swap
        · exact filled
        refine Outcome.bind_congr fun built builds => ?_
        have groups : flattenGroups (evaluateNested exhausted fuel scope) built =
            flattenGroups scope.evaluate built :=
          flattenGroups_congr_of_mem fun slice occurs =>
            started ⟨scope, slice⟩ (.group builds occurs)
        rw [groups]
        refine Outcome.bind_congr fun flat flattens => ?_
        refine reduce_congr rfl fun name occurs => ?_
        funext args
        simp only [environmentWith]
        cases found : scope.table.function? name with
        | none => rfl
        | some entry =>
            exact callThrough_congr name fun f routine arity shallow =>
              started _ (.body builds flattens occurs found routine arity shallow)

/-- Nesting exceeds the fuel: the evaluation ends in whatever fault marks that. -/
def RunsOut (fuel : Nat) (scope : Scope) (tokens : List Token) : Prop :=
  ∀ exhausted, evaluateNested exhausted fuel scope tokens = .error exhausted

/-- However the definitions in a table call each other, evaluations are nested no deeper than a
bound from the length of the tokens, the depth of the scope and the longest body.  With that much
fuel an evaluation does not run out and has the outcome that it has without a bound. -/
theorem evaluateNested_bound (scope : Scope) (tokens : List Token)
    (bodies : scope.table.BodiesWithin longest) :
    let bound := tokens.length + 1 + (64 - scope.depth) * (longest + 1)
    (∀ nested : List Activation, (⟨scope, tokens⟩ :: nested).IsChain Activation.Starts →
        (⟨scope, tokens⟩ :: nested : List Activation).length ≤ bound) ∧
      ∀ fuel, bound ≤ fuel → ¬RunsOut fuel scope tokens ∧
        ∀ exhausted, evaluateNested exhausted fuel scope tokens = scope.evaluate tokens := by
  intro bound
  have short : ∀ nested : List Activation, (⟨scope, tokens⟩ :: nested).IsChain Activation.Starts →
      (⟨scope, tokens⟩ :: nested : List Activation).length ≤ bound :=
    fun nested chain => Activation.length_le_bound chain bodies
  refine ⟨short, fun fuel enough => ?_⟩
  have same : ∀ exhausted,
      evaluateNested exhausted fuel scope tokens = scope.evaluate tokens :=
    fun exhausted => evaluateNested_eq exhausted fun nested chain =>
      Nat.lt_of_lt_of_le (short nested chain) enough
  refine ⟨fun exhausts => ?_, same⟩
  -- The outcome does not depend on the fault that marks exhaustion, so it cannot be every fault.
  have first := (same (.malformedExpression .empty)).symm.trans (exhausts _)
  have second := (same (.unbalancedGrouping .openParameterList)).symm.trans (exhausts _)
  cases first.symm.trans second

/-- A function that calls itself two calls below the limit. -/
theorem evaluateNested_bound_loop :
    let table := Table.empty.setFunction "f"
      ⟨"f(x)=f(x)", .formula ⟨["x"], [.functionName "f", .variableName "x"]⟩⟩
    let tokens : List Token := [.functionName "f", .number (.scalar 1)]
    table.BodiesWithin 2 ∧ RunsOut 2 ⟨table, [], 62⟩ tokens ∧ ¬RunsOut 9 ⟨table, [], 62⟩ tokens ∧
      (∀ exhausted, evaluateNested exhausted 9 ⟨table, [], 62⟩ tokens =
        evaluate ⟨table, [], 62⟩ tokens) ∧
      evaluate ⟨table, [], 62⟩ tokens = .error (.invalidCall "f" .tooDeep) := by
  intro table tokens
  have bodies : table.BodiesWithin 2 := by
    intro name entry f found routine
    simp only [table, Table.function?_setFunction] at found
    split_ifs at found
    · cases found
      cases routine
      exact Nat.le_refl _
    · cases found
  have enough := (evaluateNested_bound ⟨table, [], 62⟩ tokens bodies).2 9 (by decide)
  exact ⟨bodies, fun exhausted => rfl, enough.1, enough.2, rfl⟩

end Scope
end Reckoner
