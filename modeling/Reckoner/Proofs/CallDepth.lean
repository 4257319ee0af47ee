import Reckoner.Proofs.Comparison.Equality
import Reckoner.Proofs.Grammar.Descent

/-!
# Call chains and the depth limit

The limit on nested calls is a property of the text alone: an evaluation succeeds only if no chain
of formula names leads beyond the limit, and only such a chain can make it fail there.
-/

namespace Reckoner

/-- A chain of formula names, the first among the tokens and each other one in the body of the one
before it. -/
inductive Table.CallChain (table : Table) : List Token → List String → Prop where
  | nil (tokens : List Token) : CallChain table tokens []
  | cons {tokens : List Token} {name : String} {names : List String} {entry : FunctionEntry}
      {f : Formula} (occurs : .functionName name ∈ tokens)
      (found : table.function? name = some entry) (routine : entry.routine = .formula f)
      (rest : CallChain table f.body names) : CallChain table tokens (name :: names)

namespace Table.CallChain

variable {table : Table} {tokens : List Token} {name : String} {front back : List String}

theorem of_append (chain : CallChain table tokens (front ++ back)) :
    CallChain table tokens front := by
  induction front generalizing tokens with
  | nil => exact .nil tokens
  | cons first front induction =>
      cases chain with
      | cons occurs found routine rest => exact .cons occurs found routine (induction rest)

theorem append {entry : FunctionEntry} {f : Formula}
    (chain : CallChain table tokens (front ++ [name]))
    (found : table.function? name = some entry) (routine : entry.routine = .formula f)
    (rest : CallChain table f.body back) : CallChain table tokens (front ++ name :: back) := by
  induction front generalizing tokens with
  | nil =>
      cases chain with
      | cons occurs => exact .cons occurs found routine rest
  | cons first front induction =>
      cases chain with
      | cons occurs foundFirst routineFirst tail =>
          exact .cons occurs foundFirst routineFirst (induction tail)

/-- A cycle is the start of chains of every length. -/
theorem exists_longer {entry : FunctionEntry} {f : Formula}
    (cycle : CallChain table f.body (front ++ [name]))
    (found : table.function? name = some entry) (routine : entry.routine = .formula f)
    (length : Nat) : ∃ names, CallChain table f.body names ∧ length ≤ names.length := by
  induction length with
  | zero => exact ⟨[], .nil _, Nat.zero_le _⟩
  | succ length induction =>
      obtain ⟨names, chain, long⟩ := induction
      refine ⟨front ++ name :: names, cycle.append found routine chain, ?_⟩
      rw [List.length_append, List.length_cons]
      omega

/-- Where all chains are short enough, none meets a name twice. -/
theorem nodup_of_bounded {bound : Nat} {names : List String}
    (bounded : ∀ others, CallChain table tokens others → others.length ≤ bound)
    (chain : CallChain table tokens names) : names.Nodup := by
  induction chain with
  | nil => exact List.nodup_nil
  | @cons tokens name names entry f occurs found routine rest induction =>
      have shorter : ∀ others, CallChain table f.body others → others.length + 1 ≤ bound :=
        fun others onward => bounded (name :: others) (.cons occurs found routine onward)
      refine List.nodup_cons.mpr ⟨?_, ?_⟩
      · intro again
        obtain ⟨front, back, rfl⟩ := List.append_of_mem again
        -- A name that comes back closes a cycle, which can be followed beyond the bound.
        have cycle : CallChain table f.body (front ++ [name]) := by
          rw [List.append_cons] at rest
          exact rest.of_append
        obtain ⟨others, onward, long⟩ := cycle.exists_longer found routine bound
        have := shorter others onward
        omega
      · exact induction fun others onward => Nat.le_of_succ_le (shorter others onward)

end Table.CallChain

/-- From the formula of an entry no chain leads further than the number of calls left allows. -/
def Table.ChainsFit (table : Table) (callsLeft : Nat) (entry : FunctionEntry) : Prop :=
  ∀ f, entry.routine = .formula f → ∀ names, table.CallChain f.body names →
    names.length < callsLeft

namespace Grammar

theorem called_hereditary (env : Environment) :
    Hereditary env
      (fun _ _ tokens => ∀ name, .functionName name ∈ tokens →
        ∃ args value, env.call name args = .ok value)
      (fun _ tokens => ∀ name, .functionName name ∈ tokens →
        ∃ args value, env.call name args = .ok value) where
  number value := by simp
  variableName _ := by simp
  array _ entries := by simpa using entries
  operand operand := operand
  group _ inner := by simpa using inner
  emptyCall := by
    intro name value called other member
    obtain rfl : other = name := by simpa using member
    exact ⟨[], value, called⟩
  listCall := by
    intro name values value tokens called _ arguments other member
    rcases List.mem_cons.mp member with same | inside
    · cases same
      exact ⟨values, value, called⟩
    · exact arguments other (by simpa using inside)
  bareCall := by
    intro name argument value tokens called operand other member
    rcases List.mem_cons.mp member with same | inside
    · cases same
      exact ⟨[argument], value, called⟩
    · exact operand other inside
  atom atom := atom
  factorial argument := by simpa using argument
  unsigned product := product
  negated product := by simpa using product
  first item := item
  join _ left right _ := by
    intro name member
    rcases List.mem_append.mp member with first | second
    · exact left name first
    · exact right name (by simpa using second)
  last expression := expression
  more expression others := by
    intro name member
    rcases List.mem_append.mp member with first | second
    · exact expression name first
    · exact others name (by simpa using second)

end Grammar

namespace Scope

open Comparison Grammar

variable {scope : Scope} {tokens : List Token}

theorem evaluate_body_of_call {entry : FunctionEntry} {f : Formula} {name : String}
    {args : List Value} {value : Value} (routine : entry.routine = .formula f)
    (called : scope.call entry name args = .ok value) :
    scope.depth < depthLimit ∧
      (scope.bind (f.parameters.zip args)).evaluate f.body = .ok value := by
  have shallow : scope.depth < depthLimit := by
    by_contra deep
    have none : scope.callsLeft = 0 := by
      rw [callsLeft]
      omega
    rw [call, none, callWithin_zero routine] at called
    split_ifs at called
  have arity : f.parameters.length = args.length := by
    by_contra wrong
    have some : scope.callsLeft = scope.callsLeft - 1 + 1 := by
      simp only [callsLeft] at *
      omega
    rw [call, some, callWithin_succ routine, if_neg wrong] at called
    cases called
  obtain ⟨description, _⟩ := entry
  obtain rfl := routine
  rw [call_formula scope description f name args arity shallow] at called
  exact ⟨shallow, called⟩

/-- What is evaluated with success stays within the depth limit. -/
theorem depth_add_length_le {value : Value} (evaluated : scope.evaluate tokens = .ok value)
    {names : List String} (chain : scope.table.CallChain tokens names) (filled : names ≠ []) :
    scope.depth + names.length ≤ depthLimit := by
  induction names generalizing scope tokens value with
  | nil => exact absurd rfl filled
  | cons name names induction =>
      cases chain with
      | @cons _ _ _ entry f occurs found routine rest =>
          have derived := evaluate_eq_ok_iff.mp evaluated
          obtain ⟨args, result, called⟩ := (called_hereditary _).derives derived name occurs
          simp only [environment, environmentWith, found] at called
          obtain ⟨shallow, body⟩ := evaluate_body_of_call routine called
          rw [List.length_cons]
          cases names with
          | nil => exact shallow
          | cons next names =>
              have deeper := induction body rest (by simp)
              simp only [bind, List.length_cons] at deeper ⊢
              omega

/-- The comparison of a run with itself, in which the depth limit must not be met. -/
def withinLimit : Comparison :=
  equality (fun fault => ∀ name, fault ≠ .invalidCall name .tooDeep) (fun _ => False)
    (by
      rintro fault raised name rfl
      cases raised)
    (by simp)

theorem linked_of_chainsFit {table : Table} {callsLeft : Nat} {entry : FunctionEntry}
    (fit : table.ChainsFit callsLeft entry) :
    withinLimit.Linked table table callsLeft callsLeft entry.routine entry.routine := by
  refine linked_of_invariant table.ChainsFit ?_ ?_ ?_ ?_ ?_ fit
  · intro entry f fit routine name
    exact absurd (fit f routine [] (.nil _)) (Nat.not_lt_zero _)
  · intro callsLeft entry f name next fit routine occurs found g nextRoutine names chain
    have longer := fit f routine (name :: names) (.cons occurs found nextRoutine chain)
    exact Nat.lt_of_succ_lt_succ longer
  · intro callsLeft entry f value _ _ _
    rfl
  · intro callsLeft entry f _ _ _
    trivial
  · intro name value _
    rfl

/-- What has no chain beyond the depth limit never meets it. -/
theorem evaluate_ne_tooDeep
    (fits : ∀ names, scope.table.CallChain tokens names → names ≠ [] →
      scope.depth + names.length ≤ depthLimit) (name : String) :
    scope.evaluate tokens ≠ .error (.invalidCall name .tooDeep) := by
  have all : withinLimit.MatchesAll (withinLimit.scopeNames scope scope) tokens tokens := by
    refine matchesAll_self ?_ ?_ ?_ ?_
    · intro value _
      rfl
    · intro _
      trivial
    · intro name _
      exact rel_self fun _ _ => rfl
    · intro name member
      refine rel_self fun entry found => linked_of_chainsFit fun f routine names chain => ?_
      have fit := fits (name :: names) (.cons member found routine chain) (by simp)
      rw [List.length_cons] at fit
      rw [callsLeft]
      omega
  intro failed
  have agree := agree_evaluate_scope all
  rw [failed] at agree
  cases agree with
  | error allows => exact allows name rfl
  | refused impossible => exact impossible

/-- If tokens evaluate, then all their call chains end within the depth limit, and no chain meets a
name twice; and if all call chains end within the limit, then no call is too deep. -/
theorem callChains_within_limit (scope : Scope) (tokens : List Token) :
    (∀ value, scope.evaluate tokens = .ok value →
      ∀ names, scope.table.CallChain tokens names → names ≠ [] →
        scope.depth + names.length ≤ 64 ∧ names.Nodup) ∧
      ((∀ names, scope.table.CallChain tokens names → names ≠ [] →
          scope.depth + names.length ≤ 64) →
        ∀ name, scope.evaluate tokens ≠ .error (.invalidCall name .tooDeep)) := by
  constructor
  · intro value evaluated names chain filled
    have bounded : ∀ others, scope.table.CallChain tokens others →
        others.length ≤ depthLimit := by
      intro others chain
      cases others with
      | nil => exact Nat.zero_le _
      | cons first others =>
          exact Nat.le_of_add_left_le (depth_add_length_le evaluated chain (by simp))
    exact ⟨depth_add_length_le evaluated chain filled,
      Table.CallChain.nodup_of_bounded bounded chain⟩
  · exact evaluate_ne_tooDeep

/-- A function that only calls itself has no value anywhere, and the identity can be called once
more at the last depth above the limit. -/
theorem loop_and_last_call :
    let loop := Table.empty.setFunction "f"
      ⟨"f(x)=f(x)", .formula ⟨["x"], [.functionName "f", .variableName "x"]⟩⟩
    let identity := Table.empty.setFunction "f" ⟨"f(x)=x", .formula ⟨["x"], [.variableName "x"]⟩⟩
    let tokens := [.functionName "f", .number (.scalar 1)]
    (∀ value, Scope.evaluate ⟨loop, [], 0⟩ tokens ≠ .ok value) ∧
      (Scope.evaluate ⟨identity, [], 63⟩ tokens = .ok (.scalar 1) ∧
        ∀ names, identity.CallChain tokens names → names ≠ [] →
          63 + names.length ≤ 64 ∧ names.Nodup) ∧
      ∀ name, Scope.evaluate ⟨identity, [], 63⟩ tokens ≠ .error (.invalidCall name .tooDeep) := by
  intro loop identity tokens
  refine ⟨?_, ?_, ?_⟩
  · intro value evaluated
    have found : loop.function? "f" = some
        ⟨"f(x)=f(x)", .formula ⟨["x"], [.functionName "f", .variableName "x"]⟩⟩ := by
      simp [loop]
    have chain : loop.CallChain tokens ["f", "f"] :=
      .cons List.mem_cons_self found rfl (.cons List.mem_cons_self found rfl (.nil _))
    have once := ((callChains_within_limit _ _).1 value evaluated _ chain (by simp)).2
    simp at once
  · have evaluated : Scope.evaluate ⟨identity, [], 63⟩ tokens = .ok (.scalar 1) := rfl
    exact ⟨evaluated, (callChains_within_limit _ _).1 _ evaluated⟩
  · refine (callChains_within_limit _ _).2 fun names chain filled => ?_
    cases chain with
    | nil => exact absurd rfl filled
    | @cons _ name _ _ f occurs found routine rest =>
        obtain rfl : name = "f" := by simpa [tokens] using occurs
        simp only [identity, Table.function?_setFunction, ↓reduceIte, Option.some.injEq] at found
        subst found
        cases routine
        cases rest with
        | nil => simp
        | cons occurs => simp at occurs

end Scope
end Reckoner
