import Reckoner.Proofs.Comparison.Reduction
import Reckoner.Proofs.Scope

/-!
# Comparing evaluations

Corresponding sequences evaluate alike in environments that call functions alike, and scopes do so
if the formulas in their tables correspond as deep as calls can be nested.
-/

namespace Reckoner
namespace Comparison

open Evaluation Outcome

variable {comparison : Comparison}

theorem agree_evaluateWithin {env env' : Environment} {size : Nat} {tokens tokens' : List Token}
    (all : comparison.MatchesAll (comparison.names env env') tokens tokens') :
    comparison.Agree comparison.related (evaluateWithin env size tokens)
      (evaluateWithin env' size tokens') := by
  induction size generalizing tokens tokens' with
  | zero => cases all <;> exact .error (comparison.raised .empty)
  | succ size induction =>
      cases all with
      | nil => exact .error (comparison.raised .empty)
      | cons head tail =>
          rw [evaluateWithin, evaluateWithin]
          · refine (agree_buildArrays (fun _ _ => induction) (.cons head tail)).bind
              fun _ _ built => ?_
            refine (agree_flattenGroups (fun _ _ => induction) built).bind fun _ _ flat => ?_
            exact agree_reduce flat
          · simp
          · simp

theorem agree_evaluate {env env' : Environment} {tokens tokens' : List Token}
    (all : comparison.MatchesAll (comparison.names env env') tokens tokens') :
    comparison.Agree comparison.related (evaluate env tokens) (evaluate env' tokens') := by
  rw [evaluate, evaluate, all.length_eq]
  exact agree_evaluateWithin all

/-! ## Calls -/

/-- The same built-in function, or formulas with the same parameters and bodies that correspond. -/
inductive MatchesRoutine (bodies : List Token → List Token → Prop) : Routine → Routine → Prop where
  | builtin (f : Builtin) : MatchesRoutine bodies (.builtin f) (.builtin f)
  | formula {parameters : List String} {body body' : List Token} (matching : bodies body body') :
      MatchesRoutine bodies (.formula ⟨parameters, body⟩) (.formula ⟨parameters, body'⟩)

/-- Two routines that are called alike with a number of calls left in either run: what the bodies
call is called alike with one call less.  A formula can only be compared without calls left if the
runs may end there. -/
def Linked (comparison : Comparison) (table table' : Table) : Nat → Nat → Routine → Routine → Prop
  | callsLeft, 0 => MatchesRoutine fun _ _ => ∀ name,
      (callsLeft = 0 ∧ comparison.allowed (.invalidCall name .tooDeep)) ∨
        comparison.refused (.invalidCall name .tooDeep)
  | 0, _ + 1 => MatchesRoutine fun _ _ => False
  | callsLeft + 1, callsLeft' + 1 => MatchesRoutine (comparison.MatchesAll
      { shared := fun name =>
          Option.Rel comparison.related (table.valueOf? name) (table'.valueOf? name)
        callable := fun name =>
          Option.Rel (fun entry entry' => Linked comparison table table' callsLeft callsLeft'
            entry.routine entry'.routine) (table.function? name) (table'.function? name)
        replaced := fun _ _ => False })

/-- What evaluation in two scopes assumes of the names. -/
def scopeNames (comparison : Comparison) (scope scope' : Scope) : Names where
  shared name := Option.Rel comparison.related (scope.valueOf? name) (scope'.valueOf? name)
  callable name :=
    Option.Rel (fun entry entry' => comparison.Linked scope.table scope'.table scope.callsLeft
      scope'.callsLeft entry.routine entry'.routine)
      (scope.table.function? name) (scope'.table.function? name)
  replaced name value' :=
    ∃ value, scope.valueOf? name = some value ∧ comparison.related value value'

theorem rel_or {related : Value → Value → Prop} {left left' right right' : Option Value}
    (first : Option.Rel related left left') (second : Option.Rel related right right') :
    Option.Rel related (left.or right) (left'.or right') := by
  cases first with
  | none => exact second
  | some values => exact .some values

theorem rel_lookup {related : Value → Value → Prop} {args args' : List Value}
    (all : List.Forall₂ related args args') (parameters : List String) (name : String) :
    Option.Rel related ((parameters.zip args).reverse.lookup name)
      ((parameters.zip args').reverse.lookup name) := by
  induction all generalizing parameters with
  | nil =>
      simp only [List.zip_nil_right]
      exact .none
  | @cons arg arg' args args' first _ induction =>
      cases parameters with
      | nil => exact .none
      | cons parameter parameters =>
          simp only [List.zip_cons_cons, List.reverse_cons, List.lookup_append]
          refine rel_or (induction parameters) ?_
          by_cases same : name = parameter
          · simp only [same, List.lookup_cons_self]
            exact .some first
          · simp only [List.lookup_cons, beq_false_of_ne same, List.lookup_nil]
            exact .none

theorem callable_of_rel {scope scope' : Scope}
    {callEntry callEntry' : FunctionEntry → String → List Value → Except Fault Value}
    {holds : FunctionEntry → FunctionEntry → Prop} {name : String}
    (entries : Option.Rel holds (scope.table.function? name) (scope'.table.function? name))
    (calls : ∀ entry entry' args args', holds entry entry' →
      List.Forall₂ comparison.related args args' →
      comparison.Agree comparison.related (callEntry entry name args)
        (callEntry' entry' name args')) :
    (comparison.names (scope.environmentWith callEntry)
      (scope'.environmentWith callEntry')).callable name := by
  intro args args' all
  simp only [Scope.environmentWith]
  generalize scope.table.function? name = found at entries ⊢
  generalize scope'.table.function? name = found' at entries ⊢
  cases entries with
  | none => exact .error (comparison.raised (.unknown name))
  | some linked => exact calls _ _ args args' linked all

theorem agree_arity {parameters : List String} {args args' : List Value} (name : String)
    (all : List.Forall₂ comparison.related args args') {outcome outcome' : Except Fault Value}
    (inside : comparison.Agree comparison.related outcome outcome') :
    comparison.Agree comparison.related
      (if parameters.length = args.length then outcome
        else .error (.invalidCall name (.arity parameters.length args.length)))
      (if parameters.length = args'.length then outcome'
        else .error (.invalidCall name (.arity parameters.length args'.length))) := by
  rw [← all.length_eq]
  split_ifs
  · exact inside
  · exact .error (comparison.raised (.arity name _ _))

/-- To compare two calls is to compare the calls of formulas. -/
theorem agree_routine {callsLeft callsLeft' : Nat} {scope scope' : Scope}
    {entry entry' : FunctionEntry} {name : String} {args args' : List Value}
    {bodies : List Token → List Token → Prop}
    (matching : MatchesRoutine bodies entry.routine entry'.routine)
    (all : List.Forall₂ comparison.related args args')
    (formulas : ∀ parameters body body', entry.routine = .formula ⟨parameters, body⟩ →
      entry'.routine = .formula ⟨parameters, body'⟩ → bodies body body' →
      comparison.Agree comparison.related (Scope.callWithin callsLeft scope entry name args)
        (Scope.callWithin callsLeft' scope' entry' name args')) :
    comparison.Agree comparison.related (Scope.callWithin callsLeft scope entry name args)
      (Scope.callWithin callsLeft' scope' entry' name args') := by
  generalize routine : entry.routine = left at matching
  generalize routine' : entry'.routine = right at matching
  cases matching with
  | builtin f =>
      rw [Scope.callWithin_builtin routine, Scope.callWithin_builtin routine']
      exact comparison.builtin f name all
  | formula bodies => exact formulas _ _ _ routine routine' bodies

theorem agree_callWithin {callsLeft callsLeft' : Nat} {scope scope' : Scope}
    {entry entry' : FunctionEntry} {name : String} {args args' : List Value}
    (linked : comparison.Linked scope.table scope'.table callsLeft callsLeft' entry.routine
      entry'.routine)
    (all : List.Forall₂ comparison.related args args') :
    comparison.Agree comparison.related (Scope.callWithin callsLeft scope entry name args)
      (Scope.callWithin callsLeft' scope' entry' name args') := by
  induction callsLeft generalizing callsLeft' scope scope' entry entry' name args args' with
  | zero =>
      cases callsLeft' with
      | zero =>
          refine agree_routine linked all fun parameters body body' routine routine' exhausted => ?_
          rw [Scope.callWithin_zero routine, Scope.callWithin_zero routine']
          refine agree_arity name all ?_
          rcases exhausted name with ⟨-, allows⟩ | refuses
          · exact .error allows
          · exact .refused refuses
      | succ callsLeft' =>
          exact agree_routine linked all fun _ _ _ _ _ impossible => impossible.elim
  | succ callsLeft induction =>
      cases callsLeft' with
      | zero =>
          refine agree_routine linked all fun parameters body body' routine routine' exhausted => ?_
          rw [Scope.callWithin_succ routine, Scope.callWithin_zero routine']
          refine agree_arity name all ?_
          rcases exhausted name with ⟨impossible, -⟩ | refuses
          · cases impossible
          · exact .refused refuses
      | succ callsLeft' =>
          refine agree_routine linked all fun parameters body body' routine routine' bodies => ?_
          rw [Scope.callWithin_succ routine, Scope.callWithin_succ routine']
          refine agree_arity name all (agree_evaluate ?_)
          refine bodies.imp fun token token' matching => matching.imp ?_ ?_ ?_
          · intro name shared
            exact rel_or (rel_lookup all parameters name) shared
          · intro name entries
            exact callable_of_rel entries fun _ _ _ _ linked all => induction linked all
          · intro name value impossible
            exact impossible.elim

/-! ## Simulations -/

theorem rel_imp {α β : Type} {related weaker : α → β → Prop} {left : Option α} {right : Option β}
    (options : Option.Rel related left right)
    (implies : ∀ item item', related item item' → weaker item item') :
    Option.Rel weaker left right := by
  cases options with
  | none => exact .none
  | some items => exact .some (implies _ _ items)

theorem MatchesRoutine.imp {bodies bodies' : List Token → List Token → Prop}
    {routine routine' : Routine} (matching : MatchesRoutine bodies routine routine')
    (weaker : ∀ body body', bodies body body' → bodies' body body') :
    MatchesRoutine bodies' routine routine' := by
  cases matching with
  | builtin f => exact .builtin f
  | formula matching => exact .formula (weaker _ _ matching)

/-- What two bodies assume of the names in two tables whose functions correspond as given. -/
def tableNames (comparison : Comparison) (table table' : Table)
    (routines : Routine → Routine → Prop) : Names where
  shared name := Option.Rel comparison.related (table.valueOf? name) (table'.valueOf? name)
  callable name := Option.Rel (fun entry entry' => routines entry.routine entry'.routine)
    (table.function? name) (table'.function? name)
  replaced _ _ := False

/-- Routines are linked if they are in a relation that passes on to what their bodies call with one
call less and that the depth limit cannot break. -/
theorem linked_of_simulation {table table' : Table} (simulates : Nat → Routine → Routine → Prop)
    (limit : ∀ routine routine', simulates 0 routine routine' →
      MatchesRoutine (fun _ _ => ∀ name, comparison.allowed (.invalidCall name .tooDeep)) routine
        routine')
    (bodies : ∀ callsLeft routine routine', simulates (callsLeft + 1) routine routine' →
      MatchesRoutine (comparison.MatchesAll
        (comparison.tableNames table table' (simulates callsLeft))) routine routine')
    {callsLeft : Nat} {routine routine' : Routine}
    (related : simulates callsLeft routine routine') :
    comparison.Linked table table' callsLeft callsLeft routine routine' := by
  induction callsLeft generalizing routine routine' with
  | zero =>
      exact (limit _ _ related).imp fun _ _ allows name => .inl ⟨rfl, allows name⟩
  | succ callsLeft induction =>
      refine (bodies _ _ _ related).imp fun body body' all => all.imp fun _ _ tokens => ?_
      refine tokens.imp (fun _ shared => shared) (fun name entries => ?_) fun _ _ none => none
      exact rel_imp entries fun _ _ => induction

/-! ## One table -/

theorem rel_self {α : Type} {related : α → α → Prop} {option : Option α}
    (all : ∀ item, option = some item → related item item) :
    Option.Rel related option option := by
  cases option with
  | none => exact .none
  | some item => exact .some (all item rfl)

theorem matches_self {names : Names} {token : Token}
    (numbers : ∀ value, token = .number value → comparison.related value value)
    (arrays : token = .opening .square → comparison.arrays)
    (shared : ∀ name, token = .variableName name → names.shared name)
    (callable : ∀ name, token = .functionName name → names.callable name) :
    comparison.Matches names token token := by
  cases token with
  | number value => exact .number (numbers value rfl)
  | opening shape => exact .opening fun square => arrays (square ▸ rfl)
  | closing shape => exact .closing shape
  | operator op => exact .operator op
  | separator => exact .separator
  | variableName name => exact .variableName (shared name rfl)
  | functionName name => exact .functionName (callable name rfl)

theorem matchesAll_self {names : Names} {tokens : List Token}
    (numbers : ∀ value, .number value ∈ tokens → comparison.related value value)
    (arrays : .opening .square ∈ tokens → comparison.arrays)
    (shared : ∀ name, .variableName name ∈ tokens → names.shared name)
    (callable : ∀ name, .functionName name ∈ tokens → names.callable name) :
    comparison.MatchesAll names tokens tokens := by
  refine List.forall₂_same.mpr fun token member => matches_self ?_ ?_ ?_ ?_
  · exact fun value same => numbers value (same ▸ member)
  · exact fun same => arrays (same ▸ member)
  · exact fun name same => shared name (same ▸ member)
  · exact fun name same => callable name (same ▸ member)

/-- Entries of one table are linked with themselves if they satisfy an invariant that passes on to
what their bodies call with one call less. -/
theorem linked_of_invariant {table : Table} (invariant : Nat → FunctionEntry → Prop)
    (limit : ∀ entry f, invariant 0 entry → entry.routine = .formula f →
      ∀ name, comparison.allowed (.invalidCall name .tooDeep))
    (calls : ∀ callsLeft entry f name next, invariant (callsLeft + 1) entry →
      entry.routine = .formula f → .functionName name ∈ f.body →
      table.function? name = some next → invariant callsLeft next)
    (numbers : ∀ callsLeft entry f value, invariant (callsLeft + 1) entry →
      entry.routine = .formula f → .number value ∈ f.body → comparison.related value value)
    (arrays : ∀ callsLeft entry f, invariant (callsLeft + 1) entry →
      entry.routine = .formula f → .opening .square ∈ f.body → comparison.arrays)
    (constants : ∀ name value, table.valueOf? name = some value → comparison.related value value)
    {callsLeft : Nat} {entry : FunctionEntry} (holds : invariant callsLeft entry) :
    comparison.Linked table table callsLeft callsLeft entry.routine entry.routine := by
  refine linked_of_simulation (fun callsLeft routine routine' =>
    routine = routine' ∧ ∃ entry, invariant callsLeft entry ∧ entry.routine = routine) ?_ ?_
    ⟨rfl, entry, holds, rfl⟩
  · rintro _ _ ⟨rfl, entry, holds, rfl⟩
    cases routine : entry.routine with
    | builtin f => exact .builtin f
    | formula f => exact .formula (limit entry f holds routine)
  · rintro callsLeft _ _ ⟨rfl, entry, holds, rfl⟩
    cases routine : entry.routine with
    | builtin f => exact .builtin f
    | formula f =>
        refine .formula (matchesAll_self ?_ ?_ ?_ ?_)
        · exact fun value member => numbers callsLeft entry f value holds routine member
        · exact fun member => arrays callsLeft entry f holds routine member
        · exact fun name _ => rel_self (constants name)
        · exact fun name member => rel_self fun next found =>
            ⟨rfl, next, calls callsLeft entry f name next holds routine member found, rfl⟩

theorem agree_evaluate_scope {scope scope' : Scope} {tokens tokens' : List Token}
    (all : comparison.MatchesAll (comparison.scopeNames scope scope') tokens tokens') :
    comparison.Agree comparison.related (scope.evaluate tokens) (scope'.evaluate tokens') := by
  refine agree_evaluate (all.imp fun token token' matching => matching.imp ?_ ?_ ?_)
  · intro name shared
    exact shared
  · intro name entries
    exact callable_of_rel entries fun _ _ _ _ linked all => agree_callWithin linked all
  · intro name value replaced
    exact replaced

end Comparison
end Reckoner
