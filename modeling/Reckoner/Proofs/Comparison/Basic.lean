import Reckoner.Proofs.Outcome
import Reckoner.Scope

/-!
# Comparisons of two runs

Two runs of the evaluator are compared through a relation between their values.  What arithmetic
does to related values is assumed of a comparison; that whole evaluations then agree is proved once
for all comparisons.
-/

namespace Reckoner

/-- Two outcomes agree: both are results that are related, or both are the same fault, which is one
of those allowed, or the second was refused. -/
inductive Outcome.Agree {α β : Type} (allowed refused : Fault → Prop) (related : α → β → Prop) :
    Except Fault α → Except Fault β → Prop where
  | ok {left : α} {right : β} (results : related left right) :
      Agree allowed refused related (.ok left) (.ok right)
  | error {fault : Fault} (allows : allowed fault) :
      Agree allowed refused related (.error fault) (.error fault)
  | refused {outcome : Except Fault α} {fault : Fault} (refuses : refused fault) :
      Agree allowed refused related outcome (.error fault)

/-- The faults that evaluation and built-in functions raise by themselves, outside arithmetic and
the depth limit. -/
inductive Fault.Raised : Fault → Prop where
  | grouping (cause : GroupingFault) : Raised (.unbalancedGrouping cause)
  | missingArguments (name : String) : Raised (.invalidCall name .missingArguments)
  | notArguments (name : String) {found : Token} (other : found.isNumber = false) :
      Raised (.invalidCall name (.notArguments found))
  | unknown (name : String) : Raised (.invalidCall name .unknown)
  | arity (name : String) (expected got : Nat) : Raised (.invalidCall name (.arity expected got))
  | arityRange (name : String) (least greatest got : Nat) :
      Raised (.invalidCall name (.arityRange least greatest got))
  | empty : Raised (.malformedExpression .empty)
  | missingOperandAfter (op : Operator) : Raised (.malformedExpression (.missingOperandAfter op))
  | unknownVariable (name : String) : Raised (.malformedExpression (.unknownVariable name))
  | notNumber {found : Token} (other : found.isNumber = false) :
      Raised (.malformedExpression (.notNumber found))
  | leftOver (count : Nat) : Raised (.malformedExpression (.leftOver count))

/-- A relation between the values of two runs that arithmetic keeps. -/
structure Comparison where
  /-- Whether two values correspond. -/
  related : Value → Value → Prop
  /-- The faults in which both runs may end. -/
  allowed : Fault → Prop
  /-- The faults in which the second run may end whatever the first does. -/
  refused : Fault → Prop
  /-- Whether arrays may occur. -/
  arrays : Prop
  apply (op : Operator) (binary : op ≠ .factorial) {lhs lhs' rhs rhs' : Value}
    (left : related lhs lhs') (right : related rhs rhs') :
    Outcome.Agree allowed refused related (Value.apply op lhs rhs) (Value.apply op lhs' rhs')
  factorial {value value' : Value} (argument : related value value') :
    related value.factorial value'.factorial
  neg {value value' : Value} (argument : related value value') : related value.neg value'.neg
  array (occur : arrays) {values values' : List Value} (filled : values ≠ [])
    (entries : List.Forall₂ related values values') :
    related ⟨values.map fun value => value.scalar?.join⟩
      ⟨values'.map fun value => value.scalar?.join⟩
  builtin (f : Builtin) (name : String) {args args' : List Value}
    (arguments : List.Forall₂ related args args') :
    Outcome.Agree allowed refused related (f.call name args) (f.call name args')
  raised {fault : Fault} (raised : fault.Raised) : allowed fault

namespace Outcome.Agree

variable {α β γ δ : Type} {allowed refused : Fault → Prop}

section Bind

variable {related : α → β → Prop} {results : γ → δ → Prop} {left : Except Fault α}
  {right : Except Fault β} {next : α → Except Fault γ} {next' : β → Except Fault δ}

theorem bind_of_ok (first : Agree allowed refused related left right)
    (second : ∀ value value', left = .ok value → related value value' →
      Agree allowed refused results (next value) (next' value')) :
    Agree allowed refused results (left >>= next) (right >>= next') := by
  cases first with
  | ok values => exact second _ _ rfl values
  | error allows => exact .error allows
  | refused refuses => exact .refused refuses

theorem bind (first : Agree allowed refused related left right)
    (second : ∀ value value', related value value' →
      Agree allowed refused results (next value) (next' value')) :
    Agree allowed refused results (left >>= next) (right >>= next') :=
  first.bind_of_ok fun value value' _ => second value value'

end Bind

theorem mapM {related : α → β → Prop} {results : γ → δ → Prop} {items : List α}
    {items' : List β} {step : α → Except Fault γ} {step' : β → Except Fault δ}
    (lists : List.Forall₂ related items items')
    (steps : ∀ item item', related item item' →
      Agree allowed refused results (step item) (step' item')) :
    Agree allowed refused (List.Forall₂ results) (items.mapM step) (items'.mapM step') := by
  induction lists with
  | nil => exact .ok .nil
  | cons item _ induction =>
      rw [List.mapM_cons, List.mapM_cons]
      refine (steps _ _ item).bind fun first first' heads => ?_
      refine induction.bind fun rest rest' tails => ?_
      exact .ok (.cons heads tails)

theorem refl {outcome : Except Fault α} (allows : FailsOnly allowed outcome) :
    Agree allowed refused Eq outcome outcome := by
  cases outcome with
  | ok value => exact .ok rfl
  | error fault => exact .error (allows fault rfl)

theorem of_results {holds : α → Prop} {outcome : Except Fault α}
    (results : ∀ value, outcome = .ok value → holds value) (allows : FailsOnly allowed outcome) :
    Agree allowed refused (fun value value' => holds value ∧ value = value') outcome outcome := by
  cases outcome with
  | ok value => exact .ok ⟨results value rfl, rfl⟩
  | error fault => exact .error (allows fault rfl)

theorem failsOnly {related : α → β → Prop} {left : Except Fault α} {right : Except Fault β}
    (agree : Agree allowed (fun _ => False) related left right) : FailsOnly allowed left := by
  cases agree with
  | ok => exact .ok _
  | error allows => exact .error allows
  | refused impossible => exact impossible.elim

theorem fault_or_related {related : α → β → Prop} {left : Except Fault α} {right : Except Fault β}
    (agree : Agree allowed (fun _ => False) related left right) :
    (∃ fault, left = .error fault ∧ right = .error fault) ∨
      ∃ value value', left = .ok value ∧ right = .ok value' ∧ related value value' := by
  cases agree with
  | ok results => exact .inr ⟨_, _, rfl, rfl, results⟩
  | error => exact .inl ⟨_, rfl, rfl⟩
  | refused impossible => exact impossible.elim

end Outcome.Agree

/-- What two sequences that are compared may assume of the names in them. -/
structure Names where
  /-- A variable that is in both. -/
  shared : String → Prop
  /-- A function name that is in both. -/
  callable : String → Prop
  /-- A variable of the first that is a number in the second. -/
  replaced : String → Value → Prop

namespace Comparison

/-- Two outcomes of a comparison agree. -/
abbrev Agree {α β : Type} (comparison : Comparison) (related : α → β → Prop) :
    Except Fault α → Except Fault β → Prop :=
  Outcome.Agree comparison.allowed comparison.refused related

/-- Two tokens correspond. -/
inductive Matches (comparison : Comparison) (names : Names) : Token → Token → Prop where
  | number {value value' : Value} (values : comparison.related value value') :
      Matches comparison names (.number value) (.number value')
  | opening {shape : Bracket} (occurs : shape = .square → comparison.arrays) :
      Matches comparison names (.opening shape) (.opening shape)
  | closing (shape : Bracket) : Matches comparison names (.closing shape) (.closing shape)
  | operator (op : Operator) : Matches comparison names (.operator op) (.operator op)
  | separator : Matches comparison names .separator .separator
  | variableName {name : String} (holds : names.shared name) :
      Matches comparison names (.variableName name) (.variableName name)
  | functionName {name : String} (holds : names.callable name) :
      Matches comparison names (.functionName name) (.functionName name)
  | replaced {name : String} {value : Value} (holds : names.replaced name value) :
      Matches comparison names (.variableName name) (.number value)

/-- Two token sequences correspond. -/
abbrev MatchesAll (comparison : Comparison) (names : Names) : List Token → List Token → Prop :=
  List.Forall₂ (comparison.Matches names)

/-- Two tokens correspond of which no variable has a value any more. -/
inductive Shares (comparison : Comparison) : Token → Token → Prop where
  | number {value value' : Value} (values : comparison.related value value') :
      Shares comparison (.number value) (.number value')
  | other {token : Token} (other : token.isNumber = false) : Shares comparison token token

/-- What evaluation in two environments assumes of the names. -/
def names (comparison : Comparison) (env env' : Environment) : Names where
  shared name := Option.Rel comparison.related (env.valueOf? name) (env'.valueOf? name)
  callable name := ∀ args args', List.Forall₂ comparison.related args args' →
    comparison.Agree comparison.related (env.call name args) (env'.call name args')
  replaced name value' := ∃ value, env.valueOf? name = some value ∧ comparison.related value value'

variable {comparison : Comparison}

theorem Matches.imp {names names' : Names} {token token' : Token}
    (tokens : comparison.Matches names token token')
    (shared : ∀ name, names.shared name → names'.shared name)
    (callable : ∀ name, names.callable name → names'.callable name)
    (replaced : ∀ name value, names.replaced name value → names'.replaced name value) :
    comparison.Matches names' token token' := by
  cases tokens with
  | number values => exact .number values
  | opening occurs => exact .opening occurs
  | closing shape => exact .closing shape
  | operator op => exact .operator op
  | separator => exact .separator
  | variableName holds => exact .variableName (shared _ holds)
  | functionName holds => exact .functionName (callable _ holds)
  | replaced holds => exact .replaced (replaced _ _ holds)

end Comparison
end Reckoner
