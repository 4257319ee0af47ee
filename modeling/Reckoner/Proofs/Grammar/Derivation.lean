import Reckoner.Proofs.Grammar.Phrase

/-!
# Derivations

Token sequences that are phrases with a value, by the rules of the grammar.  What every rule passes
on holds of everything derived.
-/

namespace Reckoner
namespace Grammar

/-- A sequence of tokens is a phrase of a category with a value. -/
def Derives (env : Environment) (category : Category) (value : Value) (tokens : List Token) :
    Prop :=
  ∃ phrase : Phrase category, phrase.tokens = tokens ∧ phrase.value env = some value

/-- A sequence of tokens is a list of expressions with values. -/
def DerivesAll (env : Environment) (values : List Value) (tokens : List Token) : Prop :=
  ∃ phrases : Phrases, phrases.tokens = tokens ∧ phrases.values env = some values

namespace Derives

variable {env : Environment} {value : Value} {tokens : List Token}

theorem number : Derives env .operand value [.number value] :=
  ⟨.number value, rfl, rfl⟩

theorem variableName {name : String} (bound : env.valueOf? name = some value) :
    Derives env .operand value [.variableName name] :=
  ⟨.variableName name, rfl, bound⟩

theorem array {values : List Value} (entries : DerivesAll env values tokens) :
    Derives env .operand ⟨values.map fun value => value.scalar?.join⟩
      (.opening .square :: (tokens ++ [.closing .square])) := by
  obtain ⟨phrases, rfl, valued⟩ := entries
  exact ⟨.array phrases, rfl, Phrase.value_array_eq_some.mpr ⟨values, valued, rfl⟩⟩

theorem operand (operand : Derives env .operand value tokens) : Derives env .atom value tokens := by
  obtain ⟨phrase, rfl, valued⟩ := operand
  exact ⟨.operand phrase, rfl, valued⟩

theorem group (inner : Derives env .sum value tokens) :
    Derives env .atom value (.opening .round :: (tokens ++ [.closing .round])) := by
  obtain ⟨phrase, rfl, valued⟩ := inner
  exact ⟨.group phrase, rfl, valued⟩

theorem emptyCall {name : String} (called : env.call name [] = .ok value) :
    Derives env .atom value [.functionName name, .opening .round, .closing .round] :=
  ⟨.emptyCall name, rfl, Phrase.value_emptyCall_eq_some.mpr called⟩

theorem listCall {name : String} {values : List Value} (called : env.call name values = .ok value)
    (arguments : DerivesAll env values tokens) :
    Derives env .atom value
      (.functionName name :: .opening .round :: (tokens ++ [.closing .round])) := by
  obtain ⟨phrases, rfl, valued⟩ := arguments
  exact ⟨.listCall name phrases, rfl,
    Phrase.value_listCall_eq_some.mpr ⟨values, valued, called⟩⟩

theorem bareCall {name : String} {argument : Value} (called : env.call name [argument] = .ok value)
    (operand : Derives env .operand argument tokens) :
    Derives env .atom value (.functionName name :: tokens) := by
  obtain ⟨phrase, rfl, valued⟩ := operand
  exact ⟨.bareCall name phrase, rfl,
    Phrase.value_bareCall_eq_some.mpr ⟨argument, valued, called⟩⟩

theorem atom (atom : Derives env .atom value tokens) : Derives env .factor value tokens := by
  obtain ⟨phrase, rfl, valued⟩ := atom
  exact ⟨.atom phrase, rfl, valued⟩

theorem factorial (argument : Derives env .factor value tokens) :
    Derives env .factor value.factorial (tokens ++ [.operator .factorial]) := by
  obtain ⟨phrase, rfl, valued⟩ := argument
  exact ⟨.factorial phrase, rfl, Phrase.value_factorial_eq_some.mpr ⟨value, valued, rfl⟩⟩

theorem unsigned (product : Derives env (.chain .product) value tokens) :
    Derives env .signed value tokens := by
  obtain ⟨phrase, rfl, valued⟩ := product
  exact ⟨.unsigned phrase, rfl, valued⟩

theorem negated (product : Derives env (.chain .product) value tokens) :
    Derives env .signed value.neg (.operator .sub :: tokens) := by
  obtain ⟨phrase, rfl, valued⟩ := product
  exact ⟨.negated phrase, rfl, Phrase.value_negated_eq_some.mpr ⟨value, valued, rfl⟩⟩

theorem first {level : Level} (item : Derives env level.item value tokens) :
    Derives env (.chain level) value tokens := by
  obtain ⟨phrase, rfl, valued⟩ := item
  exact ⟨.first level phrase, rfl, valued⟩

theorem join {level : Level} {op : Operator} {lhs rhs : Value} {front : List Token}
    (joins : level.joins op = true) (left : Derives env (.chain level) lhs front)
    (right : Derives env level.item rhs tokens) (applied : Value.apply op lhs rhs = .ok value) :
    Derives env (.chain level) value (front ++ .operator op :: tokens) := by
  obtain ⟨chain, rfl, chainValued⟩ := left
  obtain ⟨item, rfl, itemValued⟩ := right
  exact ⟨.join level chain op joins item, rfl,
    Phrase.value_join_eq_some.mpr ⟨lhs, chainValued, rhs, itemValued, applied⟩⟩

end Derives

namespace DerivesAll

variable {env : Environment} {value : Value} {values : List Value} {tokens rest : List Token}

theorem last (expression : Derives env .sum value tokens) : DerivesAll env [value] tokens := by
  obtain ⟨phrase, rfl, valued⟩ := expression
  exact ⟨.last phrase, rfl, Phrases.values_last_eq_some.mpr ⟨value, valued, rfl⟩⟩

theorem more (expression : Derives env .sum value tokens) (others : DerivesAll env values rest) :
    DerivesAll env (value :: values) (tokens ++ .separator :: rest) := by
  obtain ⟨phrase, rfl, valued⟩ := expression
  obtain ⟨phrases, rfl, allValued⟩ := others
  exact ⟨.more phrase phrases, rfl,
    Phrases.values_more_eq_some.mpr ⟨value, valued, values, allValued, rfl⟩⟩

end DerivesAll

namespace Derives

variable {env : Environment}

section Factors

variable {motive : ∀ value tokens, Derives env .factor value tokens → Prop}
  (atom : ∀ {value tokens} (derived : Derives env .atom value tokens),
    motive value tokens derived.atom)
  (factorial : ∀ {value tokens} (argument : Derives env .factor value tokens),
    motive value tokens argument →
      motive value.factorial (tokens ++ [.operator .factorial]) argument.factorial)
include atom factorial

theorem factor_motive {value : Value} (phrase : Phrase .factor)
    (valued : phrase.value env = some value) :
    motive value phrase.tokens ⟨phrase, rfl, valued⟩ := by
  cases phrase with
  | atom inner => exact atom ⟨inner, rfl, valued⟩
  | factorial argument =>
      obtain ⟨number, numberValued, rfl⟩ := Phrase.value_factorial_eq_some.mp valued
      exact factorial ⟨argument, rfl, numberValued⟩ (factor_motive argument numberValued)

theorem factor_induction {value : Value} {tokens : List Token}
    (derived : Derives env .factor value tokens) : motive value tokens derived := by
  obtain ⟨phrase, rfl, valued⟩ := derived
  exact factor_motive atom factorial phrase valued

end Factors

section Chains

variable {level : Level} {motive : ∀ value tokens, Derives env (.chain level) value tokens → Prop}
  (first : ∀ {value tokens} (item : Derives env level.item value tokens),
    motive value tokens item.first)
  (join : ∀ {op lhs rhs value front tokens} (joins : level.joins op = true)
    (left : Derives env (.chain level) lhs front) (right : Derives env level.item rhs tokens)
    (applied : Value.apply op lhs rhs = .ok value), motive lhs front left →
      motive value (front ++ .operator op :: tokens) (left.join joins right applied))
include first join

theorem chain_motive {value : Value} (phrase : Phrase (.chain level))
    (valued : phrase.value env = some value) :
    motive value phrase.tokens ⟨phrase, rfl, valued⟩ := by
  cases phrase with
  | first _ item => exact first ⟨item, rfl, valued⟩
  | join _ front op joins item =>
      obtain ⟨lhs, left, rhs, right, applied⟩ := Phrase.value_join_eq_some.mp valued
      exact join joins ⟨front, rfl, left⟩ ⟨item, rfl, right⟩ applied (chain_motive front left)

theorem chain_induction {value : Value} {tokens : List Token}
    (derived : Derives env (.chain level) value tokens) : motive value tokens derived := by
  obtain ⟨phrase, rfl, valued⟩ := derived
  exact chain_motive first join phrase valued

end Chains

theorem atom_cases {value : Value} {tokens : List Token}
    (derived : Derives env .atom value tokens) :
    Derives env .operand value tokens ∨
      (∃ inner, Derives env .sum value inner ∧
        tokens = .opening .round :: (inner ++ [.closing .round])) ∨
      (∃ name, env.call name [] = .ok value ∧
        tokens = [.functionName name, .opening .round, .closing .round]) ∨
      (∃ name values list, env.call name values = .ok value ∧ DerivesAll env values list ∧
        tokens = .functionName name :: .opening .round :: (list ++ [.closing .round])) ∨
      ∃ name argument operand, env.call name [argument] = .ok value ∧
        Derives env .operand argument operand ∧ tokens = .functionName name :: operand := by
  obtain ⟨phrase, rfl, valued⟩ := derived
  cases phrase with
  | operand operand => exact .inl ⟨operand, rfl, valued⟩
  | group inner => exact .inr (.inl ⟨_, ⟨inner, rfl, valued⟩, rfl⟩)
  | emptyCall name =>
      exact .inr (.inr (.inl ⟨name, Phrase.value_emptyCall_eq_some.mp valued, rfl⟩))
  | listCall name arguments =>
      obtain ⟨values, allValued, called⟩ := Phrase.value_listCall_eq_some.mp valued
      exact .inr (.inr (.inr (.inl ⟨name, values, _, called, ⟨arguments, rfl, allValued⟩, rfl⟩)))
  | bareCall name argument =>
      obtain ⟨operand, operandValued, called⟩ := Phrase.value_bareCall_eq_some.mp valued
      exact .inr (.inr (.inr (.inr
        ⟨name, operand, _, called, ⟨argument, rfl, operandValued⟩, rfl⟩)))

theorem operand_cases {value : Value} {tokens : List Token}
    (derived : Derives env .operand value tokens) :
    tokens = [.number value] ∨
      (∃ name, env.valueOf? name = some value ∧ tokens = [.variableName name]) ∨
      ∃ values entries, DerivesAll env values entries ∧
        value = ⟨values.map fun value => value.scalar?.join⟩ ∧
        tokens = .opening .square :: (entries ++ [.closing .square]) := by
  obtain ⟨phrase, rfl, valued⟩ := derived
  cases phrase with
  | number =>
      cases valued
      exact .inl rfl
  | variableName name => exact .inr (.inl ⟨name, valued, rfl⟩)
  | array entries =>
      obtain ⟨values, allValued, rfl⟩ := Phrase.value_array_eq_some.mp valued
      exact .inr (.inr ⟨values, _, ⟨entries, rfl, allValued⟩, rfl, rfl⟩)

theorem signed_cases {value : Value} {tokens : List Token}
    (derived : Derives env .signed value tokens) :
    Derives env (.chain .product) value tokens ∨
      ∃ number product, value = number.neg ∧ tokens = .operator .sub :: product ∧
        Derives env (.chain .product) number product := by
  obtain ⟨phrase, rfl, valued⟩ := derived
  cases phrase with
  | unsigned product => exact .inl ⟨product, rfl, valued⟩
  | negated product =>
      obtain ⟨number, numberValued, rfl⟩ := Phrase.value_negated_eq_some.mp valued
      exact .inr ⟨number, _, rfl, rfl, product, rfl, numberValued⟩

end Derives

/-- A property of derived sequences that every rule of the grammar passes on, together with one of
derived lists. -/
structure Hereditary (env : Environment) (holds : Category → Value → List Token → Prop)
    (holdsAll : List Value → List Token → Prop) : Prop where
  number (value : Value) : holds .operand value [.number value]
  variableName {name : String} {value : Value} (bound : env.valueOf? name = some value) :
    holds .operand value [.variableName name]
  array {values : List Value} {tokens : List Token} (derived : DerivesAll env values tokens)
    (entries : holdsAll values tokens) :
    holds .operand ⟨values.map fun value => value.scalar?.join⟩
      (.opening .square :: (tokens ++ [.closing .square]))
  operand {value : Value} {tokens : List Token} (operand : holds .operand value tokens) :
    holds .atom value tokens
  group {value : Value} {tokens : List Token} (derived : Derives env .sum value tokens)
    (inner : holds .sum value tokens) :
    holds .atom value (.opening .round :: (tokens ++ [.closing .round]))
  emptyCall {name : String} {value : Value} (called : env.call name [] = .ok value) :
    holds .atom value [.functionName name, .opening .round, .closing .round]
  listCall {name : String} {values : List Value} {value : Value} {tokens : List Token}
    (called : env.call name values = .ok value) (derived : DerivesAll env values tokens)
    (arguments : holdsAll values tokens) :
    holds .atom value (.functionName name :: .opening .round :: (tokens ++ [.closing .round]))
  bareCall {name : String} {argument value : Value} {tokens : List Token}
    (called : env.call name [argument] = .ok value) (operand : holds .operand argument tokens) :
    holds .atom value (.functionName name :: tokens)
  atom {value : Value} {tokens : List Token} (atom : holds .atom value tokens) :
    holds .factor value tokens
  factorial {value : Value} {tokens : List Token} (argument : holds .factor value tokens) :
    holds .factor value.factorial (tokens ++ [.operator .factorial])
  unsigned {value : Value} {tokens : List Token} (product : holds (.chain .product) value tokens) :
    holds .signed value tokens
  negated {value : Value} {tokens : List Token} (product : holds (.chain .product) value tokens) :
    holds .signed value.neg (.operator .sub :: tokens)
  first {level : Level} {value : Value} {tokens : List Token}
    (item : holds level.item value tokens) : holds (.chain level) value tokens
  join {level : Level} {op : Operator} {lhs rhs value : Value} {front tokens : List Token}
    (joins : level.joins op = true) (left : holds (.chain level) lhs front)
    (right : holds level.item rhs tokens) (applied : Value.apply op lhs rhs = .ok value) :
    holds (.chain level) value (front ++ .operator op :: tokens)
  last {value : Value} {tokens : List Token} (expression : holds .sum value tokens) :
    holdsAll [value] tokens
  more {value : Value} {values : List Value} {tokens rest : List Token}
    (expression : holds .sum value tokens) (others : holdsAll values rest) :
    holdsAll (value :: values) (tokens ++ .separator :: rest)

namespace Hereditary

variable {env : Environment} {holds : Category → Value → List Token → Prop}
  {holdsAll : List Value → List Token → Prop}

mutual

theorem holds_phrase (rules : Hereditary env holds holdsAll) {category : Category} {value : Value}
    (phrase : Phrase category) (valued : phrase.value env = some value) :
    holds category value phrase.tokens := by
  cases phrase with
  | number =>
      cases valued
      exact rules.number value
  | variableName => exact rules.variableName valued
  | array entries =>
      obtain ⟨values, allValued, rfl⟩ := Phrase.value_array_eq_some.mp valued
      exact rules.array ⟨entries, rfl, allValued⟩ (rules.holds_phrases entries allValued)
  | operand operand => exact rules.operand (rules.holds_phrase operand valued)
  | group inner => exact rules.group ⟨inner, rfl, valued⟩ (rules.holds_phrase inner valued)
  | emptyCall => exact rules.emptyCall (Phrase.value_emptyCall_eq_some.mp valued)
  | listCall _ arguments =>
      obtain ⟨values, allValued, called⟩ := Phrase.value_listCall_eq_some.mp valued
      exact rules.listCall called ⟨arguments, rfl, allValued⟩
        (rules.holds_phrases arguments allValued)
  | bareCall _ argument =>
      obtain ⟨operand, operandValued, called⟩ := Phrase.value_bareCall_eq_some.mp valued
      exact rules.bareCall called (rules.holds_phrase argument operandValued)
  | atom atom => exact rules.atom (rules.holds_phrase atom valued)
  | factorial argument =>
      obtain ⟨number, numberValued, rfl⟩ := Phrase.value_factorial_eq_some.mp valued
      exact rules.factorial (rules.holds_phrase argument numberValued)
  | unsigned product => exact rules.unsigned (rules.holds_phrase product valued)
  | negated product =>
      obtain ⟨number, numberValued, rfl⟩ := Phrase.value_negated_eq_some.mp valued
      exact rules.negated (rules.holds_phrase product numberValued)
  | first _ item => exact rules.first (rules.holds_phrase item valued)
  | join _ front op joins item =>
      obtain ⟨lhs, left, rhs, right, applied⟩ := Phrase.value_join_eq_some.mp valued
      exact rules.join joins (rules.holds_phrase front left) (rules.holds_phrase item right) applied

theorem holds_phrases (rules : Hereditary env holds holdsAll) {values : List Value}
    (phrases : Phrases) (valued : phrases.values env = some values) :
    holdsAll values phrases.tokens := by
  cases phrases with
  | last expression =>
      obtain ⟨value, firstValued, rfl⟩ := Phrases.values_last_eq_some.mp valued
      exact rules.last (rules.holds_phrase expression firstValued)
  | more expression others =>
      obtain ⟨value, firstValued, rest, othersValued, rfl⟩ :=
        Phrases.values_more_eq_some.mp valued
      exact rules.more (rules.holds_phrase expression firstValued)
        (rules.holds_phrases others othersValued)

end

/-- A hereditary property holds of everything derived. -/
theorem derives (rules : Hereditary env holds holdsAll) {category : Category} {value : Value}
    {tokens : List Token} (derived : Derives env category value tokens) :
    holds category value tokens := by
  obtain ⟨phrase, rfl, valued⟩ := derived
  exact rules.holds_phrase phrase valued

end Hereditary

end Grammar
end Reckoner
