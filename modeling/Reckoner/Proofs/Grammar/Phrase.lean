import Reckoner.Evaluation.Basic
import Reckoner.Proofs.Outcome

/-!
# Phrases

The grammar of expressions, with its derivations as trees.  A phrase of a category has the tokens
it is written with and, if all its parts have one, a value.

    sum      = signed (('+' | '-') signed)*
    signed   = '-'? product
    product  = power (('*' | '/' | '%') power)*
    power    = factor ('^' factor)*
    factor   = atom '!'*
    atom     = operand | '(' sum ')' | call
    call     = name '(' ')' | name '(' sum (',' sum)* ')' | name operand
    operand  = number | variable | '[' sum (',' sum)* ']'
-/

namespace Reckoner
namespace Grammar

/-- The levels of operators that stand between two operands. -/
inductive Level where
  | power
  | product
  | sum
deriving DecidableEq

/-- Whether an operator joins the operands of a level. -/
def Level.joins : Level → Operator → Bool
  | power, op => op == .pow
  | product, op => op == .mul || op == .div || op == .mod
  | sum, op => op == .add || op == .sub

/-- The categories of phrases.  A chain holds the operands of one level of operators. -/
inductive Category where
  | operand
  | atom
  | factor
  | signed
  | chain (level : Level)
deriving DecidableEq

/-- The category of the operands of a level. -/
def Level.item : Level → Category
  | power => .factor
  | product => .chain .power
  | sum => .signed

/-- The category of complete expressions. -/
abbrev Category.sum : Category := .chain .sum

mutual

/-- A derivation of the grammar.  The operators of a chain group from the left. -/
inductive Phrase : Category → Type where
  | number (value : Value) : Phrase .operand
  | variableName (name : String) : Phrase .operand
  | array (entries : Phrases) : Phrase .operand
  | operand (operand : Phrase .operand) : Phrase .atom
  | group (inner : Phrase .sum) : Phrase .atom
  | emptyCall (name : String) : Phrase .atom
  | listCall (name : String) (arguments : Phrases) : Phrase .atom
  | bareCall (name : String) (argument : Phrase .operand) : Phrase .atom
  | atom (atom : Phrase .atom) : Phrase .factor
  | factorial (argument : Phrase .factor) : Phrase .factor
  | unsigned (product : Phrase (.chain .product)) : Phrase .signed
  | negated (product : Phrase (.chain .product)) : Phrase .signed
  | first (level : Level) (item : Phrase level.item) : Phrase (.chain level)
  | join (level : Level) (front : Phrase (.chain level)) (op : Operator)
      (joins : level.joins op = true) (item : Phrase level.item) : Phrase (.chain level)

/-- The expressions between the separators of a bracket, at least one. -/
inductive Phrases : Type where
  | last (expression : Phrase .sum) : Phrases
  | more (expression : Phrase .sum) (others : Phrases) : Phrases

end

mutual

/-- The tokens a phrase is written with. -/
def Phrase.tokens : {category : Category} → Phrase category → List Token
  | _, .number value => [.number value]
  | _, .variableName name => [.variableName name]
  | _, .array entries => .opening .square :: (entries.tokens ++ [.closing .square])
  | _, .operand operand => operand.tokens
  | _, .group inner => .opening .round :: (inner.tokens ++ [.closing .round])
  | _, .emptyCall name => [.functionName name, .opening .round, .closing .round]
  | _, .listCall name arguments =>
      .functionName name :: .opening .round :: (arguments.tokens ++ [.closing .round])
  | _, .bareCall name argument => .functionName name :: argument.tokens
  | _, .atom atom => atom.tokens
  | _, .factorial argument => argument.tokens ++ [.operator .factorial]
  | _, .unsigned product => product.tokens
  | _, .negated product => .operator .sub :: product.tokens
  | _, .first _ item => item.tokens
  | _, .join _ front op _ item => front.tokens ++ .operator op :: item.tokens

/-- The tokens of expressions with separators between them. -/
def Phrases.tokens : Phrases → List Token
  | .last expression => expression.tokens
  | .more expression others => expression.tokens ++ .separator :: others.tokens

end

mutual

/-- The value of a phrase, if all its parts have one. -/
def Phrase.value (env : Environment) : {category : Category} → Phrase category → Option Value
  | _, .number value => some value
  | _, .variableName name => env.valueOf? name
  | _, .array entries => do
      let values ← entries.values env
      return ⟨values.map fun value => value.scalar?.join⟩
  | _, .operand operand => operand.value env
  | _, .group inner => inner.value env
  | _, .emptyCall name => (env.call name []).toOption
  | _, .listCall name arguments => do
      let values ← arguments.values env
      (env.call name values).toOption
  | _, .bareCall name argument => do
      let value ← argument.value env
      (env.call name [value]).toOption
  | _, .atom atom => atom.value env
  | _, .factorial argument => do
      let value ← argument.value env
      return value.factorial
  | _, .unsigned product => product.value env
  | _, .negated product => do
      let value ← product.value env
      return value.neg
  | _, .first _ item => item.value env
  | _, .join _ front op _ item => do
      let lhs ← front.value env
      let rhs ← item.value env
      (Value.apply op lhs rhs).toOption

/-- The values of expressions, if all of them have one. -/
def Phrases.values (env : Environment) : Phrases → Option (List Value)
  | .last expression => do
      let value ← expression.value env
      return [value]
  | .more expression others => do
      let value ← expression.value env
      let values ← others.values env
      return value :: values

end

/-! ## Values of the parts -/

section Parts

variable {env : Environment} {value : Value} {values : List Value} {name : String}

theorem Phrase.value_array_eq_some {entries : Phrases} :
    (Phrase.array entries).value env = some value ↔
      ∃ values, entries.values env = some values ∧
        ⟨values.map fun value => value.scalar?.join⟩ = value := by
  simp [Phrase.value, Option.bind_eq_some_iff]

theorem Phrase.value_emptyCall_eq_some :
    (Phrase.emptyCall name).value env = some value ↔ env.call name [] = .ok value :=
  Outcome.toOption_eq_some

theorem Phrase.value_listCall_eq_some {arguments : Phrases} :
    (Phrase.listCall name arguments).value env = some value ↔
      ∃ values, arguments.values env = some values ∧ env.call name values = .ok value := by
  simp [Phrase.value, Option.bind_eq_some_iff, Outcome.toOption_eq_some]

theorem Phrase.value_bareCall_eq_some {argument : Phrase .operand} :
    (Phrase.bareCall name argument).value env = some value ↔
      ∃ operand, argument.value env = some operand ∧ env.call name [operand] = .ok value := by
  simp [Phrase.value, Option.bind_eq_some_iff, Outcome.toOption_eq_some]

theorem Phrase.value_factorial_eq_some {argument : Phrase .factor} :
    (Phrase.factorial argument).value env = some value ↔
      ∃ number, argument.value env = some number ∧ number.factorial = value := by
  simp [Phrase.value, Option.bind_eq_some_iff]

theorem Phrase.value_negated_eq_some {product : Phrase (.chain .product)} :
    (Phrase.negated product).value env = some value ↔
      ∃ number, product.value env = some number ∧ number.neg = value := by
  simp [Phrase.value, Option.bind_eq_some_iff]

theorem Phrase.value_join_eq_some {level : Level} {front : Phrase (.chain level)} {op : Operator}
    {joins : level.joins op = true} {item : Phrase level.item} :
    (Phrase.join level front op joins item).value env = some value ↔
      ∃ lhs, front.value env = some lhs ∧ ∃ rhs, item.value env = some rhs ∧
        Value.apply op lhs rhs = .ok value := by
  simp [Phrase.value, Option.bind_eq_some_iff, Outcome.toOption_eq_some]

theorem Phrases.values_last_eq_some {expression : Phrase .sum} :
    (Phrases.last expression).values env = some values ↔
      ∃ value, expression.value env = some value ∧ [value] = values := by
  simp [Phrases.values, Option.bind_eq_some_iff]

theorem Phrases.values_more_eq_some {expression : Phrase .sum} {others : Phrases} :
    (Phrases.more expression others).values env = some values ↔
      ∃ value, expression.value env = some value ∧ ∃ rest, others.values env = some rest ∧
        value :: rest = values := by
  simp [Phrases.values, Option.bind_eq_some_iff]

end Parts

end Grammar
end Reckoner
