import Reckoner.Proofs.Grammar.Derivation

/-!
# Abbreviations

Evaluation replaces parts of a token sequence by number tokens with their values.  The shorter
sequence abbreviates the longer one: each of its numbers stands for a part, and each other token
for itself.  Phrases survive abbreviation in both directions as long as arrays are all that is
replaced.
-/

namespace Reckoner
namespace Grammar

/-- The first sequence abbreviates the second, with numbers for parts. -/
inductive Abbreviates (part : Value → List Token → Prop) : List Token → List Token → Prop where
  | nil : Abbreviates part [] []
  | number {value : Value} {segment short long : List Token} (stands : part value segment)
      (tail : Abbreviates part short long) :
      Abbreviates part (.number value :: short) (segment ++ long)
  | other {token : Token} {short long : List Token} (other : token.isNumber = false)
      (tail : Abbreviates part short long) : Abbreviates part (token :: short) (token :: long)

namespace Abbreviates

variable {part : Value → List Token → Prop} {short long : List Token}

theorem append {front shortFront : List Token} (left : Abbreviates part shortFront front)
    (right : Abbreviates part short long) :
    Abbreviates part (shortFront ++ short) (front ++ long) := by
  induction left with
  | nil => exact right
  | number stands _ induction =>
      rw [List.append_assoc]
      exact .number stands induction
  | other other _ induction => exact .other other induction

theorem append_iff {left right : List Token} :
    Abbreviates part (left ++ right) long ↔
      ∃ front back, long = front ++ back ∧ Abbreviates part left front ∧
        Abbreviates part right back := by
  constructor
  · intro whole
    induction left generalizing long with
    | nil => exact ⟨[], long, rfl, .nil, whole⟩
    | cons token left induction =>
        cases whole with
        | number stands tail =>
            obtain ⟨front, back, rfl, first, second⟩ := induction tail
            exact ⟨_ ++ front, back, (List.append_assoc ..).symm, .number stands first, second⟩
        | other other tail =>
            obtain ⟨front, back, rfl, first, second⟩ := induction tail
            exact ⟨token :: front, back, rfl, .other other first, second⟩
  · rintro ⟨front, back, rfl, first, second⟩
    exact first.append second

@[simp]
theorem nil_iff : Abbreviates part [] long ↔ long = [] := by
  constructor
  · intro empty
    cases empty
    rfl
  · rintro rfl
    exact .nil

theorem number_cons_iff {value : Value} :
    Abbreviates part (.number value :: short) long ↔
      ∃ segment back, long = segment ++ back ∧ part value segment ∧
        Abbreviates part short back := by
  constructor
  · intro whole
    cases whole with
    | number stands tail => exact ⟨_, _, rfl, stands, tail⟩
    | other other _ => simp [Token.isNumber] at other
  · rintro ⟨segment, back, rfl, stands, tail⟩
    exact .number stands tail

theorem other_cons_iff {token : Token} (other : token.isNumber = false) :
    Abbreviates part (token :: short) long ↔
      ∃ back, long = token :: back ∧ Abbreviates part short back := by
  constructor
  · intro whole
    cases whole with
    | number => simp [Token.isNumber] at other
    | other _ tail => exact ⟨_, rfl, tail⟩
  · rintro ⟨back, rfl, tail⟩
    exact .other other tail

/-- A token that is no number separates what the two sides stand for. -/
theorem append_other_cons_iff {token : Token} {left : List Token}
    (other : token.isNumber = false) :
    Abbreviates part (left ++ token :: short) long ↔
      ∃ front back, long = front ++ token :: back ∧ Abbreviates part left front ∧
        Abbreviates part short back := by
  rw [append_iff]
  constructor
  · rintro ⟨front, rest, rfl, first, second⟩
    obtain ⟨back, rfl, tail⟩ := (other_cons_iff other).mp second
    exact ⟨front, back, rfl, first, tail⟩
  · rintro ⟨front, back, rfl, first, tail⟩
    exact ⟨front, token :: back, rfl, first, .other other tail⟩

theorem append_other_iff {token : Token} (other : token.isNumber = false) :
    Abbreviates part (short ++ [token]) long ↔
      ∃ front, long = front ++ [token] ∧ Abbreviates part short front := by
  simp [append_other_cons_iff other]

theorem bracketed_iff {shape : Bracket} :
    Abbreviates part (.opening shape :: (short ++ [.closing shape])) long ↔
      ∃ inner, long = .opening shape :: (inner ++ [.closing shape]) ∧
        Abbreviates part short inner := by
  rw [other_cons_iff rfl]
  constructor
  · rintro ⟨rest, rfl, tail⟩
    obtain ⟨inner, rfl, content⟩ := (append_other_iff rfl).mp tail
    exact ⟨inner, rfl, content⟩
  · rintro ⟨inner, rfl, content⟩
    exact ⟨_, rfl, (append_other_iff rfl).mpr ⟨inner, rfl, content⟩⟩

@[simp]
theorem number_iff {value : Value} :
    Abbreviates part [.number value] long ↔ part value long := by
  simp [number_cons_iff]

theorem single {value : Value} {segment : List Token} (stands : part value segment) :
    Abbreviates part [.number value] segment := by
  simpa using stands

/-- The token at the head and what it stands for, where parts may stand for more than before. -/
theorem cons_imp {other : Value → List Token → Prop} {token : Token}
    (weaker : ∀ value segment, part value segment → other value segment)
    (whole : Abbreviates part (token :: short) long) :
    ∃ segment back, long = segment ++ back ∧ Abbreviates other [token] segment ∧
      Abbreviates part short back := by
  cases whole with
  | number stands tail => exact ⟨_, _, rfl, .single (weaker _ _ stands), tail⟩
  | other plain tail => exact ⟨[token], _, rfl, .other plain .nil, tail⟩

theorem push {token : Token} {written front segment : List Token}
    (before : Abbreviates part written.reverse front) (last : Abbreviates part [token] segment) :
    Abbreviates part (token :: written).reverse (front ++ segment) := by
  rw [List.reverse_cons]
  exact before.append last

/-- The last token of a sequence that is held latest first, and what it stands for. -/
theorem pop {token : Token} {written front : List Token}
    (before : Abbreviates part (token :: written).reverse front) :
    ∃ shorter segment, front = shorter ++ segment ∧ Abbreviates part written.reverse shorter ∧
      Abbreviates part [token] segment := by
  rw [List.reverse_cons] at before
  exact append_iff.mp before

end Abbreviates

/-- A value stands for its own token, or for an array that has it. -/
def StandsForArray (env : Environment) (value : Value) (tokens : List Token) : Prop :=
  tokens = [.number value] ∨
    ∃ entries values, DerivesAll env values entries ∧
      value = ⟨values.map fun value => value.scalar?.join⟩ ∧
      tokens = .opening .square :: (entries ++ [.closing .square])

theorem StandsForArray.derives {env : Environment} {value : Value} {tokens : List Token}
    (stands : StandsForArray env value tokens) : Derives env .operand value tokens := by
  rcases stands with rfl | ⟨entries, values, derived, rfl, rfl⟩
  · exact .number
  · exact .array derived

theorem StandsForArray.token (env : Environment) (token : Token) :
    Abbreviates (StandsForArray env) [token] [token] := by
  cases token with
  | number value => exact .single (.inl rfl)
  | _ => exact .other rfl .nil

/-- What a derived sequence abbreviates is derived as well. -/
theorem expand_hereditary (env : Environment) :
    Hereditary env
      (fun category value tokens => ∀ long, Abbreviates (StandsForArray env) tokens long →
        Derives env category value long)
      (fun values tokens => ∀ long, Abbreviates (StandsForArray env) tokens long →
        DerivesAll env values long) where
  number value := by
    intro long whole
    exact (Abbreviates.number_iff.mp whole).derives
  variableName bound := by
    intro long whole
    obtain ⟨back, rfl, empty⟩ := (Abbreviates.other_cons_iff rfl).mp whole
    obtain rfl := Abbreviates.nil_iff.mp empty
    exact .variableName bound
  array _ entries := by
    intro long whole
    obtain ⟨inner, rfl, content⟩ := Abbreviates.bracketed_iff.mp whole
    exact .array (entries inner content)
  operand operand := fun long whole => (operand long whole).operand
  group _ inner := by
    intro long whole
    obtain ⟨content, rfl, short⟩ := Abbreviates.bracketed_iff.mp whole
    exact .group (inner content short)
  emptyCall called := by
    intro long whole
    obtain ⟨_, rfl, brackets⟩ := (Abbreviates.other_cons_iff rfl).mp whole
    obtain ⟨content, rfl, empty⟩ := (@Abbreviates.bracketed_iff _ [] _ _).mp brackets
    obtain rfl := Abbreviates.nil_iff.mp empty
    exact .emptyCall called
  listCall called _ arguments := by
    intro long whole
    obtain ⟨_, rfl, brackets⟩ := (Abbreviates.other_cons_iff rfl).mp whole
    obtain ⟨content, rfl, list⟩ := Abbreviates.bracketed_iff.mp brackets
    exact .listCall called (arguments content list)
  bareCall called operand := by
    intro long whole
    obtain ⟨back, rfl, tail⟩ := (Abbreviates.other_cons_iff rfl).mp whole
    exact .bareCall called (operand back tail)
  atom atom := fun long whole => (atom long whole).atom
  factorial argument := by
    intro long whole
    obtain ⟨front, rfl, inner⟩ := (Abbreviates.append_other_iff rfl).mp whole
    exact .factorial (argument front inner)
  unsigned product := fun long whole => (product long whole).unsigned
  negated product := by
    intro long whole
    obtain ⟨back, rfl, tail⟩ := (Abbreviates.other_cons_iff rfl).mp whole
    exact .negated (product back tail)
  first item := fun long whole => (item long whole).first
  join joins left right applied := by
    intro long whole
    obtain ⟨front, back, rfl, chain, item⟩ := (Abbreviates.append_other_cons_iff rfl).mp whole
    exact .join joins (left front chain) (right back item) applied
  last expression := fun long whole => .last (expression long whole)
  more expression others := by
    intro long whole
    obtain ⟨front, back, rfl, first, rest⟩ := (Abbreviates.append_other_cons_iff rfl).mp whole
    exact .more (expression front first) (others back rest)

/-- No square bracket is among the tokens. -/
def ArrayFree (tokens : List Token) : Prop :=
  .opening .square ∉ tokens ∧ .closing .square ∉ tokens

namespace ArrayFree

variable {left right : List Token}

@[simp]
theorem nil : ArrayFree [] := by simp [ArrayFree]

@[simp]
theorem append_iff : ArrayFree (left ++ right) ↔ ArrayFree left ∧ ArrayFree right := by
  simp only [ArrayFree, List.mem_append, not_or]
  tauto

@[simp]
theorem cons_iff {token : Token} {tokens : List Token} :
    ArrayFree (token :: tokens) ↔
      token ≠ .opening .square ∧ token ≠ .closing .square ∧ ArrayFree tokens := by
  simp only [ArrayFree, List.mem_cons, not_or, ne_eq, eq_comm]
  tauto

end ArrayFree

/-- Something without square brackets abbreviates the sequence and is derived as well. -/
def Contracts (env : Environment) (derived : List Token → Prop) (tokens : List Token) : Prop :=
  ∃ short, Abbreviates (StandsForArray env) short tokens ∧ ArrayFree short ∧ derived short

/-- Every derived sequence has an abbreviation without arrays. -/
theorem contract_hereditary (env : Environment) :
    Hereditary env
      (fun category value tokens => Contracts env (Derives env category value) tokens)
      (fun values tokens => Contracts env (DerivesAll env values) tokens) where
  number value := ⟨[.number value], .single (.inl rfl), by simp, .number⟩
  variableName bound := ⟨_, .other rfl .nil, by simp, .variableName bound⟩
  array derived _ := by
    refine ⟨[.number _], .single (.inr ⟨_, _, derived, rfl, rfl⟩), by simp, .number⟩
  operand := by
    rintro value tokens ⟨short, whole, plain, operand⟩
    exact ⟨short, whole, plain, operand.operand⟩
  group := by
    rintro value tokens - ⟨short, whole, plain, inner⟩
    refine ⟨_, Abbreviates.bracketed_iff.mpr ⟨tokens, rfl, whole⟩, ?_, inner.group⟩
    simpa using plain
  emptyCall called :=
    ⟨_, .other rfl (.other rfl (.other rfl .nil)), by simp, .emptyCall called⟩
  listCall := by
    rintro name values value tokens called - ⟨short, whole, plain, arguments⟩
    refine ⟨_, .other rfl (Abbreviates.bracketed_iff.mpr ⟨tokens, rfl, whole⟩), ?_,
      .listCall called arguments⟩
    simpa using plain
  bareCall := by
    rintro name argument value tokens called ⟨short, whole, plain, operand⟩
    exact ⟨_, .other rfl whole, by simpa using plain, .bareCall called operand⟩
  atom := by
    rintro value tokens ⟨short, whole, plain, atom⟩
    exact ⟨short, whole, plain, atom.atom⟩
  factorial := by
    rintro value tokens ⟨short, whole, plain, argument⟩
    refine ⟨_, (Abbreviates.append_other_iff rfl).mpr ⟨tokens, rfl, whole⟩, ?_,
      argument.factorial⟩
    simpa using plain
  unsigned := by
    rintro value tokens ⟨short, whole, plain, product⟩
    exact ⟨short, whole, plain, product.unsigned⟩
  negated := by
    rintro value tokens ⟨short, whole, plain, product⟩
    exact ⟨_, .other rfl whole, by simpa using plain, product.negated⟩
  first := by
    rintro level value tokens ⟨short, whole, plain, item⟩
    exact ⟨short, whole, plain, item.first⟩
  join := by
    rintro level op lhs rhs value front tokens joins ⟨chain, wholeChain, plainChain, left⟩
      ⟨item, wholeItem, plainItem, right⟩ applied
    refine ⟨_, wholeChain.append (.other rfl wholeItem), ?_, .join joins left right applied⟩
    simpa using ⟨plainChain, plainItem⟩
  last := by
    rintro value tokens ⟨short, whole, plain, expression⟩
    exact ⟨short, whole, plain, .last expression⟩
  more := by
    rintro value values tokens rest ⟨first, wholeFirst, plainFirst, expression⟩
      ⟨others, wholeOthers, plainOthers, list⟩
    refine ⟨_, wholeFirst.append (.other rfl wholeOthers), ?_, .more expression list⟩
    simpa using ⟨plainFirst, plainOthers⟩

end Grammar
end Reckoner
