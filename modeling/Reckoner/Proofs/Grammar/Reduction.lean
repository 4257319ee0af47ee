import Reckoner.Proofs.Grammar.Abbreviation
import Reckoner.Proofs.Passes

/-!
# Reduction as parsing

Each pass over the operators replaces the phrases of one category by their values: what abbreviated
a sequence by its atoms abbreviates it by its factors, then by powers, products, signed products
and finally as a sum.  Read backwards, every phrase is found by the pass for its category.
-/

namespace Reckoner
namespace Grammar

open Evaluation

variable {env : Environment}

/-- Every token is a number or an operator that is allowed. -/
def Arithmetic (allowed : Operator → Prop) (tokens : List Token) : Prop :=
  ∀ token ∈ tokens, token.isNumber = true ∨ ∃ op, token = .operator op ∧ allowed op

namespace Arithmetic

variable {allowed : Operator → Prop} {left right : List Token}

theorem append (first : Arithmetic allowed left) (second : Arithmetic allowed right) :
    Arithmetic allowed (left ++ right) := by
  intro token member
  rcases List.mem_append.mp member with member | member
  · exact first token member
  · exact second token member

theorem cons_number {value : Value} (tail : Arithmetic allowed right) :
    Arithmetic allowed (.number value :: right) := by
  intro token member
  rcases List.mem_cons.mp member with rfl | member
  · exact .inl rfl
  · exact tail token member

theorem cons_operator {op : Operator} (head : allowed op) (tail : Arithmetic allowed right) :
    Arithmetic allowed (.operator op :: right) := by
  intro token member
  rcases List.mem_cons.mp member with rfl | member
  · exact .inr ⟨op, rfl, head⟩
  · exact tail token member

theorem nil : Arithmetic allowed [] := by
  intro token member
  cases member

theorem imp {other : Operator → Prop} (weaker : ∀ op, allowed op → other op)
    (tokens : Arithmetic allowed left) : Arithmetic other left := by
  intro token member
  rcases tokens token member with number | ⟨op, rfl, allows⟩
  · exact .inl number
  · exact .inr ⟨op, rfl, weaker op allows⟩

end Arithmetic

/-- A pass that finds every phrase of a category among its parts, and copies the operators between
them, finds all phrases in a sequence. -/
theorem exists_of_pass {outer inner : Category} {picked allowed : Operator → Prop}
    (passes : List Token → List Token → Prop) (nil : passes [] [])
    (number : ∀ value segment, Derives env outer value segment →
      ∃ front, Abbreviates (Derives env inner) front segment ∧ Arithmetic picked front ∧
        ∀ items short, passes items short → passes (front ++ items) (.number value :: short))
    (operator : ∀ op items short, allowed op → passes items short →
      passes (.operator op :: items) (.operator op :: short))
    {short long : List Token} (plain : Arithmetic allowed short)
    (whole : Abbreviates (Derives env outer) short long) :
    ∃ items, Abbreviates (Derives env inner) items long ∧
      Arithmetic (fun op => picked op ∨ allowed op) items ∧ passes items short := by
  induction whole with
  | nil => exact ⟨[], .nil, .nil, nil⟩
  | @number value segment short long derived tail induction =>
      obtain ⟨-, rest⟩ := List.forall_mem_cons.mp plain
      obtain ⟨items, stands, arithmetic, after⟩ := induction rest
      obtain ⟨front, abbreviates, signs, steps⟩ := number value segment derived
      exact ⟨front ++ items, abbreviates.append stands,
        (signs.imp fun _ => .inl).append arithmetic, steps items short after⟩
  | @other token short long other tail induction =>
      obtain ⟨head, rest⟩ := List.forall_mem_cons.mp plain
      obtain ⟨items, stands, arithmetic, after⟩ := induction rest
      obtain isNumber | ⟨op, rfl, allows⟩ := head
      · simp [other] at isNumber
      · exact ⟨.operator op :: items, .other rfl stands, .cons_operator (.inr allows) arithmetic,
          operator op items short allows after⟩

/-! ## Factorials -/

theorem factorialsFrom_sound {written rest front back : List Token}
    (before : Abbreviates (Derives env .factor) written.reverse front)
    (after : Abbreviates (Derives env .atom) rest back) :
    Abbreviates (Derives env .factor) (factorialsFrom written rest) (front ++ back) := by
  fun_induction factorialsFrom written rest generalizing front back with
  | case1 written =>
      obtain rfl := Abbreviates.nil_iff.mp after
      simpa using before
  | case2 value written rest induction =>
      obtain ⟨shorter, factor, rfl, earlier, number⟩ := before.pop
      obtain ⟨tail, rfl, later⟩ := (Abbreviates.other_cons_iff rfl).mp after
      have longer := (Abbreviates.number_iff.mp number).factorial
      simpa using induction (earlier.push (.single longer)) later
  | case3 written token rest _ induction =>
      obtain ⟨segment, tail, rfl, last, later⟩ := after.cons_imp fun _ _ => Derives.atom
      simpa using induction (before.push last) later

theorem factorials_sound {short long : List Token}
    (whole : Abbreviates (Derives env .atom) short long) :
    Abbreviates (Derives env .factor) (factorials short) long := by
  have before : Abbreviates (Derives env .factor) (List.reverse []) [] := .nil
  exact factorialsFrom_sound before whole

theorem exists_factorialsFrom {value : Value} {long : List Token}
    (derived : Derives env .factor value long) :
    ∃ short, Abbreviates (Derives env .atom) short long ∧ Arithmetic (· = .factorial) short ∧
      ∀ written rest, factorialsFrom written (short ++ rest) =
        factorialsFrom (.number value :: written) rest := by
  induction derived using Derives.factor_induction with
  | @atom value tokens atom =>
      refine ⟨[.number value], .single atom, .cons_number .nil, ?_⟩
      intro written rest
      simp [factorialsFrom]
  | @factorial value tokens argument induction =>
      obtain ⟨short, whole, plain, steps⟩ := induction
      refine ⟨short ++ [.operator .factorial], whole.append (.other rfl .nil),
        plain.append (.cons_operator (by rfl) .nil), ?_⟩
      intro written rest
      rw [List.append_assoc, steps]
      rfl

theorem exists_factorials {short long : List Token} {allowed : Operator → Prop}
    (plain : Arithmetic allowed short) (excluded : ¬ allowed .factorial)
    (whole : Abbreviates (Derives env .factor) short long) :
    ∃ atoms, Abbreviates (Derives env .atom) atoms long ∧
      Arithmetic (fun op => op = .factorial ∨ allowed op) atoms ∧ factorials atoms = short := by
  suffices general : ∃ atoms, Abbreviates (Derives env .atom) atoms long ∧
      Arithmetic (fun op => op = .factorial ∨ allowed op) atoms ∧
      ∀ written, factorialsFrom written atoms = written.reverse ++ short by
    obtain ⟨atoms, stands, arithmetic, steps⟩ := general
    exact ⟨atoms, stands, arithmetic, by simpa [factorials] using steps []⟩
  refine exists_of_pass (fun atoms short => ∀ written,
    factorialsFrom written atoms = written.reverse ++ short) ?_ ?_ ?_ plain whole
  · intro written
    simp [factorialsFrom]
  · intro value segment derived
    obtain ⟨front, abbreviates, signs, steps⟩ := exists_factorialsFrom derived
    refine ⟨front, abbreviates, signs, fun items short after written => ?_⟩
    rw [steps, after]
    simp
  · intro op items short allows after written
    rw [factorialsFrom_other fun same => excluded (Token.operator.inj same ▸ allows), after]
    simp

/-! ## Chains of operators -/

theorem abbreviates_of_combines {level : Level} {written rest front back result : List Token}
    (run : Combines level.joins written rest result)
    (before : Abbreviates (Derives env (.chain level)) written.reverse front)
    (after : Abbreviates (Derives env level.item) rest back) :
    Abbreviates (Derives env (.chain level)) result (front ++ back) := by
  induction run generalizing front back with
  | done =>
      obtain rfl := Abbreviates.nil_iff.mp after
      simpa using before
  | copy _ induction =>
      obtain ⟨segment, tail, rfl, last, later⟩ := after.cons_imp fun _ _ => Derives.first
      simpa using induction (before.push last) later
  | join picked applied _ induction =>
      obtain ⟨shorter, chain, rfl, earlier, left⟩ := before.pop
      obtain ⟨_, rfl, operand⟩ := (Abbreviates.other_cons_iff rfl).mp after
      obtain ⟨item, tail, rfl, right, later⟩ := Abbreviates.number_cons_iff.mp operand
      have joined := (Abbreviates.number_iff.mp left).join picked right applied
      simpa using induction (earlier.push (.single joined)) later

theorem combine_sound {level : Level} {short long result : List Token}
    (whole : Abbreviates (Derives env level.item) short long)
    (combined : combine level.joins short = .ok result) :
    Abbreviates (Derives env (.chain level)) result long := by
  have before : Abbreviates (Derives env (.chain level)) (List.reverse []) [] := .nil
  exact abbreviates_of_combines (combines_of_ok combined) before whole

/-- Operands and the operators of a level in turn, starting and ending with an operand. -/
inductive Alternates (allowed : Operator → Prop) : List Token → Prop where
  | single (value : Value) : Alternates allowed [.number value]
  | snoc {front : List Token} {op : Operator} (start : Alternates allowed front)
      (allows : allowed op) (value : Value) :
      Alternates allowed (front ++ [.operator op, .number value])

theorem Alternates.arithmetic {allowed : Operator → Prop} {tokens : List Token}
    (alternates : Alternates allowed tokens) : Arithmetic allowed tokens := by
  induction alternates with
  | single value => exact .cons_number .nil
  | snoc _ allows value induction =>
      exact induction.append (.cons_operator allows (.cons_number .nil))

theorem exists_combineFrom {level : Level} {value : Value} {long : List Token}
    (derived : Derives env (.chain level) value long) :
    ∃ items, Abbreviates (Derives env level.item) items long ∧
      Alternates (level.joins · = true) items ∧
      ∀ written afterNumber rest, combineFrom level.joins written afterNumber (items ++ rest) =
        combineFrom level.joins (.number value :: written) true rest := by
  induction derived using Derives.chain_induction with
  | @first value tokens item =>
      refine ⟨[.number value], .single item, .single value, ?_⟩
      intro written afterNumber rest
      exact combineFrom_number written rest value afterNumber
  | @join op lhs rhs value front tokens joins left right applied induction =>
      obtain ⟨items, whole, alternates, steps⟩ := induction
      refine ⟨items ++ [.operator op, .number rhs], whole.append (.other rfl (.single right)),
        alternates.snoc joins rhs, ?_⟩
      intro written afterNumber rest
      rw [List.append_assoc, steps]
      exact combineFrom_join joins applied written rest

theorem exists_combine {level : Level} {short long : List Token} {allowed : Operator → Prop}
    (plain : Arithmetic allowed short) (excluded : ∀ op, allowed op → level.joins op = false)
    (whole : Abbreviates (Derives env (.chain level)) short long) :
    ∃ items, Abbreviates (Derives env level.item) items long ∧
      Arithmetic (fun op => level.joins op = true ∨ allowed op) items ∧
      combine level.joins items = .ok short := by
  suffices general : ∃ items, Abbreviates (Derives env level.item) items long ∧
      Arithmetic (fun op => level.joins op = true ∨ allowed op) items ∧
      ∀ written afterNumber,
        combineFrom level.joins written afterNumber items = .ok (written.reverse ++ short) by
    obtain ⟨items, stands, arithmetic, steps⟩ := general
    exact ⟨items, stands, arithmetic, steps [] false⟩
  refine exists_of_pass (fun items short => ∀ written afterNumber,
    combineFrom level.joins written afterNumber items = .ok (written.reverse ++ short)) ?_ ?_ ?_
      plain whole
  · intro written afterNumber
    simp [combineFrom]
  · intro value segment derived
    obtain ⟨front, abbreviates, alternates, steps⟩ := exists_combineFrom derived
    refine ⟨front, abbreviates, alternates.arithmetic,
      fun items short after written afterNumber => ?_⟩
    rw [steps, after]
    simp
  · intro op items short allows after written afterNumber
    rw [combineFrom_skip (by simp [excluded op allows]), after]
    simp

/-! ## Negations -/

theorem negationsFrom_sound {short long : List Token} (afterOperator : Bool)
    (whole : Abbreviates (Derives env (.chain .product)) short long) :
    Abbreviates (Derives env .signed) (negationsFrom afterOperator short) long := by
  fun_induction negationsFrom afterOperator short generalizing long with
  | case1 =>
      obtain rfl := Abbreviates.nil_iff.mp whole
      exact .nil
  | case2 value rest induction =>
      obtain ⟨_, rfl, product⟩ := (Abbreviates.other_cons_iff rfl).mp whole
      obtain ⟨segment, tail, rfl, stands, later⟩ := Abbreviates.number_cons_iff.mp product
      exact .number stands.negated (induction later)
  | case3 afterOperator token rest _ induction =>
      obtain ⟨segment, tail, rfl, first, later⟩ := whole.cons_imp fun _ _ => Derives.unsigned
      exact first.append (induction later)

/-- Where an operand is expected, the pass over negations finds a signed product. -/
theorem exists_negation {value : Value} {long : List Token}
    (derived : Derives env .signed value long) :
    ∃ product, Abbreviates (Derives env (.chain .product)) product long ∧
      Arithmetic (Level.sum.joins · = true) product ∧
      ∀ rest, negationsFrom true (product ++ rest) = .number value :: negationsFrom false rest := by
  rcases derived.signed_cases with product | ⟨number, product, rfl, rfl, derivedProduct⟩
  · refine ⟨[.number value], .single product, .cons_number .nil, ?_⟩
    intro rest
    simp [negationsFrom, Token.isOperator]
  · refine ⟨[.operator .sub, .number number], .other rfl (.single derivedProduct),
      .cons_operator (by rfl) (.cons_number .nil), ?_⟩
    intro rest
    simp [negationsFrom]

theorem exists_negations {short long : List Token}
    (alternates : Alternates (Level.sum.joins · = true) short)
    (whole : Abbreviates (Derives env .signed) short long) :
    ∃ products, Abbreviates (Derives env (.chain .product)) products long ∧
      Arithmetic (Level.sum.joins · = true) products ∧ negations products = short := by
  suffices general : ∃ products, Abbreviates (Derives env (.chain .product)) products long ∧
      Arithmetic (Level.sum.joins · = true) products ∧
      ∀ rest, negationsFrom true (products ++ rest) = short ++ negationsFrom false rest by
    obtain ⟨products, stands, arithmetic, steps⟩ := general
    exact ⟨products, stands, arithmetic, by simpa [negations, negationsFrom] using steps []⟩
  induction alternates generalizing long with
  | single value => simpa using exists_negation (Abbreviates.number_iff.mp whole)
  | @snoc front op _ allows value induction =>
      obtain ⟨start, _, rfl, wholeFront, last⟩ := (Abbreviates.append_other_cons_iff rfl).mp whole
      obtain ⟨products, stands, arithmetic, steps⟩ := induction wholeFront
      obtain ⟨product, standsLast, arithmeticLast, stepsLast⟩ :=
        exists_negation (Abbreviates.number_iff.mp last)
      refine ⟨products ++ .operator op :: product, stands.append (.other rfl standsLast),
        arithmetic.append (.cons_operator allows arithmeticLast), ?_⟩
      intro rest
      have sign : negationsFrom false (.operator op :: (product ++ rest)) =
          .operator op :: negationsFrom true (product ++ rest) := by
        simp [negationsFrom, Token.isOperator]
      rw [List.append_assoc, List.cons_append, steps, sign, stepsLast]
      simp

/-! ## All passes -/

theorem arithmetic_of_calculate {tokens : List Token} {value : Value}
    (calculated : calculate tokens = .ok value) : Arithmetic (fun _ => True) tokens := by
  simp only [calculate, Outcome.bind_eq_ok, result_eq_ok] at calculated
  obtain ⟨afterPowers, powered, afterProducts, multiplied, _, added, rfl⟩ := calculated
  intro token member
  by_contra neither
  simp only [not_or, not_exists, not_and, Bool.not_eq_true] at neither
  obtain ⟨number, operator⟩ := neither
  have noOperator : token.isOperator = false := by
    cases token <;> simp_all [Token.isOperator]
  have kept : token ∈ factorials tokens := mem_factorialsFrom number noOperator (.inr member)
  have kept := (combines_of_ok powered).mem number noOperator (.inr kept)
  have kept := (combines_of_ok multiplied).mem number noOperator (.inr kept)
  have kept := mem_negationsFrom true number noOperator kept
  have kept := (combines_of_ok added).mem number noOperator (.inr kept)
  obtain rfl := List.mem_singleton.mp kept
  simp [Token.isNumber] at number

/-- A bracket that is left over outlasts all passes. -/
theorem opening_notMem_of_calculate {tokens : List Token} {value : Value}
    (calculated : calculate tokens = .ok value) (shape : Bracket) : .opening shape ∉ tokens := by
  intro member
  obtain number | ⟨op, operator, -⟩ := arithmetic_of_calculate calculated _ member
  · cases number
  · cases operator

/-- What is calculated from values of atoms is derived. -/
theorem derives_of_calculate {short long : List Token} {value : Value}
    (whole : Abbreviates (Derives env .atom) short long)
    (calculated : calculate short = .ok value) : Derives env .sum value long := by
  simp only [calculate, Outcome.bind_eq_ok, result_eq_ok] at calculated
  obtain ⟨afterPowers, powered, afterProducts, multiplied, _, added, rfl⟩ := calculated
  have chains : Abbreviates (Derives env (.chain .power)) afterPowers long :=
    combine_sound (factorials_sound whole) powered
  have chains : Abbreviates (Derives env (.chain .product)) afterProducts long :=
    combine_sound chains multiplied
  have signs := negationsFrom_sound true chains
  have sum : Abbreviates (Derives env .sum) [.number value] long := combine_sound signs added
  simpa using sum

/-- What is derived is calculated from the values of its atoms. -/
theorem exists_calculate {long : List Token} {value : Value}
    (derived : Derives env .sum value long) :
    ∃ atoms, Abbreviates (Derives env .atom) atoms long ∧ Arithmetic (fun _ => True) atoms ∧
      calculate atoms = .ok value := by
  obtain ⟨signs, standsSigned, alternates, added⟩ := exists_combineFrom derived
  obtain ⟨afterProducts, standsProduct, arithmetic, negated⟩ :=
    exists_negations alternates standsSigned
  obtain ⟨afterPowers, standsPower, arithmetic, multiplied⟩ :=
    exists_combine arithmetic (by rintro op; cases op <;> decide) standsProduct
  obtain ⟨afterFactorials, standsFactor, arithmetic, powered⟩ :=
    exists_combine arithmetic (by rintro op; cases op <;> decide) standsPower
  obtain ⟨atoms, standsAtom, arithmetic, factored⟩ :=
    exists_factorials arithmetic (by decide) standsFactor
  refine ⟨atoms, standsAtom, arithmetic.imp fun _ _ => trivial, ?_⟩
  simp only [calculate, Outcome.bind_eq_ok, result_eq_ok, factored]
  refine ⟨afterPowers, powered, afterProducts, multiplied, [.number value], ?_, rfl⟩
  rw [negated]
  calc
    sums signs = combineFrom Level.sum.joins [] false (signs ++ []) := by rw [List.append_nil]; rfl
    _ = combineFrom Level.sum.joins [.number value] true [] := added [] false []
    _ = .ok [.number value] := by rw [combineFrom]; rfl

end Grammar
end Reckoner
