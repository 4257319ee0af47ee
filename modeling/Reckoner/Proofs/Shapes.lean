import Reckoner.Proofs.Comparison.Scope
import Reckoner.Proofs.Grammar.Descent
import Reckoner.Proofs.Value

/-!
# Shapes of arithmetic

The lengths of its numbers alone decide whether an expression of numbers, operators and brackets has
a value, and how long the value is.  In which order the passes combine the numbers does not matter:
scalars take on every length, and two other lengths never become one.
-/

namespace Reckoner

/-! ## Lengths of operands -/

/-- Lengths that go together: those that are not one are the same. -/
def LengthsAgree (lengths : List Nat) : Prop :=
  ∀ left ∈ lengths, ∀ right ∈ lengths, left ≠ 1 → right ≠ 1 → left = right

theorem LengthsAgree.of_subset {lengths others : List Nat} (agree : LengthsAgree lengths)
    (subset : others ⊆ lengths) : LengthsAgree others :=
  fun left leftMember right rightMember =>
    agree left (subset leftMember) right (subset rightMember)

/-- Lengths that go together in the given length, which is one only if all of them are. -/
structure LengthsJoin (lengths : List Nat) (length : Nat) : Prop where
  member : length ≠ 1 → length ∈ lengths
  only : ∀ other ∈ lengths, other ≠ 1 → other = length

namespace LengthsJoin

variable {lengths others : List Nat} {left right length : Nat}

theorem singleton (length : Nat) : LengthsJoin [length] length where
  member _ := List.mem_singleton_self length
  only _ member _ := List.mem_singleton.mp member

theorem agree (joins : LengthsJoin lengths length) : LengthsAgree lengths :=
  fun left leftMember right rightMember leftMany rightMany =>
    (joins.only left leftMember leftMany).trans (joins.only right rightMember rightMany).symm

theorem eq_one (joins : LengthsJoin lengths length) (ones : ∀ other ∈ lengths, other = 1) :
    length = 1 := by
  by_contra many
  exact many (ones length (joins.member many))

/-- Operands whose lengths broadcast join in the length of the result. -/
theorem append (first : LengthsJoin lengths left) (second : LengthsJoin others right)
    (broadcasts : Value.Broadcasts left right length) : LengthsJoin (lengths ++ others) length where
  member := by
    intro many
    rw [List.mem_append]
    cases broadcasts with
    | same => exact .inl (first.member many)
    | left => exact .inr (second.member many)
    | right => exact .inl (first.member many)
  only := by
    intro other member many
    rcases List.mem_append.mp member with inFirst | inSecond
    · have same := first.only other inFirst many
      cases broadcasts with
      | same => exact same
      | left => exact absurd same many
      | right => exact same
    · have same := second.only other inSecond many
      cases broadcasts with
      | same => exact same
      | left => exact same
      | right => exact absurd same many

/-- Operands whose lengths go together join in lengths that are the same if neither is one. -/
theorem eq_of_agree (first : LengthsJoin lengths left) (second : LengthsJoin others right)
    (agree : LengthsAgree (lengths ++ others)) (leftMany : left ≠ 1) (rightMany : right ≠ 1) :
    left = right :=
  agree left (List.mem_append_left _ (first.member leftMany)) right
    (List.mem_append_right _ (second.member rightMany)) leftMany rightMany

end LengthsJoin

namespace Token

/-- Whether a token can stand in an expression without names and arrays. -/
def isArithmetic : Token → Bool
  | number _ | operator _ | opening .round | closing .round => true
  | _ => false

/-- The length of a number. -/
def length? : Token → Option Nat
  | number value => some value.length
  | _ => none

/-- A number with its value changed, and every other token as it is. -/
def mapNumber (f : Value → Value) : Token → Token
  | number value => number (f value)
  | token => token

@[simp]
theorem isArithmetic_mapNumber (f : Value → Value) (token : Token) :
    (token.mapNumber f).isArithmetic = token.isArithmetic := by
  cases token <;> rfl

theorem mapNumber_id : mapNumber id = id := by
  funext token
  cases token <;> rfl

end Token

/-- The lengths of the numbers in a token sequence. -/
def operandLengths (tokens : List Token) : List Nat := tokens.filterMap Token.length?

section OperandLengths

variable (front tokens : List Token)

@[simp]
theorem operandLengths_append :
    operandLengths (front ++ tokens) = operandLengths front ++ operandLengths tokens :=
  List.filterMap_append

@[simp]
theorem operandLengths_nil : operandLengths [] = [] := rfl

@[simp]
theorem operandLengths_opening (shape : Bracket) :
    operandLengths (.opening shape :: tokens) = operandLengths tokens := rfl

@[simp]
theorem operandLengths_closing (shape : Bracket) :
    operandLengths (.closing shape :: tokens) = operandLengths tokens := rfl

@[simp]
theorem operandLengths_operator (op : Operator) :
    operandLengths (.operator op :: tokens) = operandLengths tokens := rfl

theorem mem_operandLengths {length : Nat} :
    length ∈ operandLengths tokens ↔ ∃ value, .number value ∈ tokens ∧ value.length = length := by
  rw [operandLengths, List.mem_filterMap]
  constructor
  · rintro ⟨token, member, same⟩
    cases token with
    | number value => exact ⟨value, member, Option.some.inj same⟩
    | _ => cases same
  · rintro ⟨value, member, rfl⟩
    exact ⟨_, member, rfl⟩

theorem eq_one_of_mem_scalars {x : Float} {length : Nat}
    (member : length ∈ operandLengths (tokens.map (Token.mapNumber fun _ => .scalar x))) :
    length = 1 := by
  obtain ⟨value, number, rfl⟩ := (mem_operandLengths _).mp member
  obtain ⟨token, -, same⟩ := List.mem_map.mp number
  cases token <;> cases same
  rfl

end OperandLengths

namespace Grammar

variable {env : Environment}

theorem Level.binary {level : Level} {op : Operator} (joins : level.joins op = true) :
    op ≠ .factorial := by
  rintro rfl
  cases level <;> cases joins

theorem joins_hereditary (env : Environment) :
    Hereditary env
      (fun _ value tokens => (∀ token ∈ tokens, token.isArithmetic = true) →
        LengthsJoin (operandLengths tokens) value.length)
      fun _ _ => True where
  number value _ := .singleton value.length
  variableName _ plain := by simp [Token.isArithmetic] at plain
  array _ _ plain := by simp [Token.isArithmetic] at plain
  operand operand := operand
  group _ inner plain := by
    simp only [List.forall_mem_cons, List.forall_mem_append] at plain
    simpa using inner plain.2.1
  emptyCall _ plain := by simp [Token.isArithmetic] at plain
  listCall _ _ _ plain := by simp [Token.isArithmetic] at plain
  bareCall _ _ plain := by simp [Token.isArithmetic] at plain
  atom atom := atom
  factorial argument plain := by
    rw [Value.factorial, Value.length_filterMap]
    rw [List.forall_mem_append] at plain
    simpa using argument plain.1
  unsigned product := product
  negated product plain := by
    rw [Value.neg, Value.length_map]
    exact product (List.forall_mem_cons.mp plain).2
  first item := item
  join {_ op lhs rhs _ _ _} joins left right applied plain := by
    simp only [List.forall_mem_cons, List.forall_mem_append] at plain
    obtain ⟨f, broadcasts⟩ := Value.exists_apply_eq_broadcast (Level.binary joins)
    rw [broadcasts] at applied
    obtain ⟨_, done, lengths⟩ | ⟨-, -, -, failed⟩ := Value.broadcast_cases f lhs rhs
    · cases done.symm.trans applied
      simpa using
        (left plain.1).append (right plain.2.2) lengths
    · cases failed.symm.trans applied
  last _ := trivial
  more _ _ := trivial

/-- A phrase of numbers whose lengths go together has a value, whatever the numbers are. -/
theorem exists_derives_mapNumber (f : Value → Value) {category : Category}
    (phrase : Phrase category)
    (plain : ∀ token ∈ phrase.tokens, token.isArithmetic = true)
    (agree : LengthsAgree (operandLengths (phrase.tokens.map (Token.mapNumber f)))) :
    ∃ value, Derives env category value (phrase.tokens.map (Token.mapNumber f)) := by
  cases phrase with
  | number value => exact ⟨f value, .number⟩
  | variableName => simp [Phrase.tokens, Token.isArithmetic] at plain
  | array => simp [Phrase.tokens, Token.isArithmetic] at plain
  | operand operand =>
      obtain ⟨value, derived⟩ := exists_derives_mapNumber f operand plain agree
      exact ⟨value, derived.operand⟩
  | group inner =>
      simp only [Phrase.tokens, List.forall_mem_cons, List.forall_mem_append] at plain
      obtain ⟨value, derived⟩ := exists_derives_mapNumber f inner plain.2.1
        (by simpa [Phrase.tokens, Token.mapNumber] using agree)
      exact ⟨value, by simpa [Phrase.tokens, Token.mapNumber] using derived.group⟩
  | emptyCall => simp [Phrase.tokens, Token.isArithmetic] at plain
  | listCall => simp [Phrase.tokens, Token.isArithmetic] at plain
  | bareCall => simp [Phrase.tokens, Token.isArithmetic] at plain
  | atom atom =>
      obtain ⟨value, derived⟩ := exists_derives_mapNumber f atom plain agree
      exact ⟨value, derived.atom⟩
  | factorial argument =>
      simp only [Phrase.tokens, List.forall_mem_append] at plain
      obtain ⟨value, derived⟩ := exists_derives_mapNumber f argument plain.1
        (by simpa [Phrase.tokens, Token.mapNumber] using agree)
      exact ⟨_, by simpa [Phrase.tokens, Token.mapNumber] using derived.factorial⟩
  | unsigned product =>
      obtain ⟨value, derived⟩ := exists_derives_mapNumber f product plain agree
      exact ⟨value, derived.unsigned⟩
  | negated product =>
      obtain ⟨value, derived⟩ := exists_derives_mapNumber f product
        (List.forall_mem_cons.mp plain).2 agree
      exact ⟨_, derived.negated⟩
  | first level item =>
      obtain ⟨value, derived⟩ := exists_derives_mapNumber f item plain agree
      exact ⟨value, derived.first⟩
  | join level front op joins item =>
      simp only [Phrase.tokens, List.forall_mem_cons, List.forall_mem_append] at plain
      simp only [Phrase.tokens, List.map_append, List.map_cons, Token.mapNumber,
        operandLengths_append, operandLengths_operator] at agree ⊢
      obtain ⟨lhs, left⟩ := exists_derives_mapNumber f front plain.1
        (agree.of_subset (List.subset_append_left _ _))
      obtain ⟨rhs, right⟩ := exists_derives_mapNumber f item plain.2.2
        (agree.of_subset (List.subset_append_right _ _))
      have leftJoins := (joins_hereditary env).derives left (by simpa using plain.1)
      have rightJoins := (joins_hereditary env).derives right (by simpa using plain.2.2)
      obtain ⟨g, broadcasts⟩ := Value.exists_apply_eq_broadcast (Level.binary joins)
      obtain ⟨value, done, -⟩ | ⟨different, leftMany, rightMany, -⟩ :=
        Value.broadcast_cases g lhs rhs
      · exact ⟨value, left.join joins right (by rw [broadcasts, done])⟩
      · exact absurd (leftJoins.eq_of_agree rightJoins agree leftMany rightMany) different

end Grammar

/-! ## Faults -/

/-- A mismatch of two different lengths out of those given, neither of which is one. -/
def Fault.MismatchOf (lengths : List Nat) (fault : Fault) : Prop :=
  ∃ left ∈ lengths, ∃ right ∈ lengths,
    left ≠ right ∧ left ≠ 1 ∧ right ≠ 1 ∧ fault = .shapeMismatch left right

namespace Comparison

open Outcome

variable {lengths : List Nat}

/-- The first value is a scalar, and the second is one or has one of the given lengths. -/
def ScalarOrIn (lengths : List Nat) (value value' : Value) : Prop :=
  value.length = 1 ∧ (value'.length = 1 ∨ value'.length ∈ lengths)

/-- Scalars broadcast, and what values of given lengths broadcast to has one of these lengths. -/
theorem agree_broadcast (f : Float → Float → Float) {lhs lhs' rhs rhs' : Value}
    (left : ScalarOrIn lengths lhs lhs') (right : ScalarOrIn lengths rhs rhs') :
    Outcome.Agree (fun _ => True) (Fault.MismatchOf lengths) (ScalarOrIn lengths)
      (Value.broadcast f lhs rhs) (Value.broadcast f lhs' rhs') := by
  obtain ⟨single, done, scalars⟩ | ⟨-, many, -, -⟩ := Value.broadcast_cases f lhs rhs
  · rw [left.1, right.1] at scalars
    have one : single.length = 1 := by
      generalize single.length = length at scalars
      cases scalars <;> rfl
    obtain ⟨value, done', broadcasts⟩ | ⟨different, leftMany, rightMany, failed⟩ :=
      Value.broadcast_cases f lhs' rhs'
    · rw [done, done']
      refine .ok ⟨one, ?_⟩
      have leftIn := left.2
      have rightIn := right.2
      generalize lhs'.length = l, rhs'.length = r, value.length = n at *
      cases broadcasts <;> assumption
    · rw [failed]
      exact .refused ⟨_, left.2.resolve_left leftMany, _, right.2.resolve_left rightMany,
        different, leftMany, rightMany, rfl⟩
  · exact absurd left.1 many

/-- The comparison of a run on scalars with a run on values of given lengths. -/
def scalarRun (lengths : List Nat) : Comparison where
  related := ScalarOrIn lengths
  allowed _ := True
  refused := Fault.MismatchOf lengths
  arrays := False
  apply op binary := by
    intro lhs lhs' rhs rhs' left right
    obtain ⟨f, broadcasts⟩ := Value.exists_apply_eq_broadcast binary
    rw [broadcasts, broadcasts]
    exact agree_broadcast f left right
  factorial argument := by
    simpa only [ScalarOrIn, Value.factorial, Value.length_filterMap] using argument
  neg argument := by
    simpa only [ScalarOrIn, Value.neg, Value.length_map] using argument
  array impossible := impossible.elim
  builtin f name := by
    intro args args' all
    have defined : ∀ value value', ScalarOrIn lengths value value' →
        ScalarOrIn lengths (Builtin.defined value) (Builtin.defined value') := by
      intro value value' related
      simpa only [ScalarOrIn, Builtin.defined, Value.length_filterMap] using related
    rcases f.arguments_cases args with ⟨x, rfl⟩ | ⟨rfl, x, base, rfl⟩ | ⟨notOne, notTwo⟩
    · cases all with
      | cons argument none =>
          cases none
          rw [Builtin.call_single, Builtin.call_single]
          refine .ok (defined _ _ ?_)
          simpa only [ScalarOrIn, Value.length_map] using argument
    · cases all with
      | cons argument others =>
          cases others with
          | cons baseArgument none =>
              cases none
              rw [Builtin.call_log, Builtin.call_log]
              refine (agree_broadcast Builtin.logBase argument baseArgument).bind
                fun _ _ related => ?_
              exact .ok (defined _ _ related)
    · rw [Builtin.call_other name notOne notTwo]
      have lengths := all.length_eq
      rw [Builtin.call_other name (lengths ▸ notOne) (lengths ▸ notTwo), ← lengths]
      exact .error trivial
  raised _ := trivial

theorem matchesAll_scalars {names : Names} {tokens : List Token}
    (plain : ∀ token ∈ tokens, token.isArithmetic = true) :
    (scalarRun (operandLengths tokens)).MatchesAll names
      (tokens.map (Token.mapNumber fun _ => .scalar 0)) tokens := by
  refine List.forall₂_map_left_iff.mpr (List.forall₂_same.mpr fun token member => ?_)
  have arithmetic := plain token member
  cases token with
  | number value => exact .number ⟨rfl, .inr ((mem_operandLengths _).mpr ⟨value, member, rfl⟩)⟩
  | opening shape =>
      cases shape with
      | round => exact .opening nofun
      | square => cases arithmetic
  | closing shape => exact .closing shape
  | operator op => exact .operator op
  | separator => cases arithmetic
  | variableName name => cases arithmetic
  | functionName name => cases arithmetic

end Comparison

namespace Scope

open Grammar

/-- An expression of numbers, operators and round brackets has a value exactly if all lengths of its
numbers other than one are the same, and the value then has this length, or length one if there is
none.  Otherwise two of these lengths do not match. -/
theorem evaluate_shapes (scope : Scope) (phrase : Phrase .sum)
    (plain : ∀ token ∈ phrase.tokens, token.isArithmetic = true) :
    let lengths := operandLengths phrase.tokens
    ((∃ value, scope.evaluate phrase.tokens = .ok value) ↔
        ∀ left ∈ lengths, ∀ right ∈ lengths, left ≠ 1 → right ≠ 1 → left = right) ∧
      (∀ value, scope.evaluate phrase.tokens = .ok value →
        (∀ length ∈ lengths, length ≠ 1 → value.length = length) ∧
          ((∀ length ∈ lengths, length = 1) → value.length = 1)) ∧
      ∀ fault, scope.evaluate phrase.tokens = .error fault →
        ∃ left ∈ lengths, ∃ right ∈ lengths,
          left ≠ right ∧ left ≠ 1 ∧ right ≠ 1 ∧ fault = .shapeMismatch left right := by
  intro lengths
  have joins : ∀ value, scope.evaluate phrase.tokens = .ok value →
      LengthsJoin lengths value.length := fun value evaluated =>
    (joins_hereditary _).derives (evaluate_eq_ok_iff.mp evaluated) plain
  refine ⟨⟨?_, ?_⟩, ?_, ?_⟩
  · rintro ⟨value, evaluated⟩
    exact (joins value evaluated).agree
  · intro agree
    have same : phrase.tokens.map (Token.mapNumber id) = phrase.tokens := by
      rw [Token.mapNumber_id, List.map_id]
    obtain ⟨value, derived⟩ :=
      @exists_derives_mapNumber scope.environment id _ phrase plain (same.symm ▸ agree)
    rw [same] at derived
    exact ⟨value, evaluate_of_derives derived⟩
  · intro value evaluated
    have joined := joins value evaluated
    exact ⟨fun length member many => (joined.only length member many).symm, joined.eq_one⟩
  · intro fault failed
    have ones : LengthsAgree
        (operandLengths (phrase.tokens.map (Token.mapNumber fun _ => .scalar 0))) :=
      fun left member _ _ many _ => absurd (eq_one_of_mem_scalars _ member) many
    obtain ⟨single, derived⟩ := @exists_derives_mapNumber scope.environment _ _ phrase plain ones
    have agree := @Comparison.agree_evaluate_scope _ scope scope _ _
      (Comparison.matchesAll_scalars plain)
    rw [failed, show scope.evaluate _ = .ok single from evaluate_of_derives derived] at agree
    cases agree with
    | refused mismatch => exact mismatch

/-- A pair combines with a scalar inside a bracket and with a pair behind it, but not with a value
without entries. -/
theorem evaluate_shapes_pair :
    let number (value : Value) : Phrase .factor := .atom (.operand (.number value))
    let signed (factor : Phrase .factor) : Phrase .signed :=
      .unsigned (.first .product (.first .power factor))
    let difference (front back : Phrase .factor) : Phrase .sum :=
      .join .sum (.first .sum (signed front)) .sub rfl (signed back)
    let pair : Value := ⟨[some 5, none]⟩
    let group := .atom (.group (difference (number (.scalar 7)) (number pair)))
    let phrase (last : Value) := difference (.factorial group) (number last)
    let scope := Scope.ofTable .empty
    (∀ last, (phrase last).tokens =
        [.opening .round, .number (.scalar 7), .operator .sub, .number pair, .closing .round,
          .operator .factorial, .operator .sub, .number last] ∧
        ∀ token ∈ (phrase last).tokens, token.isArithmetic = true) ∧
      (∃ value, scope.evaluate (phrase pair).tokens = .ok value ∧ value.length = 2) ∧
      scope.evaluate (phrase ⟨[]⟩).tokens = .error (.shapeMismatch 2 0) ∧
      2 ∈ operandLengths (phrase ⟨[]⟩).tokens ∧ 0 ∈ operandLengths (phrase ⟨[]⟩).tokens := by
  intro number signed difference pair group phrase scope
  have plain : ∀ last, ∀ token ∈ (phrase last).tokens, token.isArithmetic = true := by
    intro last
    simp only [phrase, difference, signed, number, group, Phrase.tokens]
    simp [Token.isArithmetic]
  have failed : scope.evaluate (phrase ⟨[]⟩).tokens = .error (.shapeMismatch 2 0) := rfl
  refine ⟨fun last => ⟨rfl, plain last⟩, ?_, failed, ?_⟩
  · obtain ⟨valued, lengths, -⟩ := scope.evaluate_shapes (phrase pair) (plain pair)
    obtain ⟨value, evaluated⟩ := valued.mpr (by decide +kernel)
    exact ⟨value, evaluated, (lengths value evaluated).1 2 (by decide +kernel) (by decide)⟩
  · obtain ⟨-, -, faults⟩ := scope.evaluate_shapes (phrase ⟨[]⟩) (plain ⟨[]⟩)
    obtain ⟨left, leftMember, right, rightMember, -, -, -, same⟩ := faults _ failed
    cases same
    exact ⟨leftMember, rightMember⟩

end Scope
end Reckoner
