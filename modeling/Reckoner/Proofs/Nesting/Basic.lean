import Mathlib.Tactic.Common
import Reckoner.Token.Basic

/-!
# Nested brackets

A token sequence is well nested if its brackets are matched in pairs of one shape and every pair
lies inside or outside every other.  A walk that keeps a stack of the open brackets decides this.
-/

namespace Reckoner

namespace Token

/-- Whether a token is a bracket. -/
def isBracket : Token → Bool
  | opening _ => true
  | closing _ => true
  | _ => false

variable {token : Token}

theorem ne_opening (noBracket : token.isBracket = false) (shape : Bracket) :
    token ≠ .opening shape := by
  rintro rfl
  cases noBracket

theorem ne_closing (noBracket : token.isBracket = false) (shape : Bracket) :
    token ≠ .closing shape := by
  rintro rfl
  cases noBracket

end Token

/-- Token sequences whose brackets are properly nested. -/
inductive WellNested : List Token → Prop where
  | nil : WellNested []
  | plain {token : Token} {rest : List Token} (noBracket : token.isBracket = false)
      (tail : WellNested rest) : WellNested (token :: rest)
  | group (shape : Bracket) {inner rest : List Token} (inside : WellNested inner)
      (tail : WellNested rest) :
      WellNested (.opening shape :: (inner ++ .closing shape :: rest))

namespace WellNested

variable {left right middle tokens inner rest : List Token}

theorem single {token : Token} (noBracket : token.isBracket = false) : WellNested [token] :=
  .plain noBracket .nil

theorem bracketed (shape : Bracket) (inside : WellNested inner) :
    WellNested (.opening shape :: (inner ++ [.closing shape])) :=
  .group shape inside .nil

theorem append (first : WellNested left) (second : WellNested right) :
    WellNested (left ++ right) := by
  induction first with
  | nil => exact second
  | plain noBracket _ induction => exact .plain noBracket induction
  | group shape inside _ _ induction =>
      rw [List.cons_append, List.append_assoc, List.cons_append]
      exact .group shape inside induction

/-- A sequence that starts with a group is divided before the group, inside it or behind it. -/
theorem split_cases {shape : Bracket}
    (same : left ++ right = .opening shape :: (inner ++ .closing shape :: rest)) :
    left = [] ∨
      (∃ front back, left = .opening shape :: front ∧ inner = front ++ back ∧
        right = back ++ .closing shape :: rest) ∨
      ∃ front, left = .opening shape :: (inner ++ .closing shape :: front) ∧
        rest = front ++ right := by
  rcases left with - | ⟨first, left⟩
  · exact .inl rfl
  · rw [List.cons_append, List.cons.injEq] at same
    obtain ⟨rfl, same⟩ := same
    rcases List.append_eq_append_iff.mp same with ⟨back, rfl, rfl⟩ | ⟨front, rfl, behind⟩
    · exact .inr (.inl ⟨left, back, rfl, rfl, rfl⟩)
    · rcases front with - | ⟨closing, front⟩
      · exact .inr (.inl ⟨inner, [], by simp, by simp, behind.symm⟩)
      · rw [List.cons_append, List.cons.injEq] at behind
        obtain ⟨rfl, rfl⟩ := behind
        exact .inr (.inr ⟨front, rfl, rfl⟩)

theorem insert (nested : WellNested (left ++ right)) (between : WellNested middle) :
    WellNested (left ++ middle ++ right) := by
  generalize whole : left ++ right = tokens at nested
  induction nested generalizing left right with
  | nil =>
      obtain ⟨rfl, rfl⟩ := List.append_eq_nil_iff.mp whole
      simpa using between
  | plain noBracket tail induction =>
      rcases left with - | ⟨first, left⟩
      · subst whole
        exact between.append (.plain noBracket tail)
      · rw [List.cons_append, List.cons.injEq] at whole
        obtain ⟨rfl, rest⟩ := whole
        exact .plain noBracket (induction rest)
  | group shape inside tail insideInduction tailInduction =>
      rcases split_cases whole with rfl | ⟨front, back, rfl, rfl, rfl⟩ | ⟨front, rfl, rfl⟩
      · subst whole
        exact between.append (.group shape inside tail)
      · have inserted := @insideInduction front back rfl
        simpa using group shape inserted tail
      · have inserted := @tailInduction front right rfl
        simpa using group shape inside inserted

/-! ## Deciding with a stack -/

/-- Whether a sequence closes the brackets that are open, the latest of them first, and all of its
own. -/
def closes : List Bracket → List Token → Bool
  | opened, [] => opened.isEmpty
  | opened, .opening shape :: rest => closes (shape :: opened) rest
  | [], .closing _ :: _ => false
  | last :: opened, .closing shape :: rest => last == shape && closes opened rest
  | opened, _ :: rest => closes opened rest

theorem closes_plain {token : Token} (noBracket : token.isBracket = false) (opened : List Bracket)
    (rest : List Token) : closes opened (token :: rest) = closes opened rest := by
  cases token with
  | opening => cases noBracket
  | closing => cases noBracket
  | _ => cases opened <;> rfl

theorem closes_append (nested : WellNested left) (opened : List Bracket) :
    closes opened (left ++ right) = closes opened right := by
  induction nested generalizing opened right with
  | nil => rfl
  | plain noBracket _ induction => rw [List.cons_append, closes_plain noBracket, induction]
  | group shape _ _ inside tail =>
      rw [List.cons_append, List.append_assoc, closes, inside, List.cons_append, closes, tail]
      simp

theorem closes_opening (opened : List Bracket) :
    closes [] (opened.reverse.map Token.opening ++ tokens) = closes opened tokens := by
  induction opened generalizing tokens with
  | nil => rfl
  | cons last opened induction => simpa [closes] using @induction (.opening last :: tokens)

theorem closes_iff (opened : List Bracket) :
    closes opened tokens = true ↔ WellNested (opened.reverse.map Token.opening ++ tokens) := by
  constructor
  · intro closed
    induction tokens generalizing opened with
    | nil =>
        obtain rfl := List.isEmpty_iff.mp closed
        exact .nil
    | cons token rest induction =>
        cases token with
        | opening shape => simpa using induction (shape :: opened) closed
        | closing shape =>
            rcases opened with - | ⟨last, opened⟩
            · cases closed
            · simp only [closes, Bool.and_eq_true, beq_iff_eq] at closed
              obtain ⟨rfl, closed⟩ := closed
              simpa using (induction opened closed).insert (bracketed last .nil)
        | _ =>
            rw [closes_plain rfl] at closed
            simpa using (induction opened closed).insert (single rfl)
  · intro nested
    have whole := @closes_append _ [] nested []
    rw [List.append_nil, closes_opening] at whole
    exact whole

theorem iff_closes : WellNested tokens ↔ closes [] tokens = true :=
  (closes_iff []).symm

instance : DecidablePred WellNested := fun _ => decidable_of_iff _ iff_closes.symm

/-! ## Open brackets -/

/-- How many more brackets open than close in a sequence. -/
def excess : List Token → Int
  | [] => 0
  | .opening _ :: rest => excess rest + 1
  | .closing _ :: rest => excess rest - 1
  | _ :: rest => excess rest

theorem excess_plain {token : Token} (noBracket : token.isBracket = false) (rest : List Token) :
    excess (token :: rest) = excess rest := by
  cases token with
  | opening => cases noBracket
  | closing => cases noBracket
  | _ => rfl

@[simp]
theorem excess_append (left right : List Token) :
    excess (left ++ right) = excess left + excess right := by
  induction left with
  | nil => simp [excess]
  | cons token left induction =>
      cases token <;> simp only [List.cons_append, excess, induction] <;> omega

theorem excess_eq_zero (nested : WellNested tokens) : excess tokens = 0 := by
  induction nested with
  | nil => rfl
  | plain noBracket _ induction => rw [excess_plain noBracket, induction]
  | group shape _ _ inside tail =>
      rw [excess, excess_append, excess, inside, tail]
      rfl

/-- No beginning of a well-nested sequence closes more than it opens. -/
theorem excess_nonneg (nested : WellNested (left ++ right)) : 0 ≤ excess left := by
  generalize whole : left ++ right = tokens at nested
  induction nested generalizing left right with
  | nil =>
      obtain ⟨rfl, -⟩ := List.append_eq_nil_iff.mp whole
      exact Int.le_refl 0
  | plain noBracket _ induction =>
      rcases left with - | ⟨first, left⟩
      · exact Int.le_refl 0
      · rw [List.cons_append, List.cons.injEq] at whole
        obtain ⟨rfl, rest⟩ := whole
        rw [excess_plain noBracket]
        exact induction rest
  | group shape inside _ insideInduction tailInduction =>
      rcases split_cases whole with rfl | ⟨front, back, rfl, rfl, rfl⟩ | ⟨front, rfl, rfl⟩
      · exact Int.le_refl 0
      · have := @insideInduction front back rfl
        rw [excess]
        omega
      · have := @tailInduction front right rfl
        rw [excess, excess_append, excess, inside.excess_eq_zero]
        omega

/-- The bracket that closes the first one is determined. -/
theorem group_unique {shape : Bracket} {inner' rest' : List Token} (inside : WellNested inner)
    (inside' : WellNested inner')
    (same : inner ++ .closing shape :: rest = inner' ++ .closing shape :: rest') :
    inner = inner' ∧ rest = rest' := by
  -- A longer sequence would have a beginning that closes more than it opens.
  have exceeds : ∀ {front back : List Token}, WellNested front →
      WellNested (front ++ .closing shape :: back) → False := by
    intro front back shorter longer
    rw [List.append_cons] at longer
    have := longer.excess_nonneg
    rw [excess_append, shorter.excess_eq_zero] at this
    simp [excess] at this
  rcases List.append_eq_append_iff.mp same with ⟨back, rfl, behind⟩ | ⟨back, rfl, behind⟩
  · rcases back with - | ⟨first, back⟩
    · simpa using behind
    · rw [List.cons_append, List.cons.injEq] at behind
      obtain ⟨rfl, -⟩ := behind
      exact (exceeds inside inside').elim
  · rcases back with - | ⟨first, back⟩
    · simpa using behind.symm
    · rw [List.cons_append, List.cons.injEq] at behind
      obtain ⟨rfl, -⟩ := behind
      exact (exceeds inside' inside).elim

end WellNested
end Reckoner
