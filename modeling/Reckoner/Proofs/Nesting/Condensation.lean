import Reckoner.Proofs.Grammar.Brackets
import Reckoner.Proofs.Nesting.Basic

/-!
# Condensed sequences

Two well-nested sequences, of which the second has a number in some places where the first has a
whole group.  Their brackets are divided alike: a group of the one is a group of the other, with as
many slices, and these are condensed again.
-/

namespace Reckoner

open Evaluation Outline Grammar

/-- The second of two well-nested sequences has values in place of some groups of the first, each of
which the value stands for. -/
inductive Condenses (stands : Value → List Token → Prop) : List Token → List Token → Prop where
  | nil : Condenses stands [] []
  | plain {token : Token} {long short : List Token} (noBracket : token.isBracket = false)
      (tail : Condenses stands long short) : Condenses stands (token :: long) (token :: short)
  | group (shape : Bracket) {inner inner' long short : List Token}
      (inside : Condenses stands inner inner') (tail : Condenses stands long short) :
      Condenses stands (.opening shape :: (inner ++ .closing shape :: long))
        (.opening shape :: (inner' ++ .closing shape :: short))
  | value {shape : Bracket} {inner long short : List Token} {value : Value}
      (inside : WellNested inner)
      (stand : stands value (.opening shape :: (inner ++ [.closing shape])))
      (tail : Condenses stands long short) :
      Condenses stands (.opening shape :: (inner ++ .closing shape :: long))
        (.number value :: short)

namespace Condenses

variable {stands : Value → List Token → Prop} {long short : List Token}

theorem refl {tokens : List Token} (nested : WellNested tokens) :
    Condenses stands tokens tokens := by
  induction nested with
  | nil => exact .nil
  | plain noBracket _ induction => exact .plain noBracket induction
  | group shape _ _ inside tail => exact .group shape inside tail

theorem wellNested (condenses : Condenses stands long short) :
    WellNested long ∧ WellNested short := by
  induction condenses with
  | nil => exact ⟨.nil, .nil⟩
  | plain noBracket _ induction =>
      exact ⟨.plain noBracket induction.1, .plain noBracket induction.2⟩
  | group shape _ _ inside tail =>
      exact ⟨.group shape inside.1 tail.1, .group shape inside.2 tail.2⟩
  | @value shape _ _ _ _ inside _ _ tail =>
      exact ⟨.group shape inside tail.1, .plain rfl tail.2⟩

theorem nil_iff (condenses : Condenses stands long short) : long = [] ↔ short = [] := by
  cases condenses <;> simp

theorem append {long' short' : List Token} (first : Condenses stands long short)
    (second : Condenses stands long' short') :
    Condenses stands (long ++ long') (short ++ short') := by
  induction first with
  | nil => exact second
  | plain noBracket _ induction => exact .plain noBracket induction
  | group shape inside _ _ induction => simpa using group shape inside induction
  | value inside stand _ induction => simpa using value inside stand induction

/-- One group of a well-nested sequence may be condensed wherever it stands. -/
theorem of_wellNested {shape : Bracket} {inner front back : List Token} {value : Value}
    (inside : WellNested inner)
    (stand : stands value (.opening shape :: (inner ++ [.closing shape])))
    (nested : WellNested (front ++ .opening shape :: (inner ++ .closing shape :: back))) :
    Condenses stands (front ++ .opening shape :: (inner ++ .closing shape :: back))
      (front ++ .number value :: back) := by
  generalize whole : front ++ .opening shape :: (inner ++ .closing shape :: back) = tokens at nested
  induction nested generalizing front back with
  | nil => simp at whole
  | @plain token rest noBracket _ induction =>
      rcases front with - | ⟨first, front⟩
      · rw [List.nil_append, List.cons.injEq] at whole
        obtain ⟨rfl, -⟩ := whole
        cases noBracket
      · rw [List.cons_append, List.cons.injEq] at whole
        obtain ⟨rfl, rfl⟩ := whole
        exact .plain noBracket (induction rfl)
  | @group other others rest insideOthers tail insideInduction tailInduction =>
      rcases WellNested.split_cases whole with rfl | ⟨front, behind, rfl, rfl, rest⟩ |
        ⟨front, rfl, rfl⟩
      · rw [List.nil_append, List.cons.injEq, Token.opening.injEq] at whole
        obtain ⟨rfl, same⟩ := whole
        obtain ⟨rfl, rfl⟩ := inside.group_unique insideOthers same
        exact .value inside stand (refl tail)
      · rcases WellNested.split_cases rest.symm with rfl | ⟨opened, closed, rfl, rfl, -⟩ |
          ⟨behind, rfl, rfl⟩
        · cases rest
        · -- The group would overlap the one that is open here.
          have balanced := insideOthers.excess_eq_zero
          have before := insideOthers.excess_nonneg
          have within := inside.excess_nonneg
          rw [WellNested.excess_append, WellNested.excess] at balanced
          omega
        · simpa using group other (@insideInduction front behind rfl) (refl tail)
      · simpa using group other (refl insideOthers) (@tailInduction front _ rfl)

end Condenses

/-! ## Slices -/

/-- Well-nested tokens walk through every open group, except that their separators may split it. -/
theorem WellNested.walks {tokens : List Token} (nested : WellNested tokens) (shape : Bracket) :
    Walks shape false tokens := by
  induction nested with
  | nil => exact fun _ _ _ _ => rfl
  | @plain token rest noBracket _ induction =>
      by_cases separator : token = .separator
      · subst separator
        exact .append .separator induction
      · exact .append (.single (Token.ne_opening noBracket) (Token.ne_closing noBracket) separator)
          induction
  | group bracket _ _ inside tail =>
      simpa using (@Walks.bracketed _ false _ bracket inside).append tail

/-- A slice and its condensed form, both of which every open group takes as they are. -/
structure CondensesSlice (stands : Value → List Token → Prop) (slice slice' : List Token) :
    Prop where
  condenses : Condenses stands slice slice'
  walks (shape : Bracket) : Walks shape true slice
  walks' (shape : Bracket) : Walks shape true slice'

namespace CondensesSlice

variable {stands : Value → List Token → Prop} {left left' right right' inner inner' : List Token}

theorem nil : CondensesSlice stands [] [] :=
  ⟨.nil, fun _ _ _ _ _ => rfl, fun _ _ _ _ _ => rfl⟩

theorem append (first : CondensesSlice stands left left')
    (second : CondensesSlice stands right right') :
    CondensesSlice stands (left ++ right) (left' ++ right') :=
  ⟨first.condenses.append second.condenses,
    fun shape => (first.walks shape).append (second.walks shape),
    fun shape => (first.walks' shape).append (second.walks' shape)⟩

theorem single {token : Token} (noBracket : token.isBracket = false)
    (noSeparator : token ≠ .separator) : CondensesSlice stands [token] [token] := by
  have walks : ∀ shape, Walks shape true [token] := fun _ =>
    .single (Token.ne_opening noBracket) (Token.ne_closing noBracket) noSeparator
  exact ⟨.plain noBracket .nil, walks, walks⟩

theorem bracketed (shape : Bracket) (inside : Condenses stands inner inner') :
    CondensesSlice stands (.opening shape :: (inner ++ [.closing shape]))
      (.opening shape :: (inner' ++ [.closing shape])) :=
  ⟨.group shape inside .nil, fun other => (inside.wellNested.1.walks other).bracketed,
    fun other => (inside.wellNested.2.walks other).bracketed⟩

theorem value {shape : Bracket} {value : Value} (inside : WellNested inner)
    (stand : stands value (.opening shape :: (inner ++ [.closing shape]))) :
    CondensesSlice stands (.opening shape :: (inner ++ [.closing shape])) [.number value] :=
  ⟨.value inside stand .nil, fun other => (inside.walks other).bracketed,
    fun _ => .single (by simp) (by simp) (by simp)⟩

theorem forall_walks {slices slices' : List (List Token)}
    (all : List.Forall₂ (CondensesSlice stands) slices slices') (shape : Bracket) :
    (∀ slice ∈ slices, Walks shape true slice) ∧ ∀ slice ∈ slices', Walks shape true slice := by
  induction all with
  | nil => simp
  | cons first _ induction =>
      simp only [List.forall_mem_cons]
      exact ⟨⟨first.walks shape, induction.1⟩, first.walks' shape, induction.2⟩

end CondensesSlice

/-- Two sequences are cut at their separators into slices that are condensed one by one. -/
def CondensesSlices (stands : Value → List Token → Prop) (long short : List Token) : Prop :=
  ∃ slice slice' slices slices',
    List.Forall₂ (CondensesSlice stands) (slice :: slices) (slice' :: slices') ∧
      long = [.separator].intercalate (slice :: slices) ∧
      short = [.separator].intercalate (slice' :: slices')

namespace CondensesSlices

variable {stands : Value → List Token → Prop} {front front' long short : List Token}

theorem intercalate_append (first second : List Token) (slices : List (List Token)) :
    [Token.separator].intercalate ((first ++ second) :: slices) =
      first ++ [.separator].intercalate (second :: slices) := by
  cases slices <;> simp

/-- What stands in front of the first slice belongs to it. -/
theorem prepend (head : CondensesSlice stands front front')
    (tail : CondensesSlices stands long short) :
    CondensesSlices stands (front ++ long) (front' ++ short) := by
  obtain ⟨slice, slice', slices, slices', all, rfl, rfl⟩ := tail
  obtain ⟨first, rest⟩ := List.forall₂_cons.mp all
  exact ⟨front ++ slice, front' ++ slice', slices, slices', .cons (head.append first) rest,
    (intercalate_append ..).symm, (intercalate_append ..).symm⟩

theorem separator (tail : CondensesSlices stands long short) :
    CondensesSlices stands (.separator :: long) (.separator :: short) := by
  obtain ⟨slice, slice', slices, slices', all, rfl, rfl⟩ := tail
  exact ⟨[], [], slice :: slices, slice' :: slices', .cons .nil all, by simp, by simp⟩

end CondensesSlices

namespace Condenses

variable {stands : Value → List Token → Prop} {long short inner inner' : List Token}

theorem slices (condenses : Condenses stands long short) : CondensesSlices stands long short := by
  induction condenses with
  | nil => exact ⟨[], [], [], [], .cons .nil .nil, rfl, rfl⟩
  | @plain token _ _ noBracket _ induction =>
      by_cases separator : token = .separator
      · subst separator
        exact induction.separator
      · exact induction.prepend (.single noBracket separator)
  | group shape inside _ _ induction =>
      simpa using induction.prepend (.bracketed shape inside)
  | value inside stand _ induction => simpa using induction.prepend (.value inside stand)

theorem exists_group (inside : Condenses stands inner inner') :
    ∃ slices slices',
      List.Forall₂ (fun slice slice' => slice.length ≤ inner.length ∧
        Condenses stands slice slice') slices slices' ∧
      ∀ shape rest,
        remaining shape none (.opening shape :: (inner ++ .closing shape :: rest)) =
            .group slices (remaining shape none rest) ∧
          remaining shape none (.opening shape :: (inner' ++ .closing shape :: rest)) =
            .group slices' (remaining shape none rest) := by
  obtain ⟨slice, slice', slices, slices', all, rfl, rfl⟩ := inside.slices
  have condensed : List.Forall₂ (Condenses stands) (slice :: slices) (slice' :: slices') :=
    all.imp fun _ _ pair => pair.condenses
  refine ⟨slice :: slices, slice' :: slices',
    (List.forall₂_and_left _ _).mpr ⟨fun _ => length_le_intercalate, condensed⟩,
    fun shape rest => ?_⟩
  obtain ⟨walks, walks'⟩ := CondensesSlice.forall_walks all shape
  rw [remaining, if_neg (by simp), if_pos rfl, remaining, if_neg (by simp), if_pos rfl]
  exact ⟨remaining_slices (by simp) walks [] rest, remaining_slices (by simp) walks' [] rest⟩

end Condenses

theorem WellNested.exists_group {inner : List Token} (inside : WellNested inner) :
    ∃ slices, (∀ slice ∈ slices, slice.length ≤ inner.length) ∧
      ∀ shape rest,
        remaining shape none (.opening shape :: (inner ++ .closing shape :: rest)) =
          .group slices (remaining shape none rest) := by
  have alone : Condenses (fun _ _ => False) inner inner := .refl inside
  obtain ⟨slices, slices', all, outlined⟩ := alone.exists_group
  exact ⟨slices, ((List.forall₂_and_left _ _).mp all).1, fun shape rest => (outlined shape rest).1⟩

end Reckoner
