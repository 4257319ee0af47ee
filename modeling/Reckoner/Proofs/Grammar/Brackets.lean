import Reckoner.Proofs.Grammar.Abbreviation
import Reckoner.Proofs.Outline

/-!
# Brackets as phrases

The outline of a derived sequence has its arrays, groups and argument lists for groups.  Filling it
in with the values of their slices leaves a sequence that abbreviates the original, and this is the
only way in which brackets are ever evaluated.
-/

namespace Reckoner
namespace Grammar

open Evaluation Outline

variable {env : Environment}

/-! ## Slices -/

theorem exists_slices (phrases : Phrases) {values : List Value}
    (valued : phrases.values env = some values) :
    ∃ slices, slices ≠ [] ∧ phrases.tokens = [.separator].intercalate slices ∧
      List.Forall₂ (fun slice value => Derives env .sum value slice) slices values := by
  cases phrases with
  | last expression =>
      obtain ⟨value, firstValued, rfl⟩ := Phrases.values_last_eq_some.mp valued
      exact ⟨[expression.tokens], by simp, by simp [Phrases.tokens],
        .cons ⟨expression, rfl, firstValued⟩ .nil⟩
  | more expression others =>
      obtain ⟨value, firstValued, rest, othersValued, rfl⟩ :=
        Phrases.values_more_eq_some.mp valued
      obtain ⟨slices, filled, written, derived⟩ := exists_slices others othersValued
      refine ⟨expression.tokens :: slices, by simp, ?_,
        .cons ⟨expression, rfl, firstValued⟩ derived⟩
      rw [Phrases.tokens, written, List.intercalate_cons_of_ne_nil filled, List.append_assoc,
        List.singleton_append]

/-- A list of expressions is made of slices with separators between them. -/
theorem derivesAll_iff {values : List Value} {tokens : List Token} :
    DerivesAll env values tokens ↔
      ∃ slices, slices ≠ [] ∧ tokens = [.separator].intercalate slices ∧
        List.Forall₂ (fun slice value => Derives env .sum value slice) slices values := by
  constructor
  · rintro ⟨phrases, rfl, valued⟩
    exact exists_slices phrases valued
  · rintro ⟨slices, filled, rfl, derived⟩
    induction derived with
    | nil => exact absurd rfl filled
    | @cons slice value slices values first rest induction =>
        cases rest with
        | nil => simpa using DerivesAll.last first
        | cons next rest =>
            have others := induction (by simp)
            rw [List.intercalate_cons_cons, List.append_assoc, List.singleton_append]
            exact .more first others

theorem DerivesAll.single {value : Value} {tokens : List Token}
    (derived : DerivesAll env [value] tokens) : Derives env .sum value tokens := by
  obtain ⟨slices, -, rfl, expressions⟩ := derivesAll_iff.mp derived
  cases expressions with
  | cons first rest =>
      cases rest
      simpa using first

/-! ## Walking over derived tokens -/

/-- The group after tokens that belong to its current slice and leave its brackets as they were. -/
def extend (group : OpenGroup) (tokens : List Token) : OpenGroup :=
  { group with slice := tokens.reverse ++ group.slice }

/-- The tokens are read into the current slice of an open group, which is then as open as before.
Separators among them only count for groups that do not split. -/
def Walks (shape : Bracket) (splitting : Bool) (tokens : List Token) : Prop :=
  ∀ group rest, 0 ≤ group.balance → (splitting = false → group.splits = false) →
    remaining shape (some group) (tokens ++ rest) =
      remaining shape (some (extend group tokens)) rest

namespace Walks

variable {shape : Bracket} {splitting : Bool} {left right : List Token}

theorem append (first : Walks shape splitting left) (second : Walks shape splitting right) :
    Walks shape splitting (left ++ right) := by
  intro group rest balanced inside
  rw [List.append_assoc, first group _ balanced inside,
    second (extend group left) rest balanced inside]
  simp [extend]

theorem weaken (tokens : Walks shape true left) : Walks shape splitting left :=
  fun group rest balanced _ => tokens group rest balanced (by simp)

theorem single {token : Token} (noOpening : ∀ bracket, token ≠ .opening bracket)
    (noClosing : ∀ bracket, token ≠ .closing bracket) (noSeparator : token ≠ .separator) :
    Walks shape splitting [token] := by
  intro group rest _ _
  have pushed : group.push shape token = extend group [token] := by
    cases token <;> first | rfl | exact absurd rfl (noOpening _) | exact absurd rfl (noClosing _)
  rw [List.singleton_append, remaining, if_neg (fun closes => noClosing _ closes.1),
    if_neg (fun separates => noSeparator separates.1), pushed]

theorem separator : Walks shape false [.separator] := by
  intro group rest _ inside
  have unsplit := inside rfl
  rw [List.singleton_append, remaining, if_neg (by simp), if_neg (by simp [unsplit])]
  rfl

theorem bracketed {bracket : Bracket} (inner : Walks shape false left) :
    Walks shape splitting (.opening bracket :: (left ++ [.closing bracket])) := by
  intro group rest balanced _
  rw [List.cons_append, List.append_assoc, List.singleton_append, remaining, if_neg (by simp),
    if_neg (by simp)]
  -- Brackets of the group's own shape are counted by its depth, the others by its balance.
  by_cases same : bracket = shape
  · subst same
    have opened : group.push bracket (.opening bracket) =
        ⟨group.depth + 1, group.balance, .opening bracket :: group.slice, group.slices⟩ := by
      simp [OpenGroup.push]
    have content := inner
      ⟨group.depth + 1, group.balance, .opening bracket :: group.slice, group.slices⟩
      (.closing bracket :: rest) balanced fun _ => by simp [OpenGroup.splits]
    rw [opened, content, remaining, if_neg (by simp [extend]), if_neg (by simp)]
    simp [OpenGroup.push, extend]
  · have opened : group.push shape (.opening bracket) =
        ⟨group.depth, group.balance + 1, .opening bracket :: group.slice, group.slices⟩ := by
      simp [OpenGroup.push, same]
    have nonnegative : 0 ≤ group.balance + 1 := by omega
    have unequal : group.balance + 1 ≠ 0 := by omega
    have content := inner
      ⟨group.depth, group.balance + 1, .opening bracket :: group.slice, group.slices⟩
      (.closing bracket :: rest) nonnegative fun _ => by simp [OpenGroup.splits, unequal]
    rw [opened, content, remaining, if_neg (by simp [same]), if_neg (by simp)]
    simp [OpenGroup.push, extend, same]

end Walks

theorem walks_hereditary (env : Environment) (shape : Bracket) :
    Hereditary env (fun _ _ tokens => Walks shape true tokens)
      (fun _ tokens => Walks shape false tokens) where
  number value := .single (by simp) (by simp) (by simp)
  variableName _ := .single (by simp) (by simp) (by simp)
  array _ entries := entries.bracketed
  operand operand := operand
  group _ inner := inner.weaken.bracketed
  emptyCall _ :=
    .append (.single (by simp) (by simp) (by simp)) (@Walks.bracketed _ _ [] _ fun _ _ _ _ => rfl)
  listCall _ _ arguments :=
    .append (.single (by simp) (by simp) (by simp)) arguments.bracketed
  bareCall _ operand := .append (.single (by simp) (by simp) (by simp)) operand
  atom atom := atom
  factorial argument := argument.append (.single (by simp) (by simp) (by simp))
  unsigned product := product
  negated product := .append (.single (by simp) (by simp) (by simp)) product
  first item := item
  join _ left right _ := left.append (.append (.single (by simp) (by simp) (by simp)) right)
  last expression := expression.weaken
  more expression others := expression.weaken.append (.append .separator others)

/-- The slices of a list that follows an opening bracket are found by the outline. -/
theorem remaining_slices {shape : Bracket} {slices : List (List Token)} (filled : slices ≠ [])
    (walks : ∀ slice ∈ slices, Walks shape true slice) (earlier : List (List Token))
    (rest : List Token) :
    remaining shape (some ⟨0, 0, [], earlier⟩)
        ([.separator].intercalate slices ++ .closing shape :: rest) =
      group (earlier.reverse ++ slices) (remaining shape none rest) := by
  induction slices generalizing earlier with
  | nil => exact absurd rfl filled
  | cons slice slices induction =>
      have first := walks slice List.mem_cons_self
      cases slices with
      | nil =>
          rw [List.intercalate_singleton, first _ _ (by simp) (by simp), remaining,
            if_pos (by simp [extend])]
          simp [extend, OpenGroup.close]
      | cons next slices =>
          have later := induction (by simp)
            (fun other member => walks other (List.mem_cons_of_mem _ member)) (slice :: earlier)
          rw [List.intercalate_cons_cons, List.append_assoc, List.append_assoc,
            first _ _ (by simp) (by simp), List.singleton_append, remaining, if_neg (by simp),
            if_pos (by simp [extend, OpenGroup.splits])]
          simpa [extend, OpenGroup.split] using later

theorem remaining_bracketed {values : List Value} {tokens : List Token}
    (derived : DerivesAll env values tokens) :
    ∃ slices, slices ≠ [] ∧ tokens = [.separator].intercalate slices ∧
      List.Forall₂ (fun slice value => Derives env .sum value slice) slices values ∧
      ∀ shape rest, remaining shape none (.opening shape :: (tokens ++ .closing shape :: rest)) =
        group slices (remaining shape none rest) := by
  obtain ⟨slices, filled, rfl, expressions⟩ := derivesAll_iff.mp derived
  refine ⟨slices, filled, rfl, expressions, ?_⟩
  intro shape rest
  have walks : ∀ slice ∈ slices, Walks shape true slice := by
    clear filled derived
    induction expressions with
    | nil => simp
    | cons first _ induction =>
        exact List.forall_mem_cons.mpr ⟨(walks_hereditary env shape).derives first, induction⟩
  rw [remaining, if_neg (by simp), if_pos rfl]
  exact remaining_slices filled walks [] rest

/-! ## Arrays -/

theorem derivesAll_of_mapM {evaluate : List Token → Except Fault Value}
    (sound : ∀ slice value, evaluate slice = .ok value → Derives env .sum value slice)
    {slices : List (List Token)} {values : List Value} (filled : slices ≠ [])
    (evaluated : slices.mapM evaluate = .ok values) :
    DerivesAll env values ([.separator].intercalate slices) :=
  derivesAll_iff.mpr ⟨slices, filled, rfl, (Outcome.mapM_eq_ok.mp evaluated).imp sound⟩

theorem abbreviates_of_buildArrays {evaluate : List Token → Except Fault Value}
    (sound : ∀ slice value, evaluate slice = .ok value → Derives env .sum value slice)
    {tokens built : List Token} (ok : buildArrays evaluate tokens = .ok built) :
    Abbreviates (StandsForArray env) built tokens := by
  have divides := divides_of_fill ok
  unfold buildArrays at ok
  generalize ofTokens .square tokens = outline at ok divides
  generalize false = called at ok
  induction divides generalizing called built with
  | done =>
      cases ok
      exact .nil
  | @plain token tail rest noOpening noClosing divides induction =>
      obtain ⟨others, filled, done⟩ := Outcome.bind_eq_ok.mp ok
      cases done
      exact (StandsForArray.token env token).append (induction _ filled)
  | @group slices tail rest filledSlices divides induction =>
      obtain ⟨first, joined, filling⟩ := Outcome.bind_eq_ok.mp ok
      obtain ⟨others, filled, done⟩ := Outcome.bind_eq_ok.mp filling
      obtain ⟨values, evaluated, single⟩ := Outcome.bind_eq_ok.mp joined
      cases single
      cases done
      have entries := derivesAll_of_mapM sound filledSlices evaluated
      have stands : StandsForArray env ⟨values.map fun value => value.scalar?.join⟩
          (.opening .square :: ([.separator].intercalate slices ++ [.closing .square])) :=
        .inr ⟨_, values, entries, rfl, rfl⟩
      simpa using Abbreviates.number stands (induction _ filled)

/-- The slices of a list that is short enough evaluate to the values of its expressions. -/
theorem mapM_of_complete {evaluate : List Token → Except Fault Value} {bound : Nat}
    (complete : ∀ slice value, slice.length < bound → Derives env .sum value slice →
      evaluate slice = .ok value)
    {slices : List (List Token)} {values : List Value}
    (short : ∀ slice ∈ slices, slice.length < bound)
    (derived : List.Forall₂ (fun slice value => Derives env .sum value slice) slices values) :
    slices.mapM evaluate = .ok values := by
  refine Outcome.mapM_eq_ok.mpr ?_
  induction derived with
  | nil => exact .nil
  | cons first _ induction =>
      obtain ⟨shortFirst, shortRest⟩ := List.forall_mem_cons.mp short
      exact .cons (complete _ _ shortFirst first) (induction shortRest)

theorem length_le_intercalate {slices : List (List Token)} {slice : List Token}
    (member : slice ∈ slices) : slice.length ≤ ([.separator].intercalate slices).length := by
  induction slices with
  | nil => cases member
  | cons first slices induction =>
      cases slices with
      | nil =>
          obtain rfl := List.mem_singleton.mp member
          simp
      | cons next slices =>
          rw [List.intercalate_cons_cons, List.length_append, List.length_append]
          rcases List.mem_cons.mp member with rfl | later
          · omega
          · have := induction later
            omega

theorem buildArrays_of_abbreviates {evaluate : List Token → Except Fault Value}
    {tokens built : List Token}
    (complete : ∀ slice value, slice.length < tokens.length → Derives env .sum value slice →
      evaluate slice = .ok value)
    (whole : Abbreviates (StandsForArray env) built tokens) (arrayFree : ArrayFree built) :
    buildArrays evaluate tokens = .ok built := by
  unfold buildArrays ofTokens
  generalize false = called
  generalize bounded : tokens.length = bound at complete
  replace bounded := Nat.le_of_eq bounded
  induction whole generalizing called with
  | nil => rfl
  | @number value segment short long stands tail induction =>
      simp only [ArrayFree.cons_iff] at arrayFree
      simp only [List.length_append] at bounded
      rcases stands with rfl | ⟨entries, values, derived, rfl, rfl⟩
      · rw [List.singleton_append, remaining_plain (by simp) (by simp)]
        exact fill_plain (induction arrayFree.2.2 _ (by omega))
      · obtain ⟨slices, filled, rfl, expressions, grouped⟩ := remaining_bracketed derived
        simp only [List.length_cons, List.length_append] at bounded
        have evaluated := mapM_of_complete complete
          (fun slice member => by have := length_le_intercalate member; omega) expressions
        have joined : joinArray evaluate slices =
            .ok [.number ⟨values.map fun value => value.scalar?.join⟩] := by
          rw [joinArray, evaluated]
          rfl
        rw [List.cons_append, List.append_assoc, List.singleton_append, grouped]
        exact fill_group joined (induction arrayFree.2.2 _ (by omega))
  | @other token short long other tail induction =>
      simp only [ArrayFree.cons_iff] at arrayFree
      simp only [List.length_cons] at bounded
      rw [remaining_plain arrayFree.1 arrayFree.2.1]
      exact fill_plain (induction arrayFree.2.2 _ (by omega))

end Grammar
end Reckoner
