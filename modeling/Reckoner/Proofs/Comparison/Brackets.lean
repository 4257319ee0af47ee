import Reckoner.Proofs.Application
import Reckoner.Proofs.Comparison.Basic

/-!
# Comparing brackets

Sequences that correspond are divided alike at their brackets, and filling in the values of
corresponding slices leaves sequences that correspond again.
-/

namespace Reckoner
namespace Comparison

open Evaluation Outcome Outline

variable {comparison : Comparison} {names : Names} {shape : Bracket}

theorem Matches.opening_iff {token token' : Token}
    (tokens : comparison.Matches names token token') :
    token = .opening shape ↔ token' = .opening shape := by
  cases tokens <;> simp

theorem Matches.closing_iff {token token' : Token}
    (tokens : comparison.Matches names token token') :
    token = .closing shape ↔ token' = .closing shape := by
  cases tokens <;> simp

theorem Matches.separator_iff {token token' : Token}
    (tokens : comparison.Matches names token token') :
    token = .separator ↔ token' = .separator := by
  cases tokens <;> simp

theorem Matches.isFunctionName_eq {token token' : Token}
    (tokens : comparison.Matches names token token') :
    token.isFunctionName = token'.isFunctionName := by
  cases tokens <;> rfl

theorem Matches.callable {token token' : Token} (tokens : comparison.Matches names token token')
    (function : token.isFunctionName = true) :
    ∃ name, token = .functionName name ∧ token' = .functionName name ∧ names.callable name := by
  cases tokens with
  | functionName holds => exact ⟨_, rfl, rfl, holds⟩
  | _ => cases function

/-! ## Outlines -/

/-- The groups of two sequences that are read at the same time. -/
structure MatchesGroup (comparison : Comparison) (names : Names) (group group' : OpenGroup) :
    Prop where
  depth : group.depth = group'.depth
  balance : group.balance = group'.balance
  slice : comparison.MatchesAll names group.slice group'.slice
  slices : List.Forall₂ (comparison.MatchesAll names) group.slices group'.slices

/-- Two outlines that divide corresponding sequences alike. -/
inductive MatchesOutline (comparison : Comparison) (names : Names) (shape : Bracket) :
    Outline → Outline → Prop where
  | done : MatchesOutline comparison names shape .done .done
  | plain {token token' : Token} {tail tail' : Outline} (noOpening : token ≠ .opening shape)
      (tokens : comparison.Matches names token token')
      (tails : MatchesOutline comparison names shape tail tail') :
      MatchesOutline comparison names shape (.plain token tail) (.plain token' tail')
  | group {slices slices' : List (List Token)} {tail tail' : Outline}
      (occurs : shape = .square → comparison.arrays) (filled : slices ≠ [])
      (all : List.Forall₂ (comparison.MatchesAll names) slices slices')
      (tails : MatchesOutline comparison names shape tail tail') :
      MatchesOutline comparison names shape (.group slices tail) (.group slices' tail')
  | stray : MatchesOutline comparison names shape .stray .stray
  | unfinished {slices slices' : List (List Token)}
      (all : List.Forall₂ (comparison.MatchesAll names) slices slices') :
      MatchesOutline comparison names shape (.unfinished slices) (.unfinished slices')

namespace MatchesGroup

variable {group group' : OpenGroup}

theorem brackets_push (groups : MatchesGroup comparison names group group') {token token' : Token}
    (tokens : comparison.Matches names token token') :
    (group.push shape token).depth = (group'.push shape token').depth ∧
      (group.push shape token).balance = (group'.push shape token').balance := by
  have depth := groups.depth
  have balance := groups.balance
  cases tokens with
  | @opening other _ =>
      by_cases same : other = shape <;> simp [OpenGroup.push, same, depth, balance]
  | closing other =>
      by_cases same : other = shape <;> simp [OpenGroup.push, same, depth, balance]
  | _ => exact ⟨depth, balance⟩

theorem push (groups : MatchesGroup comparison names group group') {token token' : Token}
    (tokens : comparison.Matches names token token') :
    MatchesGroup comparison names (group.push shape token) (group'.push shape token') where
  depth := (groups.brackets_push tokens).1
  balance := (groups.brackets_push tokens).2
  slice := by
    rw [OpenGroup.slice_push, OpenGroup.slice_push]
    exact .cons tokens groups.slice
  slices := by
    rw [OpenGroup.slices_push, OpenGroup.slices_push]
    exact groups.slices

theorem splits_eq (groups : MatchesGroup comparison names group group') :
    group.splits = group'.splits := by
  rw [OpenGroup.splits, OpenGroup.splits, groups.depth, groups.balance]

theorem split (groups : MatchesGroup comparison names group group') :
    MatchesGroup comparison names group.split group'.split where
  depth := groups.depth
  balance := groups.balance
  slice := .nil
  slices := .cons (List.rel_reverse groups.slice) groups.slices

theorem close (groups : MatchesGroup comparison names group group') :
    List.Forall₂ (comparison.MatchesAll names) group.close group'.close :=
  List.rel_reverse (.cons (List.rel_reverse groups.slice) groups.slices)

theorem fresh : MatchesGroup comparison names .fresh .fresh := ⟨rfl, rfl, .nil, .nil⟩

end MatchesGroup

theorem matchesOutline_remaining {tokens tokens' : List Token}
    (all : comparison.MatchesAll names tokens tokens') {inner inner' : Option OpenGroup}
    (groups : Option.Rel (MatchesGroup comparison names) inner inner')
    (occurs : inner ≠ none → shape = .square → comparison.arrays) :
    MatchesOutline comparison names shape (remaining shape inner tokens)
      (remaining shape inner' tokens') := by
  induction all generalizing inner inner' with
  | nil =>
      cases groups with
      | none => exact .done
      | some group => exact .unfinished (List.rel_reverse group.slices)
  | @cons token token' rest rest' head tail induction =>
      cases groups with
      | none =>
          simp only [remaining, ← head.closing_iff, ← head.opening_iff]
          split_ifs with closing opening
          · exact .stray
          · refine induction (.some .fresh) fun _ square => ?_
            subst opening
            cases head with
            | opening occurs => exact occurs square
          · exact .plain opening head (induction .none (by simp))
      | some group =>
          have inside := occurs (by simp)
          simp only [remaining, ← head.closing_iff, ← head.separator_iff, ← group.depth,
            ← group.splits_eq]
          split_ifs with closing separator
          · exact .group inside (by simp [OpenGroup.close]) group.close (induction .none (by simp))
          · exact induction (.some group.split) fun _ => inside
          · exact induction (.some (group.push head)) fun _ => inside

/-- Outlines that match are filled in alike, if the tokens outside groups and what groups are
joined to are kept by a relation between sequences. -/
theorem agree_fill {evaluate evaluate' : List Token → Except Fault Value}
    {join join' : Bool → List (List Token) → Except Fault (List Token)}
    {holds holdsGroup : List Token → List Token → Prop} {outline outline' : Outline}
    (outlines : MatchesOutline comparison names shape outline outline')
    (evaluated : ∀ slice slice', comparison.MatchesAll names slice slice' →
      comparison.Agree comparison.related (evaluate slice) (evaluate' slice'))
    (joined : ∀ called slices slices', (shape = .square → comparison.arrays) → slices ≠ [] →
      List.Forall₂ (comparison.MatchesAll names) slices slices' →
      comparison.Agree holdsGroup (join called slices) (join' called slices'))
    (nil : holds [] [])
    (plain : ∀ token token' rest rest', token ≠ .opening shape →
      comparison.Matches names token token' → holds rest rest' →
      holds (token :: rest) (token' :: rest'))
    (group : ∀ first first' rest rest', holdsGroup first first' → holds rest rest' →
      holds (first ++ rest) (first' ++ rest')) (called : Bool) :
    comparison.Agree holds (outline.fill shape evaluate join called)
      (outline'.fill shape evaluate' join' called) := by
  induction outlines generalizing called with
  | done => exact .ok nil
  | plain noOpening tokens _ induction =>
      rw [fill, fill, ← tokens.isFunctionName_eq]
      refine (induction _).bind fun rest rest' tails => ?_
      exact .ok (plain _ _ _ _ noOpening tokens tails)
  | group occurs filled all _ induction =>
      rw [fill, fill]
      refine (joined called _ _ occurs filled all).bind fun first first' heads => ?_
      refine (induction false).bind fun rest rest' tails => ?_
      exact .ok (group _ _ _ _ heads tails)
  | stray => exact .error (comparison.raised (.grouping _))
  | unfinished all =>
      rw [fill, fill]
      refine (Agree.mapM all evaluated).bind fun _ _ _ => ?_
      exact .error (comparison.raised (.grouping _))

/-! ## Arrays -/

theorem agree_buildArrays {evaluate evaluate' : List Token → Except Fault Value}
    (evaluated : ∀ slice slice', comparison.MatchesAll names slice slice' →
      comparison.Agree comparison.related (evaluate slice) (evaluate' slice'))
    {tokens tokens' : List Token} (all : comparison.MatchesAll names tokens tokens') :
    comparison.Agree (comparison.MatchesAll names) (buildArrays evaluate tokens)
      (buildArrays evaluate' tokens') := by
  have outlines : MatchesOutline comparison names .square (ofTokens .square tokens)
      (ofTokens .square tokens') := matchesOutline_remaining all .none (by simp)
  have joined : ∀ (_ : Bool) slices slices', (Bracket.square = .square → comparison.arrays) →
      slices ≠ [] → List.Forall₂ (comparison.MatchesAll names) slices slices' →
      comparison.Agree (comparison.MatchesAll names) (joinArray evaluate slices)
        (joinArray evaluate' slices') := by
    intro _ slices slices' occurs filled matching
    refine (Agree.mapM matching evaluated).bind_of_ok fun values values' done entries => ?_
    have some : values ≠ [] := by
      have lengths := (mapM_eq_ok.mp done).length_eq
      rintro rfl
      exact filled (List.eq_nil_of_length_eq_zero lengths)
    exact .ok (.cons (.number (comparison.array (occurs rfl) some entries)) .nil)
  refine agree_fill outlines evaluated joined .nil ?_ ?_ false
  · intro token token' rest rest' _ heads tails
    exact .cons heads tails
  · intro first first' rest rest' heads tails
    exact List.rel_append heads tails

/-! ## Groups -/

/-- Two sequences whose groups have been evaluated correspond. -/
inductive MatchesFlat (comparison : Comparison) (names : Names) :
    List Token → List Token → Prop where
  | nil : MatchesFlat comparison names [] []
  | plain {token token' : Token} {rest rest' : List Token} (noOpening : token ≠ .opening .round)
      (tokens : comparison.Matches names token token')
      (tails : MatchesFlat comparison names rest rest') :
      MatchesFlat comparison names (token :: rest) (token' :: rest')
  | group {values values' : List Value} {rest rest' : List Token}
      (all : List.Forall₂ comparison.related values values')
      (tails : MatchesFlat comparison names rest rest') :
      MatchesFlat comparison names (groupTokens values ++ rest) (groupTokens values' ++ rest')

/-- Groups whose slices are evaluated alike are joined alike, if only empty slices correspond to
empty ones. -/
theorem agree_joinGroup {allowed refused : Fault → Prop} {related : Value → Value → Prop}
    {corresponds : List Token → List Token → Prop}
    {evaluate evaluate' : List Token → Except Fault Value}
    (evaluated : ∀ slice slice', corresponds slice slice' →
      Outcome.Agree allowed refused related (evaluate slice) (evaluate' slice'))
    (nil_iff : ∀ slice slice', corresponds slice slice' → (slice = [] ↔ slice' = []))
    (called : Bool) {slices slices' : List (List Token)}
    (all : List.Forall₂ corresponds slices slices') :
    Outcome.Agree allowed refused
      (fun tokens tokens' => ∃ values values', tokens = groupTokens values ∧
        tokens' = groupTokens values' ∧ List.Forall₂ related values values')
      (joinGroup evaluate called slices) (joinGroup evaluate' called slices') := by
  have empty : slices = [[]] ↔ slices' = [[]] := by
    constructor
    · rintro rfl
      cases all with
      | cons first rest =>
          obtain rfl := (nil_iff _ _ first).mp rfl
          cases rest
          rfl
    · rintro rfl
      cases all with
      | cons first rest =>
          obtain rfl := (nil_iff _ _ first).mpr rfl
          cases rest
          rfl
  rw [joinGroup, joinGroup]
  simp only [empty]
  split_ifs
  · exact .ok ⟨[], [], rfl, rfl, .nil⟩
  · refine (Agree.mapM all evaluated).bind fun values values' related => ?_
    exact .ok ⟨values, values', rfl, rfl, related⟩

theorem agree_flattenGroups {evaluate evaluate' : List Token → Except Fault Value}
    (evaluated : ∀ slice slice', comparison.MatchesAll names slice slice' →
      comparison.Agree comparison.related (evaluate slice) (evaluate' slice'))
    {tokens tokens' : List Token} (all : comparison.MatchesAll names tokens tokens') :
    comparison.Agree (MatchesFlat comparison names) (flattenGroups evaluate tokens)
      (flattenGroups evaluate' tokens') := by
  have outlines : MatchesOutline comparison names .round (ofTokens .round tokens)
      (ofTokens .round tokens') := matchesOutline_remaining all .none (by simp)
  have nil_iff : ∀ slice slice', comparison.MatchesAll names slice slice' →
      (slice = [] ↔ slice' = []) := by
    intro slice slice' all
    cases all <;> simp
  refine agree_fill outlines evaluated
    (fun called _ _ _ _ => agree_joinGroup evaluated nil_iff called) .nil ?_ ?_ false
  · intro token token' rest rest' noOpening heads tails
    exact .plain noOpening heads tails
  · rintro _ _ rest rest' ⟨values, values', rfl, rfl, related⟩ tails
    exact .group related tails

end Comparison
end Reckoner
