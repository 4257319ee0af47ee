import Reckoner.Proofs.Comparison.Equality
import Reckoner.Proofs.Places.Basic

/-!
# Slices by position

The positions of the marks of a sequence are those of its outline: between them stand its slices, so
that filling them in by position is filling in the outline.
-/

namespace Reckoner
namespace Evaluation

/-! ## Access in range -/

/-- Whether the token before a position names a function. -/
def calledAt (tokens : List Token) (place : Nat) : Bool :=
  (tokens.take place).getLast?.any Token.isFunctionName

theorem calledAt_length (front rest : List Token) :
    calledAt (front ++ rest) front.length = front.getLast?.any Token.isFunctionName := by
  rw [calledAt, List.take_left]

theorem calledAt_succ (front rest : List Token) (token : Token) :
    calledAt (front ++ token :: rest) (front.length + 1) = token.isFunctionName := by
  have whole : front ++ token :: rest = (front ++ [token]) ++ rest := by simp
  have length : front.length + 1 = (front ++ [token]).length := by simp
  rw [whole, length, calledAt_length, List.getLast?_append]
  rfl

namespace Gap

variable {outside : Fault} {tokens slice rest : List Token} {gap : Gap}

/-- A gap has a slice and what follows the slice; its mark before the slice is no name of a
function. -/
def Splits (tokens : List Token) (gap : Gap) (slice rest : List Token) : Prop :=
  ∃ front mark, tokens = front ++ mark :: (slice ++ rest) ∧ gap.before = front.length ∧
    gap.behind = front.length + 1 + slice.length ∧ mark.isFunctionName = false

/-- A gap has a slice. -/
def Spans (tokens : List Token) (gap : Gap) (slice : List Token) : Prop :=
  ∃ rest, gap.Splits tokens slice rest

theorem Spans.slice_eq_ok (spans : gap.Spans tokens slice) :
    gap.slice outside tokens = .ok slice := by
  obtain ⟨rest, front, mark, rfl, before, behind, -⟩ := spans
  have inside : gap.before + 1 ≤ gap.behind ∧
      gap.behind ≤ (front ++ mark :: (slice ++ rest)).length := by
    simp only [List.length_append, List.length_cons]
    omega
  have length : front.length + 1 + slice.length - (front.length + 1) = slice.length := by omega
  rw [Gap.slice, if_pos inside, before, behind, List.extract_eq_take_drop, length,
    ← List.drop_drop, List.drop_left, List.drop_one, List.tail_cons, List.take_left]

/-- The token before a gap is in range if there is one. -/
theorem Spans.isEmptyCall_eq_ok (spans : gap.Spans tokens slice) :
    gap.isEmptyCall outside tokens slice = .ok (slice.isEmpty && calledAt tokens gap.before) := by
  obtain ⟨rest, front, mark, rfl, before, -, -⟩ := spans
  rw [isEmptyCall, before, calledAt_length]
  by_cases filled : slice.isEmpty = true
  · rcases List.eq_nil_or_concat' front with rfl | ⟨earlier, last, rfl⟩
    · simp
    · have found : itemAt outside ((earlier ++ [last]) ++ mark :: (slice ++ rest))
          ((earlier ++ [last]).length - 1) = .ok last := by
        simp [itemAt]
      rw [found]
      simp [filled]
  · simp [filled]

/-- The mark behind a slice stands behind the name of a function only if the slice ends with it. -/
theorem Spans.calledAt_behind (spans : gap.Spans tokens slice) :
    calledAt tokens gap.behind = slice.getLast?.any Token.isFunctionName := by
  obtain ⟨rest, front, mark, rfl, -, behind, plain⟩ := spans
  have whole : front ++ mark :: (slice ++ rest) = (front ++ mark :: slice) ++ rest := by simp
  have length : front.length + 1 + slice.length = (front ++ mark :: slice).length := by
    simp only [List.length_append, List.length_cons]
    omega
  rw [behind, whole, length, calledAt_length, List.getLast?_append, List.getLast?_cons]
  cases slice.getLast? with
  | none => simpa using plain
  | some last => rfl

end Gap

/-! ## Places of slices -/

/-- Adjacent gaps with their slices.  The flag is whether the mark before the first of them stands
behind the name of a function. -/
inductive LocatedGaps (tokens : List Token) : Bool → List Gap → List (List Token) → Prop where
  | last {gap : Gap} {slice : List Token} (spans : gap.Spans tokens slice) :
      LocatedGaps tokens (calledAt tokens gap.before) [gap] [slice]
  | more {gap : Gap} {slice : List Token} {gaps : List Gap} {slices : List (List Token)}
      (spans : gap.Spans tokens slice) (others : LocatedGaps tokens
        (slice.getLast?.any Token.isFunctionName) gaps slices) :
      LocatedGaps tokens (calledAt tokens gap.before) (gap :: gaps) (slice :: slices)

/-- Places with the outline of the same sequence.  The flag is whether the name of a function stands
directly before. -/
inductive Located (tokens : List Token) (shape : Bracket) : Bool → Places → Outline → Prop where
  | done {called : Bool} : Located tokens shape called .done .done
  | plain {called : Bool} {token : Token} {tail : Places} {tail' : Outline}
      (noClosing : token ≠ .closing shape)
      (tails : Located tokens shape token.isFunctionName tail tail') :
      Located tokens shape called (.plain token tail) (.plain token tail')
  | group {called : Bool} {gaps : List Gap} {slices : List (List Token)} {tail : Places}
      {tail' : Outline} (located : LocatedGaps tokens called gaps slices)
      (tails : Located tokens shape false tail tail') :
      Located tokens shape called (.group gaps tail) (.group slices tail')
  | stray {called : Bool} : Located tokens shape called .stray .stray
  | unfinished {called : Bool} {gaps : List Gap} {slices : List (List Token)}
      (spans : List.Forall₂ (Gap.Spans tokens) gaps slices) :
      Located tokens shape called (.unfinished gaps) (.unfinished slices)

/-- An open group that is read by positions and by slices at the same time. -/
structure Tracks (tokens : List Token) (called : Bool) (place : Nat) (rest : List Token)
    (inner : OpenPlaces) (group : OpenGroup) : Prop where
  depth : inner.depth = group.depth
  balance : inner.balance = group.balance
  current : Gap.Splits tokens ⟨inner.mark, place⟩ group.slice.reverse rest
  completed : List.Forall₂ (Gap.Spans tokens) inner.gaps group.slices
  /-- Gaps from the last mark on are adjacent to the completed ones. -/
  extend : ∀ gaps slices, LocatedGaps tokens (calledAt tokens inner.mark) gaps slices →
    LocatedGaps tokens called (inner.gaps.reverse ++ gaps) (group.slices.reverse ++ slices)

namespace OpenPlaces

variable (shape : Bracket) (inner : OpenPlaces) (token : Token)

@[simp]
theorem mark_push : (inner.push shape token).mark = inner.mark := by
  unfold push
  split <;> (try split) <;> rfl

@[simp]
theorem gaps_push : (inner.push shape token).gaps = inner.gaps := by
  unfold push
  split <;> (try split) <;> rfl

end OpenPlaces

namespace Tracks

variable {tokens rest : List Token} {called : Bool} {place : Nat} {inner : OpenPlaces}
  {group : OpenGroup} {token : Token}

theorem opening {front : List Token} (shape : Bracket)
    (same : tokens = front ++ .opening shape :: rest) :
    Tracks tokens (calledAt tokens front.length) (front.length + 1) rest ⟨0, 0, front.length, []⟩
      .fresh where
  depth := rfl
  balance := rfl
  current := ⟨front, .opening shape, same, rfl, rfl, rfl⟩
  completed := .nil
  extend _ _ located := located

theorem brackets_push (tracks : Tracks tokens called place rest inner group) (shape : Bracket)
    (token : Token) :
    (inner.push shape token).depth = (group.push shape token).depth ∧
      (inner.push shape token).balance = (group.push shape token).balance := by
  have depth := tracks.depth
  have balance := tracks.balance
  cases token with
  | opening other =>
      by_cases same : other = shape <;>
        simp [OpenPlaces.push, OpenGroup.push, same, depth, balance]
  | closing other =>
      by_cases same : other = shape <;>
        simp [OpenPlaces.push, OpenGroup.push, same, depth, balance]
  | _ => exact ⟨depth, balance⟩

theorem push (tracks : Tracks tokens called place (token :: rest) inner group) (shape : Bracket) :
    Tracks tokens called (place + 1) rest (inner.push shape token) (group.push shape token) where
  depth := (tracks.brackets_push shape token).1
  balance := (tracks.brackets_push shape token).2
  current := by
    obtain ⟨front, mark, same, before, behind, plain⟩ := tracks.current
    refine ⟨front, mark, ?_, ?_, ?_, plain⟩
    · simpa using same
    · simpa using before
    · simp only at behind
      simp only [OpenGroup.slice_push, List.length_reverse, List.length_cons] at behind ⊢
      omega
  completed := by
    rw [OpenPlaces.gaps_push, OpenGroup.slices_push]
    exact tracks.completed
  extend := by
    rw [OpenPlaces.gaps_push, OpenPlaces.mark_push, OpenGroup.slices_push]
    exact tracks.extend

theorem split (tracks : Tracks tokens called place (.separator :: rest) inner group) :
    Tracks tokens called (place + 1) rest
      { inner with mark := place, gaps := inner.gapsTo place } group.split where
  depth := tracks.depth
  balance := tracks.balance
  current := by
    obtain ⟨front, mark, same, before, behind, plain⟩ := tracks.current
    refine ⟨front ++ mark :: group.slice.reverse, .separator, ?_, ?_, ?_, rfl⟩
    · simpa [OpenGroup.split] using same
    · simp only at behind
      simp only [List.length_append, List.length_cons]
      omega
    · simp only at behind
      simp only [OpenGroup.split, List.length_append, List.length_cons, List.reverse_nil,
        List.length_nil]
      omega
  completed := .cons ⟨_, tracks.current⟩ tracks.completed
  extend := by
    intro gaps slices located
    have spans : Gap.Spans tokens ⟨inner.mark, place⟩ group.slice.reverse := ⟨_, tracks.current⟩
    have behind := spans.calledAt_behind
    simp only at behind
    simp only [behind] at located
    have extended := tracks.extend _ _ (.more spans located)
    simpa [OpenPlaces.gapsTo, OpenGroup.split] using extended

theorem close (tracks : Tracks tokens called place rest inner group) :
    LocatedGaps tokens called (inner.gapsTo place).reverse group.close := by
  have closed := tracks.extend _ _ (.last ⟨_, tracks.current⟩)
  simpa [OpenPlaces.gapsTo, OpenGroup.close] using closed

theorem exists_front (tracks : Tracks tokens called place (token :: rest) inner group) :
    ∃ front, tokens = front ++ token :: rest ∧ place = front.length := by
  obtain ⟨front, mark, same, -, behind, -⟩ := tracks.current
  refine ⟨front ++ mark :: group.slice.reverse, by simpa using same, ?_⟩
  simp only at behind
  simp only [List.length_append, List.length_cons]
  omega

end Tracks

/-- What has been read of a sequence by positions and by slices at the same time. -/
inductive TracksAll (tokens : List Token) :
    Bool → Nat → List Token → Option OpenPlaces → Option OpenGroup → Prop where
  | none (front rest : List Token) (same : tokens = front ++ rest) :
      TracksAll tokens (calledAt tokens front.length) front.length rest .none .none
  | some {called : Bool} {place : Nat} {rest : List Token} {inner : OpenPlaces} {group : OpenGroup}
      (tracks : Tracks tokens called place rest inner group) :
      TracksAll tokens called place rest (.some inner) (.some group)

theorem TracksAll.next {tokens front rest : List Token} {token : Token}
    (same : tokens = front ++ token :: rest) :
    TracksAll tokens token.isFunctionName (front.length + 1) rest .none .none := by
  have behind := TracksAll.none (front ++ [token]) rest (show tokens = _ by simpa using same)
  rwa [List.length_append, List.length_singleton, same, calledAt_succ, ← same] at behind

theorem located_remaining (shape : Bracket) {tokens rest : List Token} {called : Bool} {place : Nat}
    {inner : Option OpenPlaces} {group : Option OpenGroup}
    (tracks : TracksAll tokens called place rest inner group) :
    Located tokens shape called (Places.remaining shape inner place rest)
      (Outline.remaining shape group rest) := by
  induction rest generalizing called place inner group with
  | nil =>
      cases tracks with
      | none _ _ same => exact .done
      | some tracks => exact .unfinished (List.rel_reverse tracks.completed)
  | cons token rest induction =>
      cases tracks with
      | none _ _ same =>
          rw [Places.remaining, Outline.remaining]
          split_ifs with closing opening
          · exact .stray
          · exact induction (.some (.opening shape (opening ▸ same)))
          · exact .plain closing (induction (.next same))
      | @some _ _ _ inner group tracks =>
          have splits : inner.splits = group.splits := by
            rw [OpenPlaces.splits, OpenGroup.splits, tracks.depth, tracks.balance]
          rw [Places.remaining, Outline.remaining, splits, ← tracks.depth]
          split_ifs with closing separator
          · obtain ⟨front, same, rfl⟩ := tracks.exists_front
            have behind := TracksAll.next same
            rw [closing.1] at behind
            exact .group tracks.close (induction behind)
          · rw [separator.1] at tracks
            exact induction (.some tracks.split)
          · exact induction (.some (tracks.push shape))

/-! ## Filling in -/

theorem LocatedGaps.spans {tokens : List Token} {called : Bool} {gaps : List Gap}
    {slices : List (List Token)} (located : LocatedGaps tokens called gaps slices) :
    List.Forall₂ (Gap.Spans tokens) gaps slices := by
  induction located with
  | last spans => exact .cons spans .nil
  | more spans _ induction => exact .cons spans induction

theorem LocatedGaps.exists_cons {tokens : List Token} {called : Bool} {gaps : List Gap}
    {slices : List (List Token)} (located : LocatedGaps tokens called gaps slices) :
    ∃ gap later slice others, gaps = gap :: later ∧ slices = slice :: others := by
  cases located with
  | last => exact ⟨_, _, _, _, rfl, rfl⟩
  | more => exact ⟨_, _, _, _, rfl, rfl⟩

section Fill

variable {outside : Fault} {evaluate : List Token → Except Fault Value} {tokens : List Token}
  {shape : Bracket}

theorem evaluateGap_of_spans {gap : Gap} {slice : List Token} (spans : gap.Spans tokens slice) :
    evaluateGap outside evaluate tokens gap = evaluate slice := by
  rw [evaluateGap, spans.slice_eq_ok]
  rfl

theorem mapM_evaluateGap {gaps : List Gap} {slices : List (List Token)}
    (spans : List.Forall₂ (Gap.Spans tokens) gaps slices) :
    gaps.mapM (evaluateGap outside evaluate tokens) = slices.mapM evaluate := by
  induction spans with
  | nil => rfl
  | cons first _ induction =>
      rw [List.mapM_cons, List.mapM_cons, evaluateGap_of_spans first, induction]

/-- Places are filled in like the outline, up to a relation between what groups are joined to. -/
theorem Located.agree_fill (outside : Fault) (evaluate : List Token → Except Fault Value)
    {join : List Gap → Except Fault (List Token)}
    {joinSlices : Bool → List (List Token) → Except Fault (List Token)}
    {holds holdsGroup : List Token → List Token → Prop} {called : Bool} {places : Places}
    {outline : Outline} (located : Located tokens shape called places outline)
    (joined : ∀ called gaps slices, LocatedGaps tokens called gaps slices →
      Outcome.Agree (fun _ => True) (fun _ => False) holdsGroup (join gaps)
        (joinSlices called slices))
    (nil : holds [] [])
    (plain : ∀ token rest rest', token ≠ .closing shape → holds rest rest' →
      holds (token :: rest) (token :: rest'))
    (group : ∀ first first' rest rest', holdsGroup first first' → holds rest rest' →
      holds (first ++ rest) (first' ++ rest')) :
    Outcome.Agree (fun _ => True) (fun _ => False) holds
      (places.fill shape (evaluateGap outside evaluate tokens) join)
      (outline.fill shape evaluate joinSlices called) := by
  induction located with
  | done => exact .ok nil
  | plain noClosing _ induction =>
      rw [Places.fill, Outline.fill]
      refine induction.bind fun rest rest' tails => ?_
      exact .ok (plain _ _ _ noClosing tails)
  | group gaps _ induction =>
      rw [Places.fill, Outline.fill]
      refine (joined _ _ _ gaps).bind fun first first' heads => ?_
      refine induction.bind fun rest rest' tails => ?_
      exact .ok (group _ _ _ _ heads tails)
  | stray => exact .error trivial
  | unfinished spans =>
      rw [Places.fill, Outline.fill, mapM_evaluateGap spans]
      refine (Outcome.Agree.refl fun _ _ => trivial).bind fun _ _ _ => ?_
      exact .error trivial

theorem located_ofTokens (shape : Bracket) (tokens : List Token) :
    Located tokens shape false (Places.remaining shape none 0 tokens)
      (Outline.ofTokens shape tokens) :=
  located_remaining shape (TracksAll.none [] tokens rfl)

theorem buildArraysAt_eq (outside : Fault) (evaluate : List Token → Except Fault Value)
    (tokens : List Token) :
    buildArraysAt outside evaluate tokens = buildArrays evaluate tokens := by
  have joined : ∀ called gaps slices, LocatedGaps tokens called gaps slices →
      Outcome.Agree (fun _ => True) (fun _ => False) Eq
        (joinArrayAt outside evaluate tokens gaps) (joinArray evaluate slices) := by
    intro called gaps slices located
    rw [joinArrayAt, mapM_evaluateGap located.spans]
    exact Outcome.Agree.refl fun _ _ => trivial
  refine Outcome.Agree.eq ((located_ofTokens .square tokens).agree_fill outside evaluate
    joined rfl ?_ ?_)
  · rintro token rest _ - rfl
    rfl
  · rintro first _ rest _ rfl rfl
    rfl

end Fill

end Evaluation
end Reckoner
