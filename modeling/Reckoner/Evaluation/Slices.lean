import Reckoner.Evaluation.Basic

/-!
# Slices and nesting

The slices of a token sequence are shorter than the sequence, and an outline depends on the
evaluation of its own slices only.  Hence a bound on the size of a sequence never shows in its
value, and evaluation satisfies the equation of an unbounded recursion.
-/

namespace Reckoner
namespace Evaluation

theorem mapM_congr_of_mem {α β ε : Type} {f g : α → Except ε β} {items : List α}
    (agree : ∀ item ∈ items, f item = g item) : items.mapM f = items.mapM g := by
  induction items with
  | nil => rfl
  | cons item items induction =>
      simp only [List.mapM_cons, agree item List.mem_cons_self,
        induction fun other member => agree other (List.mem_cons_of_mem item member)]

namespace Outline

/-- All slices of an outline. -/
def slices : Outline → List (List Token)
  | done => []
  | plain _ tail => tail.slices
  | group slices tail => slices ++ tail.slices
  | stray => []
  | unfinished slices => slices

/-- How many tokens are left when every group becomes one. -/
def width : Outline → Nat
  | done => 0
  | plain _ tail => tail.width + 1
  | group _ tail => tail.width + 1
  | stray => 0
  | unfinished _ => 0

theorem fill_congr {shape : Bracket} {evaluate other : List Token → Except Fault Value}
    {join joinOther : Bool → List (List Token) → Except Fault (List Token)} (called : Bool)
    (outline : Outline) (agree : ∀ slice ∈ outline.slices, evaluate slice = other slice)
    (joins : ∀ called slices, (∀ slice ∈ slices, evaluate slice = other slice) →
      join called slices = joinOther called slices) :
    outline.fill shape evaluate join called = outline.fill shape other joinOther called := by
  induction outline generalizing called with
  | done => rfl
  | stray => rfl
  | plain token tail induction => simp only [fill, induction token.isFunctionName agree]
  | group slices tail induction =>
      simp only [Outline.slices, List.mem_append] at agree
      simp only [fill, induction false fun slice member => agree slice (.inr member),
        joins called slices fun slice member => agree slice (.inl member)]
  | unfinished slices =>
      have same : slices.mapM evaluate = slices.mapM other := mapM_congr_of_mem agree
      simp only [fill, same]

theorem length_of_mem_slices_remaining (shape : Bracket) {tokens slice : List Token}
    {inner : Option OpenGroup} (member : slice ∈ (remaining shape inner tokens).slices) :
    slice ∈ inner.elim [] OpenGroup.slices ∨
      slice.length < (inner.elim [] OpenGroup.slice).length + tokens.length := by
  induction tokens generalizing inner with
  | nil =>
      cases inner with
      | none => simp [remaining, slices] at member
      | some group => simp_all [remaining, slices]
  | cons token rest induction =>
      cases inner with
      | none =>
          simp only [remaining] at member
          split at member
          · simp [slices] at member
          · split at member
            · have := induction member
              simp only [Option.elim, OpenGroup.fresh, List.length_cons, List.length_nil,
                List.not_mem_nil, false_or] at this ⊢
              omega
            · have := induction member
              simp only [Option.elim, List.length_cons, List.length_nil, List.not_mem_nil,
                false_or] at this ⊢
              omega
      | some group =>
          simp only [remaining] at member
          split at member
          · simp only [slices, OpenGroup.close, List.reverse_cons, List.mem_append,
              List.mem_reverse, List.mem_singleton] at member
            rcases member with (old | rfl) | later
            · exact .inl old
            · simp
            · have := induction later
              simp only [Option.elim, List.length_cons, List.length_nil, List.not_mem_nil,
                false_or] at this ⊢
              omega
          · split at member
            · have := induction member
              simp only [Option.elim, OpenGroup.split, List.mem_cons, List.length_cons,
                List.length_nil] at this ⊢
              rcases this with (rfl | old) | short
              · simp
              · exact .inl old
              · omega
            · have := induction member
              simp only [Option.elim, OpenGroup.slices_push, OpenGroup.slice_push,
                List.length_cons] at this ⊢
              rcases this with old | short
              · exact .inl old
              · right
                omega

/-- Every slice of a token sequence is shorter than the sequence. -/
theorem length_of_mem_slices (shape : Bracket) {tokens slice : List Token}
    (member : slice ∈ (ofTokens shape tokens).slices) : slice.length < tokens.length := by
  simpa using length_of_mem_slices_remaining shape member

theorem width_remaining_le (shape : Bracket) (inner : Option OpenGroup) (tokens : List Token) :
    (remaining shape inner tokens).width ≤ tokens.length := by
  induction tokens generalizing inner with
  | nil => cases inner <;> simp [remaining, width]
  | cons token rest induction =>
      cases inner with
      | none =>
          simp only [remaining]
          split
          · simp [width]
          · split
            · exact Nat.le_succ_of_le (induction _)
            · exact Nat.succ_le_succ (induction _)
      | some group =>
          simp only [remaining]
          split
          · exact Nat.succ_le_succ (induction _)
          · split <;> exact Nat.le_succ_of_le (induction _)

theorem length_fill {shape : Bracket} {evaluate : List Token → Except Fault Value}
    {join : Bool → List (List Token) → Except Fault (List Token)} {called : Bool}
    {outline : Outline} {tokens : List Token}
    (joins : ∀ called slices tokens, join called slices = .ok tokens → tokens.length = 1)
    (filled : outline.fill shape evaluate join called = .ok tokens) :
    tokens.length = outline.width := by
  induction outline generalizing called tokens with
  | done =>
      cases filled
      rfl
  | stray => cases filled
  | plain token tail induction =>
      simp only [fill] at filled
      cases rest : fill shape evaluate join token.isFunctionName tail with
      | error fault => simp [rest, bind, Except.bind] at filled
      | ok others =>
          simp only [rest, bind, Except.bind, pure, Except.pure, Except.ok.injEq] at filled
          rw [← filled, List.length_cons, width, induction rest]
  | group slices tail induction =>
      simp only [fill] at filled
      cases joined : join called slices with
      | error fault => simp [joined, bind, Except.bind] at filled
      | ok first =>
          cases rest : fill shape evaluate join false tail with
          | error fault => simp [joined, rest, bind, Except.bind] at filled
          | ok others =>
              simp only [joined, rest, bind, Except.bind, pure, Except.pure,
                Except.ok.injEq] at filled
              rw [← filled, List.length_append, width, joins _ _ _ joined, induction rest]
              omega
  | unfinished slices =>
      simp only [fill] at filled
      cases evaluated : slices.mapM evaluate <;> simp [evaluated, bind, Except.bind] at filled

end Outline

theorem buildArrays_congr_of_mem {evaluate other : List Token → Except Fault Value}
    {tokens : List Token}
    (agree : ∀ slice ∈ (Outline.ofTokens .square tokens).slices, evaluate slice = other slice) :
    buildArrays evaluate tokens = buildArrays other tokens :=
  Outline.fill_congr false _ agree fun _ slices same => by
    simp only [joinArray, mapM_congr_of_mem same]

theorem flattenGroups_congr_of_mem {evaluate other : List Token → Except Fault Value}
    {tokens : List Token}
    (agree : ∀ slice ∈ (Outline.ofTokens .round tokens).slices, evaluate slice = other slice) :
    flattenGroups evaluate tokens = flattenGroups other tokens :=
  Outline.fill_congr false _ agree fun _ slices same => by
    simp only [joinGroup, mapM_congr_of_mem same]

theorem buildArrays_congr {evaluate other : List Token → Except Fault Value}
    {tokens : List Token}
    (agree : ∀ slice : List Token, slice.length < tokens.length → evaluate slice = other slice) :
    buildArrays evaluate tokens = buildArrays other tokens :=
  buildArrays_congr_of_mem fun _ member => agree _ (Outline.length_of_mem_slices .square member)

theorem flattenGroups_congr {evaluate other : List Token → Except Fault Value}
    {tokens : List Token}
    (agree : ∀ slice : List Token, slice.length < tokens.length → evaluate slice = other slice) :
    flattenGroups evaluate tokens = flattenGroups other tokens :=
  flattenGroups_congr_of_mem fun _ member => agree _ (Outline.length_of_mem_slices .round member)

theorem length_buildArrays_le {evaluate : List Token → Except Fault Value}
    {tokens built : List Token} (ok : buildArrays evaluate tokens = .ok built) :
    built.length ≤ tokens.length := by
  rw [Outline.length_fill (fun _ slices result joined => ?_) ok]
  · exact Outline.width_remaining_le .square none tokens
  · unfold joinArray at joined
    cases evaluated : slices.mapM evaluate with
    | error fault => simp [evaluated, bind, Except.bind] at joined
    | ok values =>
        simp only [evaluated, bind, Except.bind, pure, Except.pure, Except.ok.injEq] at joined
        simp [← joined]

/-- The value of a sequence within a bound does not depend on the bound. -/
theorem evaluateWithin_eq (env : Environment) {size other : Nat} {tokens : List Token}
    (fits : tokens.length ≤ size) (fitsOther : tokens.length ≤ other) :
    evaluateWithin env size tokens = evaluateWithin env other tokens := by
  induction size generalizing other tokens with
  | zero =>
      obtain rfl := List.eq_nil_of_length_eq_zero (Nat.le_zero.mp fits)
      simp [evaluateWithin]
  | succ size induction =>
      cases tokens with
      | nil => simp [evaluateWithin]
      | cons token rest =>
          obtain ⟨other, rfl⟩ := Nat.exists_eq_add_of_lt fitsOther
          simp only [List.length_cons] at fits fitsOther induction ⊢
          have agree : ∀ slice : List Token, slice.length < (token :: rest).length →
              evaluateWithin env size slice =
                evaluateWithin env (rest.length + other) slice := by
            intro slice short
            simp only [List.length_cons] at short
            exact induction (by omega) (by omega)
          simp only [evaluateWithin, buildArrays_congr agree]
          cases built : buildArrays (evaluateWithin env (rest.length + other))
              (token :: rest) with
          | error fault => rfl
          | ok shorter =>
              have length := length_buildArrays_le built
              simp only [bind, Except.bind]
              rw [flattenGroups_congr fun slice short => agree slice (by omega)]

end Evaluation

open Evaluation

@[simp]
theorem evaluate_nil (env : Environment) :
    evaluate env [] = .error (.malformedExpression .empty) := by
  simp [evaluate, evaluateWithin]

/-- To evaluate a sequence that is not empty, its groups are replaced by the values of their slices
and the rest is reduced. -/
theorem evaluate_eq (env : Environment) {tokens : List Token} (filled : tokens ≠ []) :
    evaluate env tokens = (do
      let built ← buildArrays (evaluate env) tokens
      let flat ← flattenGroups (evaluate env) built
      reduce env flat) := by
  cases tokens with
  | nil => exact absurd rfl filled
  | cons token rest =>
      have agree : ∀ slice : List Token, slice.length < (token :: rest).length →
          evaluateWithin env rest.length slice = evaluate env slice := by
        intro slice short
        simp only [List.length_cons] at short
        exact evaluateWithin_eq env (by omega) (Nat.le_refl _)
      rw [evaluate, List.length_cons, evaluateWithin, buildArrays_congr agree]
      · cases built : buildArrays (evaluate env) (token :: rest) with
        | error fault => rfl
        | ok shorter =>
            have length := length_buildArrays_le built
            simp only [bind, Except.bind]
            rw [flattenGroups_congr fun slice short => agree slice (by omega)]
      · simp

end Reckoner
