import Reckoner.Evaluation.Slices
import Reckoner.Proofs.Outcome

/-!
# Complete outlines

An outline that can be written as tokens again is complete: it loses nothing of the sequence it
divides, and no bracket of its own shape is left outside the groups.
-/

namespace Reckoner
namespace Evaluation

theorem intercalate_concat_append {α : Type} (separator last more : List α)
    (lists : List (List α)) :
    separator.intercalate (lists ++ [last ++ more]) =
      separator.intercalate (lists ++ [last]) ++ more := by
  induction lists with
  | nil => simp
  | cons first lists induction =>
      rw [List.cons_append, List.cons_append, List.intercalate_cons_of_ne_nil (by simp),
        List.intercalate_cons_of_ne_nil (by simp), induction, List.append_assoc _ _ more]

theorem intercalate_concat_nil {α : Type} (separator : List α) {lists : List (List α)}
    (filled : lists ≠ []) :
    separator.intercalate (lists ++ [[]]) = separator.intercalate lists ++ separator := by
  induction lists with
  | nil => exact absurd rfl filled
  | cons first lists induction =>
      cases lists with
      | nil => simp
      | cons second lists =>
          rw [List.cons_append, List.intercalate_cons_of_ne_nil (by simp), induction (by simp),
            List.intercalate_cons_cons, List.append_assoc _ _ separator]

namespace Outline

/-- A complete outline of a sequence. -/
inductive Divides (shape : Bracket) : Outline → List Token → Prop where
  | done : Divides shape done []
  | plain {token : Token} {tail : Outline} {rest : List Token} (noOpening : token ≠ .opening shape)
      (noClosing : token ≠ .closing shape) (divides : Divides shape tail rest) :
      Divides shape (plain token tail) (token :: rest)
  | group {slices : List (List Token)} {tail : Outline} {rest : List Token} (filled : slices ≠ [])
      (divides : Divides shape tail rest) :
      Divides shape (group slices tail)
        (.opening shape :: ([.separator].intercalate slices ++ .closing shape :: rest))

/-- Whether every bracket of an outline closes and was opened. -/
def Complete : Outline → Prop
  | done => True
  | plain _ tail => tail.Complete
  | group _ tail => tail.Complete
  | stray => False
  | unfinished _ => False

/-- The tokens behind an outline: the rest of the sequence, with the open group before it. -/
def source (shape : Bracket) : Option OpenGroup → List Token → List Token
  | none, rest => rest
  | some inner, rest => .opening shape :: ([.separator].intercalate inner.close ++ rest)

theorem source_split (shape : Bracket) (inner : OpenGroup) (rest : List Token) :
    source shape (some inner.split) rest = source shape (some inner) (.separator :: rest) := by
  have split : inner.split.close = inner.close ++ [[]] := by
    simp [OpenGroup.split, OpenGroup.close]
  rw [source, source, split, intercalate_concat_nil _ (by simp [OpenGroup.close]),
    List.append_assoc, List.singleton_append]

theorem source_push (shape : Bracket) (inner : OpenGroup) (token : Token) (rest : List Token) :
    source shape (some (inner.push shape token)) rest =
      source shape (some inner) (token :: rest) := by
  have pushed : (inner.push shape token).close =
      inner.slices.reverse ++ [inner.slice.reverse ++ [token]] := by
    simp [OpenGroup.close]
  rw [source, source, pushed, intercalate_concat_append, OpenGroup.close, List.reverse_cons,
    List.append_assoc, List.singleton_append]

theorem divides_remaining (shape : Bracket) {inner : Option OpenGroup} {tokens : List Token}
    (complete : (remaining shape inner tokens).Complete) :
    Divides shape (remaining shape inner tokens) (source shape inner tokens) := by
  induction tokens generalizing inner with
  | nil =>
      cases inner with
      | none => exact .done
      | some group => exact complete.elim
  | cons token rest induction =>
      cases inner with
      | none =>
          simp only [remaining] at complete ⊢
          split_ifs at complete ⊢ with closing opening
          · exact complete.elim
          · have inside := induction complete
            simpa [source, OpenGroup.close, OpenGroup.fresh, opening] using inside
          · exact .plain opening closing (induction complete)
      | some group =>
          simp only [remaining] at complete ⊢
          split_ifs at complete ⊢ with closing separator
          · rw [source, closing.1]
            exact .group (by simp [OpenGroup.close]) (induction complete)
          · rw [separator.1, ← source_split]
            exact induction complete
          · rw [← source_push]
            exact induction complete

theorem complete_of_fill {shape : Bracket} {evaluate : List Token → Except Fault Value}
    {join : Bool → List (List Token) → Except Fault (List Token)} {called : Bool}
    {outline : Outline} {tokens : List Token}
    (filled : outline.fill shape evaluate join called = .ok tokens) : outline.Complete := by
  induction outline generalizing called tokens with
  | done => trivial
  | stray => cases filled
  | plain token tail induction =>
      obtain ⟨others, rest, -⟩ := Outcome.bind_eq_ok.mp filled
      exact induction rest
  | group slices tail induction =>
      obtain ⟨first, -, filled⟩ := Outcome.bind_eq_ok.mp filled
      obtain ⟨others, rest, -⟩ := Outcome.bind_eq_ok.mp filled
      exact induction rest
  | unfinished slices =>
      obtain ⟨values, -, failed⟩ := Outcome.bind_eq_ok.mp filled
      cases failed

/-- An outline that can be filled in divides its sequence completely. -/
theorem divides_of_fill {shape : Bracket} {evaluate : List Token → Except Fault Value}
    {join : Bool → List (List Token) → Except Fault (List Token)} {called : Bool}
    {tokens result : List Token}
    (filled : (ofTokens shape tokens).fill shape evaluate join called = .ok result) :
    Divides shape (ofTokens shape tokens) tokens := by
  have divides := @divides_remaining shape none tokens (complete_of_fill filled)
  exact divides

theorem remaining_plain {shape : Bracket} {token : Token} (noOpening : token ≠ .opening shape)
    (noClosing : token ≠ .closing shape) (rest : List Token) :
    remaining shape none (token :: rest) = plain token (remaining shape none rest) := by
  rw [remaining, if_neg noClosing, if_neg noOpening]

theorem fill_plain {shape : Bracket} {evaluate : List Token → Except Fault Value}
    {join : Bool → List (List Token) → Except Fault (List Token)} {called : Bool} {token : Token}
    {tail : Outline} {rest : List Token}
    (filled : tail.fill shape evaluate join token.isFunctionName = .ok rest) :
    (plain token tail).fill shape evaluate join called = .ok (token :: rest) := by
  rw [fill, filled]
  rfl

theorem fill_group {shape : Bracket} {evaluate : List Token → Except Fault Value}
    {join : Bool → List (List Token) → Except Fault (List Token)} {called : Bool}
    {slices : List (List Token)} {tail : Outline} {first rest : List Token}
    (joined : join called slices = .ok first)
    (filled : tail.fill shape evaluate join false = .ok rest) :
    (group slices tail).fill shape evaluate join called = .ok (first ++ rest) := by
  rw [fill, joined, filled]
  rfl

end Outline
end Evaluation
end Reckoner
