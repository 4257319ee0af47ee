import Reckoner.Proofs.Lexemes

/-!
# Boundaries between pieces of text

A piece ends at a character that does not belong with it.  Hence a text is read as its two parts are
if no piece reaches over the boundary between them.  A blank character is always such a boundary, so
that blank characters at the end of a text do not matter.
-/

namespace Reckoner
namespace Lexer

open CharClass

variable {c : Char} {text rest back : List Char}

/-- Two characters next to each other that are read together: both in one run, as a power sign, or
as a name and the bracket that makes it the name of a function. -/
def Joins (c d : Char) : Prop :=
  ((ofChar c).runs = true ∧ ofChar d = ofChar c) ∨ (c = '*' ∧ d = '*') ∨
    (ofChar c = .name ∧ d = '(')

instance (c d : Char) : Decidable (Joins c d) :=
  inferInstanceAs (Decidable (_ ∨ _))

/-- No piece reaches from one text over to the other. -/
def Apart (text back : List Char) : Prop :=
  ∀ c ∈ text.getLast?, ∀ d ∈ back.head?, ¬Joins c d

-- Only the two characters at the boundary are looked at, and not every character there is.
instance (text back : List Char) : Decidable (Apart text back) :=
  decidable_of_iff (text.getLast?.all fun c => back.head?.all fun d => !decide (Joins c d)) <| by
    simp [Apart, Option.all_eq_true]

theorem not_joins_of_isBlank {d : Char} (blank : Text.isBlank d = true) : ¬Joins c d := by
  have kind : ofChar d = .blank := ofChar_eq_blank_iff.mpr blank
  rintro (⟨runs, same⟩ | ⟨-, rfl⟩ | ⟨-, rfl⟩)
  · rw [← same, kind] at runs
    cases runs
  · cases kind
  · cases kind

theorem Apart.of_isBlank (blank : ∀ d ∈ back.head?, Text.isBlank d = true) : Apart text back :=
  fun _ _ d head => not_joins_of_isBlank (blank d head)

theorem Apart.of_append {front : List Char} (apart : Apart (front ++ text) back) :
    Apart text back := by
  intro c last
  refine apart c ?_
  rw [List.getLast?_append, Option.mem_def.mp last]
  rfl

theorem span_append {holds : Char → Bool}
    (ends : (∀ d ∈ text, holds d = true) → ∀ d ∈ back.head?, holds d = false) :
    (text ++ back).takeWhile holds = text.takeWhile holds ∧
      (text ++ back).dropWhile holds = text.dropWhile holds ++ back := by
  induction text with
  | nil =>
      cases back with
      | nil => exact ⟨rfl, rfl⟩
      | cons d back =>
          have stops : holds d = false := ends (by simp) d rfl
          simp [stops]
  | cons d text induction =>
      cases goes : holds d with
      | false => simp [goes]
      | true =>
          obtain ⟨taken, dropped⟩ := induction fun all => ends (by simpa [goes] using all)
          simp [goes, taken, dropped]

theorem exists_last_of_run (inside : ∀ d ∈ rest, ofChar d = ofChar c) :
    ∃ last ∈ (c :: rest).getLast?, ofChar last = ofChar c := by
  have ends := List.getLast?_eq_some_getLast (List.cons_ne_nil c rest)
  refine ⟨_, ends, ?_⟩
  rcases List.mem_cons.mp (List.getLast_mem (List.cons_ne_nil c rest)) with first | behind
  · rw [first]
  · exact inside _ behind

theorem cut_append_of_apart (apart : Apart (c :: rest) back) :
    cut c (rest ++ back) = ((cut c rest).1, (cut c rest).2 ++ back) := by
  by_cases runs : (ofChar c).runs = true
  · have ends : (∀ d ∈ rest, (ofChar d == ofChar c) = true) →
        ∀ d ∈ back.head?, (ofChar d == ofChar c) = false := by
      intro inside d head
      obtain ⟨last, ends, same⟩ :=
        @exists_last_of_run c rest fun e member => by simpa using inside e member
      have apart := apart last ends d head
      simpa using fun joins : ofChar d = ofChar c =>
        apart (.inl ⟨same ▸ runs, joins.trans same.symm⟩)
    obtain ⟨taken, dropped⟩ := span_append ends
    unfold cut
    rw [if_pos runs, if_pos runs, taken, dropped]
  · have alone : (ofChar c).runs = false := by simpa using runs
    by_cases double : c = '*' ∧ rest.head? = some '*'
    · obtain ⟨rfl, head⟩ := double
      obtain ⟨rest, rfl⟩ := List.head?_eq_some_iff.mp head
      rfl
    · have single : c = '*' → (rest ++ back).head? ≠ some '*' := by
        intro star again
        cases rest with
        | nil => exact apart c rfl '*' again (.inr (.inl ⟨star, rfl⟩))
        | cons d rest => exact double ⟨star, again⟩
      rw [cut_single alone single, cut_single alone fun star head => double ⟨star, head⟩]

theorem tokenOf?_append_of_apart (apart : Apart (c :: rest) back) :
    tokenOf? c (cut c rest).1 ((cut c rest).2 ++ back) =
      tokenOf? c (cut c rest).1 (cut c rest).2 := by
  cases kind : ofChar c with
  | name =>
      have bracket : ((cut c rest).2 ++ back).head? = some '(' ↔
          (cut c rest).2.head? = some '(' := by
        cases behind : (cut c rest).2 with
        | cons d behind => rfl
        | nil =>
            -- The piece is the whole text, which ends in a character of names.
            have whole : (cut c rest).1 = c :: rest := by
              rw [← cut_append c rest, behind, List.append_nil]
            have inside : ∀ d ∈ rest, ofChar d = ofChar c := fun d member =>
              @ofChar_of_mem_cut c d rest (whole ▸ List.mem_cons_of_mem c member)
            obtain ⟨last, ends, same⟩ := exists_last_of_run inside
            refine iff_of_false (fun head => ?_) (by simp)
            exact apart last ends '(' head (.inr (.inr ⟨same.trans kind, rfl⟩))
      simp only [tokenOf?, bracket]
  | _ => simp only [tokenOf?, kind]

/-- A text in front of another one is read on its own if no piece reaches over. -/
theorem scanFrom_append_of_apart (start : Nat) (apart : Apart text back) :
    scanFrom start (text ++ back) =
      scanFrom start text ++ scanFrom (start + Lexeme.byteCount text) back := by
  induction start, text using scanFrom.induct with
  | case1 start =>
      rw [scanFrom_nil]
      rfl
  | case2 start c rest space induction =>
      have behind : Apart rest back := @Apart.of_append rest back [c] apart
      rw [List.cons_append, scanFrom_blank space, scanFrom_blank space, induction behind,
        ← List.singleton_append, Lexeme.byteCount_append, Nat.add_assoc]
      rfl
  | case3 start c rest visible parts induction =>
      have behind : Apart (cut c rest).2 back :=
        @Apart.of_append _ back (cut c rest).1 (by rwa [cut_append])
      have bytes : Lexeme.byteCount (c :: rest) =
          Lexeme.byteCount (cut c rest).1 + Lexeme.byteCount (cut c rest).2 := by
        rw [← Lexeme.byteCount_append, cut_append]
      rw [List.cons_append, scanFrom_cons visible, scanFrom_cons visible,
        cut_append_of_apart apart, tokenOf?_append_of_apart apart, induction behind, bytes,
        Nat.add_assoc]
      rfl

theorem scanFrom_blanks (blank : ∀ d ∈ back, Text.isBlank d = true) (start : Nat) :
    scanFrom start back = [] := by
  induction back generalizing start with
  | nil => exact scanFrom_nil start
  | cons d back induction =>
      obtain ⟨first, others⟩ := List.forall_mem_cons.mp blank
      rw [scanFrom_blank (ofChar_eq_blank_iff.mpr first)]
      exact induction others _

/-- Blank characters at the end of a text do not matter to its tokens or its first fault. -/
theorem tokenize_append_blanks (blank : ∀ d ∈ back, Text.isBlank d = true) (text : List Char) :
    tokenize (text ++ back) = tokenize text := by
  have first : ∀ d ∈ back.head?, Text.isBlank d = true :=
    fun d head => blank d (List.mem_of_mem_head? head)
  rw [tokenize, tokenize, scan, scan, scanFrom_append_of_apart 0 (.of_isBlank first),
    scanFrom_blanks blank, List.append_nil]

end Lexer
end Reckoner
