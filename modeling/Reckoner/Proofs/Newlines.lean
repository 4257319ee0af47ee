import Reckoner.Proofs.Readings
import Reckoner.Proofs.Transaction

/-!
# Newlines in assignments

Evaluation reads a newline as a blank character, and an assignment deletes the newlines of its text
before it reads anything.  Both read an expression alike unless a newline keeps two characters apart
that would be read together.
-/

namespace Reckoner

namespace Lexer

open CharClass

variable {text front : List Char}

/-- Newlines stand between pieces only: without them, no piece reaches over from the character in
front of them. -/
def NewlinesApart : List Char → Prop
  | [] => True
  | c :: rest =>
      (rest.head? = some '\n' → Apart [c] (rest.filter (· != '\n'))) ∧ NewlinesApart rest

namespace NewlinesApart

instance decidable : DecidablePred NewlinesApart
  | [] => isTrue trivial
  | _ :: rest =>
      have := decidable rest
      inferInstanceAs (Decidable (_ ∧ _))

theorem of_append (apart : NewlinesApart (front ++ text)) : NewlinesApart text := by
  induction front with
  | nil => exact apart
  | cons c front induction => exact induction apart.2

theorem apart_of_newline (apart : NewlinesApart (front ++ '\n' :: text)) :
    Apart front (text.filter (· != '\n')) := by
  intro c last
  obtain ⟨before, rfl⟩ := List.getLast?_eq_some_iff.mp last
  rw [List.append_assoc] at apart
  exact apart.of_append.1 rfl c rfl

end NewlinesApart

/-- Newlines between pieces can be deleted behind every text. -/
theorem reads_append_filter (apart : NewlinesApart (front ++ text)) :
    reads (front ++ text.filter (· != '\n')) = reads (front ++ text) := by
  induction text generalizing front with
  | nil => rfl
  | cons c text induction =>
      by_cases newline : c = '\n'
      · subst newline
        have inside : NewlinesApart text := apart.of_append.2
        have behind : reads (text.filter (· != '\n')) = reads text := @induction [] inside
        have boundary : Apart front ('\n' :: text) := by
          refine .of_isBlank fun d head => ?_
          cases head
          decide
        calc
          reads (front ++ ('\n' :: text).filter (· != '\n'))
              = reads front ++ reads (text.filter (· != '\n')) :=
            reads_append apart.apart_of_newline
          _ = reads front ++ reads text := by rw [behind]
          _ = reads front ++ reads ('\n' :: text) := by rw [reads_blank (by decide)]
          _ = reads (front ++ '\n' :: text) := (reads_append boundary).symm
      · rw [List.append_cons] at apart
        rw [List.filter_cons_of_pos (by simp [newline]), List.append_cons,
          List.append_cons front c text]
        exact induction apart

/-- A text whose newlines stand between pieces has the tokens that it has without them. -/
theorem tokenize_filter_newline {tokens : List Token} (apart : NewlinesApart text) :
    tokenize (text.filter (· != '\n')) = .ok tokens ↔ tokenize text = .ok tokens := by
  have same : reads (text.filter (· != '\n')) = reads text := @reads_append_filter text [] apart
  rw [tokenize_eq_ok_iff_reads, tokenize_eq_ok_iff_reads, same]

end Lexer

namespace Table

/-- An assignment has the tokens of what stands behind the first `=` of its text, read without the
newlines, and a variable that it stores has their value.  These are the tokens and the value of that
part as it stands unless newlines in it keep characters apart that join. -/
theorem assign_expression {table after : Table} {input : List Char} {tokens : List Token}
    (assigned : table.assign input = .ok (tokens, after)) :
    ∃ target expression, Text.cutAt? '=' input = some (target, expression) ∧
      Lexer.tokenize (expression.filter (· != '\n')) = .ok tokens ∧
      (Lexer.NewlinesApart expression → Lexer.tokenize expression = .ok tokens) ∧
      ∀ name, '\n' ∈ input → Key.ofText input = .value name →
        ∃ value, after = table.setVariable name value ∧
          table.evaluateText (expression.filter (· != '\n')) = .ok value ∧
          (Lexer.NewlinesApart expression → table.evaluateText expression = .ok value) := by
  obtain ⟨stored?, planned, carried⟩ := Update.perform_assign_eq_ok.mp (assign_eq_ok.mp assigned)
  obtain ⟨statement, prepared, stores⟩ := plan_eq_ok.mp planned
  obtain ⟨found, tokenized⟩ := Statement.prepare_eq_ok.mp prepared
  obtain ⟨target, expression, front, back, cut, -, around, -, blank⟩ :=
    Statement.exists_parts found
  have deleted : Lexer.tokenize (expression.filter (· != '\n')) = .ok tokens := by
    rw [around, Lexer.tokenize_append_blanks blank, tokenized]
  have kept : Lexer.NewlinesApart expression → Lexer.tokenize expression = .ok tokens :=
    fun apart => (Lexer.tokenize_filter_newline apart).mp deleted
  refine ⟨target, expression, cut, deleted, kept, fun name finished key => ?_⟩
  obtain ⟨defined, rfl⟩ : ∃ defined, stored? = some defined := by
    rw [if_pos finished] at stores
    obtain ⟨defined, -, same⟩ := stores
    exact ⟨defined, same⟩
  obtain ⟨-, named, gives⟩ := of_plan_some planned
  rw [key] at named
  cases defined with
  | function => cases named
  | value other value =>
      cases named
      have evaluated : table.evaluate tokens = .ok value := gives
      refine ⟨value, carried.symm, ?_, fun apart => ?_⟩
      · rw [evaluateText, Scope.evaluateText, deleted]
        exact evaluated
      · rw [evaluateText, Scope.evaluateText, kept apart]
        exact evaluated

/-- A newline between a number and an operator. -/
theorem assign_expression_sum :
    let input := "x = 1\n+2\n".toList
    let after := ((Update.assign input).perform .empty).2
    let sum : List Token := [.number (.scalar 1), .operator .add, .number (.scalar 2)]
    empty.assign input = .ok (sum, after) ∧ Lexer.tokenize " 1\n+2\n".toList = .ok sum ∧
      ∃ value, after = empty.setVariable "x" value ∧
        empty.evaluateText " 1\n+2\n".toList = .ok value := by
  intro input after sum
  have performed : ((Update.assign input).perform .empty).1 = .ok sum := by decide +kernel
  have assigned : empty.assign input = .ok (sum, after) := assign_eq_ok.mpr (Prod.ext performed rfl)
  obtain ⟨target, expression, cut, -, kept, stores⟩ := assign_expression assigned
  obtain ⟨rfl, rfl⟩ : target = "x ".toList ∧ expression = " 1\n+2\n".toList := by
    have parts : Text.cutAt? '=' input = some ("x ".toList, " 1\n+2\n".toList) := rfl
    rw [parts] at cut
    cases cut
    exact ⟨rfl, rfl⟩
  have apart : Lexer.NewlinesApart " 1\n+2\n".toList := by decide
  obtain ⟨value, stored, -, evaluated⟩ := stores "x" (by decide) (by decide)
  exact ⟨assigned, kept apart, value, stored, evaluated apart⟩

/-- A newline between two digits is deleted, and they become one number. -/
theorem assign_expression_digits :
    let input := "x = 1\n2\n".toList
    let after := ((Update.assign input).perform .empty).2
    empty.assign input = .ok ([.number (.scalar 12)], after) ∧
      after.valueOf? "x" = some (.scalar 12) ∧
      Text.cutAt? '=' input = some ("x ".toList, " 1\n2\n".toList) ∧
      Lexer.tokenize " 1\n2\n".toList = .ok [.number (.scalar 1), .number (.scalar 2)] ∧
      empty.evaluateText " 1\n2\n".toList = .error (.malformedExpression (.leftOver 2)) := by
  intro input after
  have performed : ((Update.assign input).perform .empty).1 = .ok [.number (.scalar 12)] := by
    decide +kernel
  refine ⟨assign_eq_ok.mpr (Prod.ext performed rfl), ?_, rfl, ?_, ?_⟩
  · decide +kernel
  · decide +kernel
  · decide +kernel

end Table
end Reckoner
