import Mathlib.Data.List.TakeWhile
import Reckoner.Text.Blank
import Reckoner.Text.Split

/-!
# Cutting and trimming

What a cut and a trim take away from a text.
-/

namespace Reckoner
namespace Text

variable {mark : Char} {text front back : List Char}

/-! ## Cutting -/

theorem before_append (absent : mark ∉ front) :
    before mark (front ++ text) = front ++ before mark text := by
  refine List.takeWhile_append_of_pos fun c member => ?_
  simpa using fun same : c = mark => absent (same ▸ member)

theorem before_append_cons (absent : mark ∉ front) :
    before mark (front ++ mark :: back) = front := by
  rw [before_append absent]
  simp [before]

theorem before_of_notMem (absent : mark ∉ text) : before mark text = text := by
  simpa [before] using @before_append mark [] text absent

theorem notMem_before (mark : Char) (text : List Char) : mark ∉ before mark text := by
  intro member
  simpa using List.mem_takeWhile_imp member

theorem before_filter {keeps : Char → Bool} (kept : keeps mark = true) (text : List Char) :
    before mark (text.filter keeps) = (before mark text).filter keeps := by
  by_cases marked : mark ∈ text
  · obtain ⟨front, back, rfl, absent⟩ := List.eq_append_cons_of_mem marked
    rw [List.filter_append, List.filter_cons_of_pos kept, before_append_cons absent,
      before_append_cons fun member => absent (List.mem_filter.mp member).1]
  · rw [before_of_notMem marked,
      before_of_notMem fun member => marked (List.mem_filter.mp member).1]

/-- A text is cut at a mark that the part before it does not have. -/
theorem cutAt?_eq_some_iff :
    cutAt? mark text = some (front, back) ↔ text = front ++ mark :: back ∧ mark ∉ front := by
  have parts : before mark text ++ text.dropWhile (· != mark) = text :=
    List.takeWhile_append_dropWhile
  constructor
  · intro cut
    rw [cutAt?] at cut
    split at cut
    · cases cut
    · rename_i c rest dropped
      cases cut
      have head : c = mark := by
        have stops := List.head_dropWhile_not (· != mark) (l := text) (by simp [dropped])
        simpa [dropped] using stops
      subst head
      exact ⟨by rw [← dropped, parts], notMem_before c text⟩
  · rintro ⟨rfl, absent⟩
    rw [before_append_cons absent] at parts
    rw [cutAt?, List.append_cancel_left parts, before_append_cons absent]

theorem cutAt?_eq_none_iff : cutAt? mark text = none ↔ mark ∉ text := by
  constructor
  · intro uncut member
    obtain ⟨front, back, rfl, absent⟩ := List.eq_append_cons_of_mem member
    rw [cutAt?_eq_some_iff.mpr ⟨rfl, absent⟩] at uncut
    cases uncut
  · intro absent
    cases cut : cutAt? mark text with
    | none => rfl
    | some parts =>
        obtain ⟨rfl, -⟩ := cutAt?_eq_some_iff.mp cut
        simp at absent

/-- A cut at a mark that is not blank leaves blank characters at the end where they are. -/
theorem cutAt?_append_blanks {mark : Char} (visible : isBlank mark = false)
    (blank : ∀ c ∈ back, isBlank c = true) :
    cutAt? mark (text ++ back) =
      (cutAt? mark text).map fun parts => (parts.1, parts.2 ++ back) := by
  have absent : mark ∉ back := by
    intro member
    rw [blank mark member] at visible
    cases visible
  cases cut : cutAt? mark text with
  | none =>
      have unmarked := cutAt?_eq_none_iff.mp cut
      exact cutAt?_eq_none_iff.mpr (by simp [unmarked, absent])
  | some parts =>
      obtain ⟨front, rest⟩ := parts
      obtain ⟨rfl, unmarked⟩ := cutAt?_eq_some_iff.mp cut
      exact cutAt?_eq_some_iff.mpr ⟨by simp, unmarked⟩

/-! ## Pieces -/

theorem pieces_eq_splitOn (mark : Char) (text : List Char) :
    pieces mark text = text.splitOn mark := by
  induction text with
  | nil => rfl
  | cons c text induction =>
      rw [List.splitOn, List.splitOnP_cons_eq_if_modifyHead, pieces, induction, List.splitOn]
      obtain ⟨piece, rest, cuts⟩ :=
        List.exists_cons_of_ne_nil (List.splitOnP_ne_nil (· == mark) text)
      rw [cuts, List.modifyHead_cons]
      simp only [beq_iff_eq]

theorem pieces_of_notMem (absent : mark ∉ text) : pieces mark text = [text] := by
  rw [pieces_eq_splitOn, List.splitOn_eq_singleton absent]

theorem pieces_append_cons (mark : Char) (front back : List Char) :
    pieces mark (front ++ mark :: back) = pieces mark front ++ pieces mark back := by
  simp only [pieces_eq_splitOn, List.splitOn]
  exact List.splitOnP_append_cons front back (beq_self_eq_true mark)

theorem length_pieces (mark : Char) (text : List Char) :
    (pieces mark text).length = text.count mark + 1 := by
  induction text with
  | nil => rfl
  | cons c text induction =>
      rw [pieces]
      by_cases same : c = mark
      · rw [if_pos same, List.length_cons, induction, same, List.count_cons_self]
      · rw [if_neg same, List.count_cons_of_ne same, ← induction]
        cases cuts : pieces mark text with
        | nil => simp [cuts] at induction
        | cons piece rest => rfl

/-! ## Trimming -/

theorem trim_append (blank : ∀ c ∈ front, isBlank c = true) : trim (front ++ text) = trim text := by
  rw [trim, trim, trimStart, List.dropWhile_append_of_pos blank]
  rfl

theorem trim_append_blanks (blank : ∀ c ∈ back, isBlank c = true) :
    trim (text ++ back) = trim text := by
  have start : trimStart (text ++ back) =
      if trimStart text = [] then [] else trimStart text ++ back := by
    simp only [trimStart, List.dropWhile_append, List.isEmpty_iff,
      List.dropWhile_eq_nil_iff.mpr blank]
    rfl
  rw [trim, trim, start]
  split_ifs with empty
  · rw [empty]
  · rw [trimEnd, trimEnd, List.reverse_append, List.dropWhile_append_of_pos (by simpa using blank)]

theorem exists_trimEnd (text : List Char) :
    ∃ back, text = trimEnd text ++ back ∧ ∀ c ∈ back, isBlank c = true := by
  refine ⟨(text.reverse.takeWhile isBlank).reverse, ?_, fun c member => ?_⟩
  · rw [trimEnd, ← List.reverse_append, List.takeWhile_append_dropWhile, List.reverse_reverse]
  · exact List.mem_takeWhile_imp (List.mem_reverse.mp member)

theorem dropWhile_isBlank_of_head? (visible : ∀ c ∈ text.head?, isBlank c = false) :
    text.dropWhile isBlank = text := by
  cases text with
  | nil => rfl
  | cons c text => rw [List.dropWhile_cons_of_neg (by simp [visible c rfl])]

/-- A text that starts with a character that is not blank is trimmed at its end only. -/
theorem trim_eq_trimEnd (visible : ∀ c ∈ text.head?, isBlank c = false) :
    trim text = trimEnd text := by
  rw [trim, trimStart, dropWhile_isBlank_of_head? visible]

theorem trimEnd_append_cons (visible : isBlank mark = false) (front back : List Char) :
    trimEnd (front ++ mark :: back) = front ++ mark :: trimEnd back := by
  have stops : (back.reverse ++ mark :: front.reverse).dropWhile isBlank =
      back.reverse.dropWhile isBlank ++ mark :: front.reverse := by
    rw [List.dropWhile_append]
    split_ifs with empty
    · rw [List.dropWhile_cons_of_neg (by simp [visible]), List.isEmpty_iff.mp empty]
      rfl
    · rfl
  rw [trimEnd, List.reverse_append, List.reverse_cons, List.append_assoc, List.singleton_append,
    stops, List.reverse_append, List.reverse_cons, List.reverse_reverse, List.append_assoc,
    List.singleton_append, trimEnd]

theorem exists_trim (text : List Char) :
    ∃ front back, text = front ++ (trim text ++ back) ∧ (∀ c ∈ front, isBlank c = true) ∧
      ∀ c ∈ back, isBlank c = true := by
  obtain ⟨back, around, blank⟩ := exists_trimEnd (trimStart text)
  refine ⟨text.takeWhile isBlank, back, ?_, fun c => List.mem_takeWhile_imp, blank⟩
  rw [trim, ← around, trimStart, List.takeWhile_append_dropWhile]

theorem mem_of_mem_trim {c : Char} (member : c ∈ trim text) : c ∈ text := by
  obtain ⟨front, back, around, -⟩ := exists_trim text
  rw [around]
  simp [member]

/-- No blank character stands at either end of a text. -/
structure Trimmed (text : List Char) : Prop where
  first : ∀ c ∈ text.head?, isBlank c = false
  last : ∀ c ∈ text.getLast?, isBlank c = false

theorem isBlank_of_mem_head?_dropWhile {c : Char} (head : c ∈ (text.dropWhile isBlank).head?) :
    isBlank c = false := by
  have stops := List.head?_dropWhile_not isBlank text
  rw [Option.mem_def.mp head] at stops
  exact stops

theorem trim_eq_nil_iff : trim text = [] ↔ ∀ c ∈ text, isBlank c = true := by
  constructor
  · intro empty
    rw [trim, trimEnd, List.reverse_eq_nil_iff, List.dropWhile_eq_nil_iff] at empty
    cases start : trimStart text with
    | nil => exact List.dropWhile_eq_nil_iff.mp start
    | cons c rest =>
        have visible : isBlank c = false :=
          @isBlank_of_mem_head?_dropWhile text c (by rw [← trimStart, start]; rfl)
        have blank := empty c (by simp [start])
        rw [visible] at blank
        cases blank
  · intro blank
    rw [trim, trimStart, List.dropWhile_eq_nil_iff.mpr blank]
    rfl

theorem trimmed_trim (text : List Char) : Trimmed (trim text) where
  first c head := by
    obtain ⟨back, whole⟩ : trim text <+: trimStart text := by
      rw [trim, trimEnd, ← List.reverse_suffix, List.reverse_reverse]
      exact List.dropWhile_suffix _
    refine @isBlank_of_mem_head?_dropWhile text c ?_
    rw [← trimStart, ← whole, List.head?_append, Option.mem_def.mp head]
    rfl
  last c last := by
    rw [trim, trimEnd, List.getLast?_reverse] at last
    exact isBlank_of_mem_head?_dropWhile last

theorem Trimmed.trim_eq (trimmed : Trimmed text) : trim text = text := by
  rw [trim_eq_trimEnd trimmed.first, trimEnd,
    dropWhile_isBlank_of_head? (by simpa using trimmed.last), List.reverse_reverse]

/-- Deleting characters from the blank ends of a text does not matter to what is left of it. -/
theorem trim_filter {keeps : Char → Bool} (kept : ∀ c ∈ trim text, keeps c = true) :
    trim (text.filter keeps) = trim text := by
  obtain ⟨front, back, around, blankFront, blankBack⟩ := exists_trim text
  have parts : text.filter keeps = front.filter keeps ++ (trim text ++ back.filter keeps) := by
    have filtered := congrArg (List.filter keeps) around
    rwa [List.filter_append, List.filter_append, List.filter_eq_self.mpr kept] at filtered
  rw [parts, trim_append fun c member => blankFront c (List.mem_filter.mp member).1,
    trim_append_blanks fun c member => blankBack c (List.mem_filter.mp member).1,
    (trimmed_trim text).trim_eq]

/-! ## Line ends -/

/-- Line ends taken from a reversed text are blank characters behind the text. -/
theorem exists_reverse_eq_append (line : List Char) :
    ∃ back, line.reverse = (line.dropWhile fun c => c == '\n' || c == '\r').reverse ++ back ∧
      ∀ c ∈ back, isBlank c = true := by
  refine ⟨(line.takeWhile fun c => c == '\n' || c == '\r').reverse, ?_, fun c member => ?_⟩
  · rw [← List.reverse_append, List.takeWhile_append_dropWhile]
  · have ends := List.mem_takeWhile_imp (List.mem_reverse.mp member)
    simp only [Bool.or_eq_true, beq_iff_eq] at ends
    rcases ends with rfl | rfl <;> decide

/-- A line of a script has all that a line of the standard input has of the same record, and blank
characters behind it. -/
theorem exists_withoutLineEnd (record : List Char) :
    ∃ back, withoutLineEnd record = withoutLineEnds record ++ back ∧
      ∀ c ∈ back, isBlank c = true := by
  rw [withoutLineEnd, withoutLineEnds]
  split
  · rename_i line reversed
    simpa [reversed] using exists_reverse_eq_append line
  · rename_i line _ reversed
    simpa [reversed] using exists_reverse_eq_append line
  · simpa using exists_reverse_eq_append record.reverse

end Text
end Reckoner
