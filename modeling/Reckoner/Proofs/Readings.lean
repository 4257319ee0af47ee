import Reckoner.Proofs.Spacing

/-!
# Reading without places

What a text is read as does not depend on where it starts.  A text is read piece by piece, and what
follows a piece matters only by its first character.
-/

namespace Reckoner
namespace Lexer

open CharClass

variable {c : Char} {body piece rest text : List Char}

/-- What the lexemes of a text are read as, wherever the text starts. -/
def reads (text : List Char) : List (Option Token) := (scan text).map Lexeme.token?

theorem map_token?_scanFrom (start : Nat) (text : List Char) :
    (scanFrom start text).map Lexeme.token? = reads text := by
  have anywhere : ∀ other, (scanFrom start text).map Lexeme.token? =
      (scanFrom other text).map Lexeme.token? := by
    induction start, text using scanFrom.induct with
    | case1 start => simp
    | case2 start c rest blank induction =>
        intro other
        rw [scanFrom_blank blank, scanFrom_blank blank]
        exact induction _
    | case3 start c rest visible parts induction =>
        intro other
        rw [scanFrom_cons visible, scanFrom_cons visible, List.map_cons, List.map_cons]
        exact congrArg _ (induction _)
  exact anywhere 0

theorem reads_nil : reads [] = [] := by
  rw [reads, scan, scanFrom_nil, List.map_nil]

theorem reads_blank (blank : ofChar c = .blank) : reads (c :: rest) = reads rest := by
  rw [reads, scan, scanFrom_blank blank, map_token?_scanFrom]

theorem reads_cons (visible : ofChar c ≠ .blank) :
    reads (c :: rest) = tokenOf? c (cut c rest).1 (cut c rest).2 :: reads (cut c rest).2 := by
  rw [reads, scan, scanFrom_cons visible, List.map_cons, map_token?_scanFrom]

/-- Two texts are read one after the other if no piece reaches over. -/
theorem reads_append (apart : Apart text rest) :
    reads (text ++ rest) = reads text ++ reads rest := by
  rw [reads, scan, scanFrom_append_of_apart 0 apart, List.map_append, map_token?_scanFrom,
    map_token?_scanFrom]

theorem reads_run (runs : (ofChar c).runs = true) (inside : ∀ d ∈ body, ofChar d = ofChar c)
    (ends : ∀ d ∈ rest.head?, ofChar d ≠ ofChar c) :
    reads (c :: (body ++ rest)) = tokenOf? c (c :: body) rest :: reads rest := by
  have visible : ofChar c ≠ .blank := by
    intro blank
    rw [blank] at runs
    cases runs
  rw [reads_cons visible, cut_run runs inside ends]

/-- A character that does not run on is read alone, except that two stars belong together. -/
theorem reads_single (visible : ofChar c ≠ .blank) (alone : (ofChar c).runs = false)
    (noStar : c ≠ '*') : reads (c :: rest) = tokenOf? c [c] rest :: reads rest := by
  rw [reads_cons visible, cut_single alone fun star => absurd star noStar]

theorem reads_opening (shape : Bracket) :
    reads (shape.openingSymbol :: rest) = some (.opening shape) :: reads rest := by
  cases shape <;> exact reads_single (by decide) rfl (by decide)

theorem reads_closing (shape : Bracket) :
    reads (shape.closingSymbol :: rest) = some (.closing shape) :: reads rest := by
  cases shape <;> exact reads_single (by decide) rfl (by decide)

theorem tokenize_eq_ok_iff_reads {tokens : List Token} :
    tokenize text = .ok tokens ↔ reads text = tokens.map some :=
  tokenize_eq_ok_iff

theorem reads_numeral (filled : piece ≠ []) (inside : ∀ c ∈ piece, Text.isNumeralChar c = true)
    (ends : ∀ c ∈ rest.head?, Text.isNumeralChar c = false) :
    reads (piece ++ rest) =
      (Numeral.read? piece).map (fun x => .number (.scalar x)) :: reads rest := by
  rcases piece with - | ⟨c, body⟩
  · exact absurd rfl filled
  · have classes : ∀ d ∈ c :: body, ofChar d = .numeral := fun d member =>
      ofChar_eq_numeral_iff.mpr (inside d member)
    have first := classes c List.mem_cons_self
    have stops : ∀ d ∈ rest.head?, ofChar d ≠ ofChar c := by
      intro d head
      rw [first, ne_eq, ofChar_eq_numeral_iff, ends d head]
      decide
    rw [List.cons_append, reads_run (by rw [first]; rfl) ?_ stops, tokenOf?, first]
    intro d member
    rw [first, classes d (List.mem_cons_of_mem c member)]

theorem reads_blanks {front : List Char} (blank : ∀ c ∈ front, Text.isBlank c = true) :
    reads (front ++ rest) = reads rest := by
  induction front with
  | nil => rfl
  | cons c front induction =>
      obtain ⟨first, others⟩ := List.forall_mem_cons.mp blank
      rw [List.cons_append, reads_blank (ofChar_eq_blank_iff.mpr first), induction others]

theorem reads_separator (separates : Text.isSeparatorChar c = true)
    (ends : ∀ d ∈ rest.head?, Text.isSeparatorChar d = false) :
    reads (c :: rest) = some .separator :: reads rest := by
  have kind : ofChar c = .separator := ofChar_eq_separator_iff.mpr separates
  have stops : ∀ d ∈ rest.head?, ofChar d ≠ ofChar c := by
    intro d head
    rw [kind, ne_eq, ofChar_eq_separator_iff, ends d head]
    decide
  have read := @reads_run c [] rest (by rw [kind]; rfl) (by simp) stops
  rwa [List.nil_append, tokenOf?, kind] at read

theorem reads_functionName (filled : piece ≠ [])
    (inside : ∀ c ∈ piece, Text.isNameChar c = true) :
    reads (piece ++ '(' :: rest) =
      some (.functionName (String.ofList piece)) :: some (.opening .round) :: reads rest := by
  have classes : ∀ c ∈ piece, ofChar c = .name := fun c member =>
    ofChar_eq_name_iff.mpr (inside c member)
  have named := @token?_scanFrom_name ('(' :: rest) 0 piece filled classes
    (by rw [List.head?_cons]; rintro _ ⟨⟩; decide)
  have bracket : reads ('(' :: rest) = some (.opening .round) :: reads rest := reads_opening .round
  rw [map_token?_scanFrom, map_token?_scanFrom] at named
  rw [named, bracket]
  rfl

end Lexer
end Reckoner
