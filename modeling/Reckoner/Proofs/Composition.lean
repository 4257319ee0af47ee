import Reckoner.Proofs.Spacing

/-!
# Texts side by side

Two texts with blank characters between them are read one after the other.  The second is read as it
is by itself, except that everything in it has moved behind the bytes before it.
-/

namespace Reckoner

/-- A range of bytes behind a number of other bytes. -/
def ByteRange.moved (bytes : Nat) (range : ByteRange) : ByteRange :=
  ⟨bytes + range.start, bytes + range.stop⟩

/-- A fault in a text that stands behind a number of other bytes. -/
def Fault.moved (bytes : Nat) : Fault → Fault
  | malformedLiteral literal place => malformedLiteral literal (place.moved bytes)
  | fault => fault

namespace Lexeme

variable {bytes : Nat} {lexeme : Lexeme}

/-- A lexeme of a text that stands behind a number of other bytes. -/
def moved (bytes : Nat) (lexeme : Lexeme) : Lexeme :=
  { lexeme with start := bytes + lexeme.start }

@[simp]
theorem range_moved : (lexeme.moved bytes).range = lexeme.range.moved bytes := by
  simp only [range, moved, ByteRange.moved, Nat.add_assoc]

@[simp]
theorem outcome_moved :
    (lexeme.moved bytes).outcome = lexeme.outcome.mapError (Fault.moved bytes) := by
  have token : (lexeme.moved bytes).token? = lexeme.token? := rfl
  rw [outcome, outcome, token, range_moved]
  cases lexeme.token? <;> rfl

end Lexeme

namespace Lexer

open CharClass

variable {front between back : List Char}

theorem not_joins_blank {c d : Char} (blank : Text.isBlank c = true) : ¬Joins c d := by
  have kind : ofChar c = .blank := ofChar_eq_blank_iff.mpr blank
  rintro (⟨runs, -⟩ | ⟨rfl, -⟩ | ⟨name, -⟩)
  · rw [kind] at runs
    cases runs
  · cases kind
  · rw [kind] at name
    cases name

theorem Apart.of_blanks (blank : ∀ c ∈ between, Text.isBlank c = true) : Apart between back :=
  fun c last _ _ => not_joins_blank (blank c (List.mem_of_getLast? last))

/-- Where a text starts only matters to the places of its lexemes. -/
theorem scanFrom_add (bytes start : Nat) (text : List Char) :
    scanFrom (bytes + start) text = (scanFrom start text).map (Lexeme.moved bytes) := by
  induction start, text using scanFrom.induct with
  | case1 start => simp
  | case2 start c rest blank induction =>
      rw [scanFrom_blank blank, scanFrom_blank blank, Nat.add_assoc, induction]
  | case3 start c rest visible parts induction =>
      rw [scanFrom_cons visible, scanFrom_cons visible, Nat.add_assoc, induction]
      rfl

/-- Texts with blank characters between them have their lexemes one after the other. -/
theorem scan_append_blanks_append (filled : between ≠ [])
    (blank : ∀ c ∈ between, Text.isBlank c = true) (front back : List Char) :
    scan (front ++ between ++ back) =
      scan front ++ (scan back).map (Lexeme.moved (Lexeme.byteCount (front ++ between))) := by
  have apart : Apart front (between ++ back) := .of_isBlank fun d head =>
    blank d (List.mem_of_mem_head? (by rwa [List.head?_append_of_ne_nil _ filled] at head))
  calc
    scan (front ++ between ++ back) = scanFrom 0 (front ++ (between ++ back)) := by
      rw [scan, List.append_assoc]
    _ = scan front ++ scanFrom (0 + Lexeme.byteCount front) (between ++ back) :=
      scanFrom_append_of_apart 0 apart
    _ = scan front ++ scanFrom (Lexeme.byteCount (front ++ between) + 0) back := by
      rw [scanFrom_append_of_apart _ (.of_blanks blank), scanFrom_blanks blank,
        Lexeme.byteCount_append, Nat.zero_add, Nat.add_zero, List.nil_append]
    _ = scan front ++ (scan back).map (Lexeme.moved (Lexeme.byteCount (front ++ between))) := by
      rw [scanFrom_add]
      rfl

theorem mapM_outcome_moved (bytes : Nat) (lexemes : List Lexeme) :
    (lexemes.map (Lexeme.moved bytes)).mapM Lexeme.outcome =
      (lexemes.mapM Lexeme.outcome).mapError (Fault.moved bytes) := by
  induction lexemes with
  | nil => rfl
  | cons lexeme lexemes induction =>
      rw [List.map_cons, List.mapM_cons, List.mapM_cons, induction, Lexeme.outcome_moved]
      cases lexeme.outcome with
      | error fault => rfl
      | ok token => cases lexemes.mapM Lexeme.outcome <;> rfl

theorem tokenize_append_blanks_append (filled : between ≠ [])
    (blank : ∀ c ∈ between, Text.isBlank c = true) (front back : List Char) :
    tokenize (front ++ between ++ back) = (do
      let tokens ← tokenize front
      let others ← (tokenize back).mapError
        (Fault.moved (Lexeme.byteCount (front ++ between)))
      return tokens ++ others) := by
  rw [tokenize, scan_append_blanks_append filled blank, List.mapM_append, mapM_outcome_moved]
  rfl

/-- Reading composes over blank characters.  The lexemes of the whole, malformed ones included, are
those of the front and then those of the back, moved behind the bytes before them.  If both texts
have tokens, these stand one after the other; a fault of the front is one of the whole as it is, and
a fault of the back alone is one of the whole at its new place. -/
theorem compose_blanks (filled : between ≠ [])
    (blank : ∀ c ∈ between, Text.isBlank c = true) (front back : List Char) :
    let whole := front ++ between ++ back
    let bytes := Lexeme.byteCount (front ++ between)
    scan whole = scan front ++ (scan back).map (Lexeme.moved bytes) ∧
      (∀ tokens others, tokenize front = .ok tokens → tokenize back = .ok others →
        tokenize whole = .ok (tokens ++ others)) ∧
      (∀ fault, tokenize front = .error fault → tokenize whole = .error fault) ∧
      ∀ tokens fault, tokenize front = .ok tokens → tokenize back = .error fault →
        ∃ literal place, fault = .malformedLiteral literal place ∧
          tokenize whole =
            .error (.malformedLiteral literal ⟨bytes + place.start, bytes + place.stop⟩) := by
  intro whole bytes
  have composed : tokenize whole = _ := tokenize_append_blanks_append filled blank front back
  refine ⟨scan_append_blanks_append filled blank front back, ?_, ?_, ?_⟩
  · intro tokens others first second
    rw [composed, first, second]
    rfl
  · intro fault first
    rw [composed, first]
    rfl
  · intro tokens fault first second
    obtain ⟨literal, place, rfl⟩ : ∃ literal place, fault = .malformedLiteral literal place := by
      rw [tokenize_eq_match] at second
      split at second
      · cases second
      · cases second
        exact ⟨_, _, rfl⟩
    refine ⟨literal, place, rfl, ?_⟩
    rw [composed, first, second]
    rfl

/-- Stars on the two sides of blank characters are two products, and a malformed number behind them
keeps its text. -/
theorem compose_blanks_stars :
    let blanks := " \u2003".toList
    (∀ c ∈ blanks, Text.isBlank c = true) ∧
      tokenize "αβ*".toList = .ok [.variableName "αβ", .operator .mul] ∧
      tokenize "*4..2".toList = .error (.malformedLiteral "4..2" ⟨1, 5⟩) ∧
      tokenize ("αβ*".toList ++ blanks ++ "*4..2".toList) =
        .error (.malformedLiteral "4..2" ⟨10, 14⟩) ∧
      tokenize ("αβ*".toList ++ blanks ++ "*4".toList) =
        .ok [.variableName "αβ", .operator .mul, .operator .mul, .number (.scalar 4)] := by
  intro blanks
  have blank : ∀ c ∈ blanks, Text.isBlank c = true :=
    List.all_eq_true.mp (by decide +kernel)
  have first : tokenize "αβ*".toList = .ok [.variableName "αβ", .operator .mul] := by
    decide +kernel
  have malformed : tokenize "*4..2".toList = .error (.malformedLiteral "4..2" ⟨1, 5⟩) := by
    decide +kernel
  have second : tokenize "*4".toList = .ok [.operator .mul, .number (.scalar 4)] := by
    decide +kernel
  obtain ⟨-, -, -, moves⟩ := compose_blanks (by decide) blank "αβ*".toList "*4..2".toList
  obtain ⟨-, joins, -, -⟩ := compose_blanks (by decide) blank "αβ*".toList "*4".toList
  obtain ⟨literal, place, same, failed⟩ := moves _ _ first malformed
  cases same
  exact ⟨blank, first, malformed, failed, joins _ _ first second⟩

end Lexer
end Reckoner
