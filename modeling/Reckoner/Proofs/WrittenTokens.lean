import Reckoner.Proofs.WrittenValues

/-!
# Reading written tokens

The tokens of a text have texts of their own.  Written one after the other, with blank characters
between them except behind the name of a function, they are read as the same tokens again.
-/

namespace Reckoner

/-- The text of a token sequence.  A blank character stands between two tokens, unless the first of
them names a function. -/
def Token.writeAll : List Token → List Char
  | [] => []
  | [token] => token.write
  | token :: next :: rest =>
      token.write ++ (if token.isFunctionName then [] else [' ']) ++ writeAll (next :: rest)

theorem Token.exists_writeAll (token : Token) (rest : List Token) :
    ∃ back, writeAll (token :: rest) = token.write ++ back := by
  cases rest with
  | nil => exact ⟨[], (List.append_nil _).symm⟩
  | cons next rest => exact ⟨_, List.append_assoc ..⟩

/-- A token that can be read from a text: a number is a scalar without a sign, and a name is made of
characters that stand in names. -/
def Token.Legible : Token → Prop
  | number value => ∃ x, value = .scalar x ∧ Binary64.isNegative x = false
  | variableName name => name ≠ "" ∧ Readable name
  | functionName name => name ≠ "" ∧ Readable name
  | _ => True

/-- Every name of a function stands directly before a round bracket. -/
def CallsBracketed : List Token → Prop
  | [] => True
  | token :: rest =>
      (token.isFunctionName = true → rest.head? = some (.opening .round)) ∧ CallsBracketed rest

/-- Whether a token ends where a text begins: a round bracket follows the name of a function, and
nothing visible follows any other token. -/
def Token.EndsBefore (token : Token) (rest : List Char) : Prop :=
  if token.isFunctionName then rest.head? = some '('
  else ∀ c ∈ rest.head?, Text.isBlank c = true

theorem Text.MaximalRun.name_ne_empty {holds : Char → Bool} {front piece back : List Char}
    (run : Text.MaximalRun holds front piece back) : String.ofList piece ≠ "" := by
  simpa using run.filled

namespace Lexer

open CharClass

variable {text rest : List Char} {token : Token} {tokens : List Token}

theorem reads_openingRound : reads ('(' :: rest) = some (.opening .round) :: reads rest :=
  reads_opening .round

/-! ## What texts are read as -/

theorem legible_of_tokenize (tokenized : tokenize text = .ok tokens) :
    ∀ token ∈ tokens, token.Legible := by
  intro token member
  obtain ⟨lexeme, scanned, found⟩ := exists_lexeme_of_mem tokenized member
  obtain ⟨front, back, -, -, reads⟩ := (covers_scan text).exists_place scanned
  rw [outcome_eq_ok_iff.mpr found] at reads
  generalize lexeme.piece = piece at reads
  cases reads with
  | number run read =>
      have unsigned : ∀ mark, Text.isNumeralChar mark = false → piece.head? ≠ some mark := by
        intro mark other head
        have numeral := run.inside mark (List.mem_of_mem_head? head)
        rw [other] at numeral
        cases numeral
      rw [Numeral.read?_unsigned (unsigned '-' (by decide)) (unsigned '+' (by decide))] at read
      exact ⟨_, rfl, Numeral.isNegative_of_readMagnitude? read⟩
  | functionName run => exact ⟨run.name_ne_empty, by simpa [Readable] using run.inside⟩
  | variableName run => exact ⟨run.name_ne_empty, by simpa [Readable] using run.inside⟩
  | _ => trivial

theorem callsBracketed_of_reads (start : Nat) (text : List Char) :
    ∀ tokens : List Token, reads text = tokens.map some → CallsBracketed tokens := by
  induction start, text using scanFrom.induct with
  | case1 start =>
      intro tokens read
      rw [reads_nil] at read
      rw [List.map_eq_nil_iff.mp read.symm]
      trivial
  | case2 start c rest blank induction =>
      intro tokens read
      rw [reads_blank blank] at read
      exact induction tokens read
  | case3 start c rest visible parts induction =>
      intro tokens read
      rw [reads_cons visible] at read
      obtain ⟨token, others, rfl, first, behind⟩ := List.map_eq_cons_iff.mp read.symm
      refine ⟨fun function => ?_, induction others behind.symm⟩
      obtain ⟨name, rfl⟩ := Token.exists_functionName function
      -- Only the bracket behind a name makes it that of a function.
      have bracket : (cut c rest).2.head? = some '(' := by
        have kind := (of_tokenOf?_named (.inr first.symm)).1
        rw [tokenOf?, kind] at first
        dsimp only at first
        split_ifs at first with head
        · exact head
        · cases first
      obtain ⟨back, same⟩ := List.head?_eq_some_iff.mp bracket
      rw [same, reads_openingRound] at behind
      obtain ⟨next, later, rfl, opens, -⟩ := List.map_eq_cons_iff.mp behind
      rw [List.head?_cons, Option.some.inj opens]

theorem callsBracketed_of_tokenize (tokenized : tokenize text = .ok tokens) :
    CallsBracketed tokens :=
  callsBracketed_of_reads 0 text tokens (tokenize_eq_ok_iff_reads.mp tokenized)

/-! ## Reading one token -/

theorem head?_ne_of_blanks {holds : Char → Bool}
    (visible : ∀ c, holds c = true → Text.isBlank c = false)
    (blank : ∀ c ∈ rest.head?, Text.isBlank c = true) : ∀ c ∈ rest.head?, holds c = false := by
  intro c head
  by_contra other
  have := visible c (by simpa using other)
  rw [blank c head] at this
  cases this

theorem reads_variableName {piece : List Char} (filled : piece ≠ [])
    (inside : ∀ c ∈ piece, Text.isNameChar c = true)
    (blank : ∀ c ∈ rest.head?, Text.isBlank c = true) :
    reads (piece ++ rest) = some (.variableName (String.ofList piece)) :: reads rest := by
  have ends : ∀ c ∈ rest.head?, ofChar c ≠ .name := fun c head name => by
    rw [ofChar_eq_name_iff, head?_ne_of_blanks (fun _ => Text.isBlank_of_isNameChar) blank c head]
      at name
    cases name
  have named := @token?_scanFrom_name rest 0 piece filled
    (fun c member => ofChar_eq_name_iff.mpr (inside c member)) ends
  rw [map_token?_scanFrom, map_token?_scanFrom] at named
  rw [named, if_neg]
  intro bracket
  exact absurd (blank _ bracket) (by decide)

theorem reads_operator (op : Operator) (blank : ∀ c ∈ rest.head?, Text.isBlank c = true) :
    reads (op.symbol :: rest) = some (.operator op) :: reads rest := by
  have kind : ofChar op.symbol = .operator op := ofChar_eq_operator_iff.mpr rfl
  have single : op.symbol = '*' → rest.head? ≠ some '*' := fun _ star =>
    absurd (blank _ star) (by decide)
  have visible : ofChar op.symbol ≠ .blank := by
    rw [kind]
    nofun
  rw [reads_cons visible, cut_single (by rw [kind]; rfl) single, tokenOf?, kind]
  simp

/-- A legible token is read from its text wherever it ends. -/
theorem reads_token (legible : token.Legible)
    (finite : ∀ value, token = .number value → value.isFinite = true)
    (ends : token.EndsBefore rest) :
    reads (token.write ++ rest) = some token :: reads rest := by
  cases token with
  | number value =>
      obtain ⟨x, rfl, unsigned⟩ := legible
      have bounded : x.isFinite = true := by simpa [Value.isFinite, Value.scalar] using finite _ rfl
      have read := @reads_number rest x bounded
        (head?_ne_of_blanks (fun _ => Text.isBlank_of_isNumeralChar) ends)
      have magnitude := Binary64.ofRank_rank x
      rw [unsigned] at magnitude
      rw [numberTokens, unsigned, magnitude] at read
      exact read
  | opening shape => exact reads_opening shape
  | closing shape => exact reads_closing shape
  | operator op => exact reads_operator op ends
  | variableName name =>
      have read := @reads_variableName rest name.toList (by simpa using legible.1) legible.2 ends
      rwa [String.ofList_toList] at read
  | functionName name =>
      obtain ⟨back, rfl⟩ := List.head?_eq_some_iff.mp ends
      have read := @reads_functionName name.toList back (by simpa using legible.1) legible.2
      rwa [String.ofList_toList, ← reads_openingRound] at read
  | separator =>
      exact reads_separator rfl
        (head?_ne_of_blanks (fun _ => Text.isBlank_of_isSeparatorChar) ends)

/-! ## Reading all tokens -/

theorem reads_writeAll (legible : ∀ token ∈ tokens, token.Legible)
    (finite : ∀ value, .number value ∈ tokens → value.isFinite = true)
    (calls : CallsBracketed tokens) : reads (Token.writeAll tokens) = tokens.map some := by
  induction tokens using Token.writeAll.induct with
  | case1 => exact reads_nil
  | case2 token =>
      have plain : token.isFunctionName = false := by
        by_contra function
        cases calls.1 (by simpa using function)
      have read := @reads_token [] token (legible token List.mem_cons_self)
        (fun value same => finite value (same ▸ List.mem_cons_self))
        (by simp [Token.EndsBefore, plain])
      rwa [List.append_nil, reads_nil] at read
  | case3 token next rest induction =>
      obtain ⟨bracket, others⟩ := calls
      have later := induction (fun token member => legible token (List.mem_cons_of_mem _ member))
        (fun value member => finite value (List.mem_cons_of_mem _ member)) others
      have first : ∀ back, token.EndsBefore back →
          reads (token.write ++ back) = some token :: reads back := fun back =>
        reads_token (legible token List.mem_cons_self)
          fun value same => finite value (same ▸ List.mem_cons_self)
      rw [Token.writeAll, List.append_assoc]
      cases function : token.isFunctionName with
      | true =>
          obtain rfl : next = .opening .round := by simpa using bracket function
          obtain ⟨back, starts⟩ := Token.exists_writeAll (.opening .round) rest
          have ends : token.EndsBefore (Token.writeAll (.opening .round :: rest)) := by
            rw [starts, Token.EndsBefore, if_pos function]
            rfl
          rw [if_pos rfl, List.nil_append, first _ ends, later]
          rfl
      | false =>
          have blank : Text.isBlank ' ' = true := rfl
          rw [if_neg (by simp), first _ (by simp [Token.EndsBefore, function, blank]),
            List.singleton_append, reads_blank (ofChar_eq_blank_iff.mpr blank), later]
          rfl

/-- The tokens of a text are read back from their own texts: legible tokens with every name of a
function before its bracket are all that a text can give. -/
theorem tokenize_writeAll (tokenized : tokenize text = .ok tokens)
    (finite : ∀ value, .number value ∈ tokens → value.isFinite = true) :
    tokenize (Token.writeAll tokens) = .ok tokens :=
  tokenize_eq_ok_iff_reads.mpr
    (reads_writeAll (legible_of_tokenize tokenized) finite (callsBracketed_of_tokenize tokenized))

/-- Names before brackets, stars apart and together, a run of separators, and numbers that are
written in another way than they were read. -/
theorem tokenize_writeAll_stars :
    let text := "f(x (00.50,,;2.)* *3**g,\t[y])".toList
    let tokens : List Token :=
      [.functionName "f", .opening .round, .variableName "x", .opening .round,
        .number (.scalar 0.5), .separator, .number (.scalar 2), .closing .round, .operator .mul,
        .operator .mul, .number (.scalar 3), .operator .pow, .variableName "g", .separator,
        .opening .square, .variableName "y", .closing .square, .closing .round]
    tokenize text = .ok tokens ∧
      (∀ value, .number value ∈ tokens → value.isFinite = true) ∧
      Token.writeAll tokens = "f( x ( 0.5 , 2 ) * * 3 ^ g , [ y ] )".toList ∧
      tokenize (Token.writeAll tokens) = .ok tokens := by
  intro text tokens
  have tokenized : tokenize text = .ok tokens := by decide +kernel
  have finite : ∀ value, .number value ∈ tokens → value.isFinite = true := by
    have every : ∀ token ∈ tokens, ∀ value, token = .number value → value.isFinite = true := by
      simp only [tokens, List.forall_mem_cons]
      simp
      decide +kernel
    exact fun value member => every _ member value rfl
  exact ⟨tokenized, finite, by decide +kernel, tokenize_writeAll tokenized finite⟩

end Lexer
end Reckoner
