import Reckoner.Proofs.Names

/-!
# Lexemes and their text

The lexemes of a text and the blank characters between them make up the whole text, each character
once.  What a lexeme is read as is decided by its own piece and by the characters beside it.
-/

namespace Reckoner

/-- Whether a byte is in a range. -/
def ByteRange.Contains (range : ByteRange) (offset : Nat) : Prop :=
  range.start ≤ offset ∧ offset < range.stop

/-! ## Characters -/

namespace Text

/-- A character that stands in numbers. -/
def isNumeralChar (c : Char) : Bool := c.isDigit || c == '.'

/-- A character that separates entries and arguments. -/
def isSeparatorChar (c : Char) : Bool := c == ',' || c == ';'

theorem isBlank_of_isNumeralChar {c : Char} (numeral : isNumeralChar c = true) :
    isBlank c = false := by
  simp only [isNumeralChar, Char.isDigit, Bool.or_eq_true, Bool.and_eq_true, decide_eq_true_eq,
    beq_iff_eq, ge_iff_le, UInt32.le_iff_toNat_le] at numeral
  rcases numeral with ⟨low, high⟩ | rfl
  · have code : c.toNat = c.val.toNat := rfl
    have least : 48 ≤ c.val.toNat := low
    have greatest : c.val.toNat ≤ 57 := high
    simp only [isBlank, Bool.or_eq_false_iff, Bool.and_eq_false_iff, decide_eq_false_iff_not,
      beq_eq_false_iff_ne]
    omega
  · decide

theorem isBlank_of_isSeparatorChar {c : Char} (separator : isSeparatorChar c = true) :
    isBlank c = false := by
  simp only [isSeparatorChar, Bool.or_eq_true, beq_iff_eq] at separator
  rcases separator with rfl | rfl <;> decide

theorem isBlank_of_isNameChar {c : Char} (name : isNameChar c = true) : isBlank c = false := by
  simp only [isNameChar, Bool.not_eq_true', Bool.or_eq_false_iff] at name
  exact name.1.1

/-- A piece of a text that cannot be extended: its characters have a property, and those beside it
do not. -/
structure MaximalRun (holds : Char → Bool) (front piece back : List Char) : Prop where
  filled : piece ≠ []
  inside : ∀ c ∈ piece, holds c = true
  before : ∀ c ∈ front.getLast?, holds c = false
  behind : ∀ c ∈ back.head?, holds c = false

end Text

theorem Operator.symbol_of_ofSymbol? {c : Char} {op : Operator} (found : ofSymbol? c = some op) :
    op.symbol = c := by
  simpa using List.find?_some found

namespace CharClass

variable {c : Char}

theorem ofChar_eq_numeral_iff : ofChar c = numeral ↔ Text.isNumeralChar c = true := by
  simp only [ofChar, Text.isNumeralChar, Bracket.openingSymbol, Bracket.closingSymbol]
  grind

theorem ofChar_eq_blank_iff : ofChar c = blank ↔ Text.isBlank c = true := by
  have disjoint := @Text.isBlank_of_isNumeralChar c
  simp only [ofChar, Text.isNumeralChar, Bracket.openingSymbol, Bracket.closingSymbol] at *
  grind

theorem ofChar_eq_separator_iff : ofChar c = separator ↔ Text.isSeparatorChar c = true := by
  constructor
  · simp only [ofChar, Text.isSeparatorChar, Bracket.openingSymbol, Bracket.closingSymbol]
    grind
  · simp only [Text.isSeparatorChar, Bool.or_eq_true, beq_iff_eq]
    rintro (rfl | rfl) <;> decide

theorem eq_openingSymbol {shape : Bracket} (opens : ofChar c = opening shape) :
    c = shape.openingSymbol := by
  simp only [ofChar, Bracket.openingSymbol, Bracket.closingSymbol] at opens ⊢
  grind

theorem eq_closingSymbol {shape : Bracket} (closes : ofChar c = closing shape) :
    c = shape.closingSymbol := by
  simp only [ofChar, Bracket.openingSymbol, Bracket.closingSymbol] at closes ⊢
  grind

theorem ofChar_eq_operator_iff {op : Operator} : ofChar c = operator op ↔ c = op.symbol := by
  constructor
  · intro operates
    simp only [ofChar, Bracket.openingSymbol, Bracket.closingSymbol] at operates
    grind [Operator.symbol_of_ofSymbol?]
  · rintro rfl
    cases op <;> decide

end CharClass

/-! ## Pieces -/

namespace Lexeme

/-- What a piece of a text is read as between the text before it and the text behind it. -/
inductive Reads : List Char → List Char → List Char → Except Fault Token → Prop where
  | number {front piece back : List Char} {x : Float}
      (run : Text.MaximalRun Text.isNumeralChar front piece back)
      (read : Numeral.read? piece = some x) : Reads front piece back (.ok (.number (.scalar x)))
  | malformed {front piece back : List Char}
      (run : Text.MaximalRun Text.isNumeralChar front piece back)
      (unread : Numeral.read? piece = none) :
      Reads front piece back (.error (.malformedLiteral (String.ofList piece)
        ⟨byteCount front, byteCount front + byteCount piece⟩))
  | functionName {front piece back : List Char}
      (run : Text.MaximalRun Text.isNameChar front piece back) (called : back.head? = some '(') :
      Reads front piece back (.ok (.functionName (String.ofList piece)))
  | variableName {front piece back : List Char}
      (run : Text.MaximalRun Text.isNameChar front piece back) (uncalled : back.head? ≠ some '(') :
      Reads front piece back (.ok (.variableName (String.ofList piece)))
  | separator {front piece back : List Char}
      (run : Text.MaximalRun Text.isSeparatorChar front piece back) :
      Reads front piece back (.ok .separator)
  | opening {front back : List Char} (shape : Bracket) :
      Reads front [shape.openingSymbol] back (.ok (.opening shape))
  | closing {front back : List Char} (shape : Bracket) :
      Reads front [shape.closingSymbol] back (.ok (.closing shape))
  | operator {front back : List Char} (op : Operator)
      (single : op = .mul → back.head? ≠ some '*') :
      Reads front [op.symbol] back (.ok (.operator op))
  | power {front back : List Char} : Reads front ['*', '*'] back (.ok (.operator .pow))

variable {front piece back : List Char} {outcome : Except Fault Token}

theorem Reads.filled (reads : Reads front piece back outcome) : piece ≠ [] := by
  cases reads with
  | number run => exact run.filled
  | malformed run => exact run.filled
  | functionName run => exact run.filled
  | variableName run => exact run.filled
  | separator run => exact run.filled
  | opening => simp
  | closing => simp
  | operator => simp
  | power => simp

theorem Reads.visible (reads : Reads front piece back outcome) :
    ∀ c ∈ piece, Text.isBlank c = false := by
  cases reads with
  | number run => exact fun c member => Text.isBlank_of_isNumeralChar (run.inside c member)
  | malformed run => exact fun c member => Text.isBlank_of_isNumeralChar (run.inside c member)
  | functionName run => exact fun c member => Text.isBlank_of_isNameChar (run.inside c member)
  | variableName run => exact fun c member => Text.isBlank_of_isNameChar (run.inside c member)
  | separator run => exact fun c member => Text.isBlank_of_isSeparatorChar (run.inside c member)
  | opening shape => exact List.forall_mem_singleton.mpr (by cases shape <;> decide)
  | closing shape => exact List.forall_mem_singleton.mpr (by cases shape <;> decide)
  | operator op => exact List.forall_mem_singleton.mpr (by cases op <;> decide)
  | power => exact List.forall_mem_cons.mpr ⟨by decide, List.forall_mem_singleton.mpr (by decide)⟩

theorem byteCount_append (left right : List Char) :
    byteCount (left ++ right) = byteCount left + byteCount right := by
  induction left with
  | nil => simp [byteCount]
  | cons c left induction =>
      simp only [byteCount, List.cons_append, List.foldr_cons] at induction ⊢
      rw [induction, Nat.add_assoc]

theorem byteCount_pos (filled : piece ≠ []) : 0 < byteCount piece := by
  obtain ⟨c, rest, rfl⟩ := List.exists_cons_of_ne_nil filled
  exact Nat.add_pos_left c.utf8Size_pos _

end Lexeme

namespace Lexer

open CharClass

variable {c d : Char} {front rest text : List Char} {lexemes : List Lexeme}

/-- No character that runs on is cut off from one of its class before it. -/
def Boundary (front rest : List Char) : Prop :=
  ∀ d ∈ front.getLast?, ∀ c ∈ rest.head?, (ofChar c).runs = true → ofChar d ≠ ofChar c

theorem cut_single (alone : (ofChar c).runs = false)
    (single : c = '*' → rest.head? ≠ some '*') : cut c rest = ([c], rest) := by
  unfold cut
  rw [if_neg (by simp [alone])]
  split
  · exact absurd rfl (single rfl)
  · rfl

theorem cut_ne_nil (c : Char) (rest : List Char) : (cut c rest).1 ≠ [] := by
  unfold cut
  split
  · simp
  · split <;> simp

/-- A run of characters of one class ends where the class changes. -/
theorem ofChar_head?_cut (runs : (ofChar c).runs = true) (head : d ∈ (cut c rest).2.head?) :
    ofChar d ≠ ofChar c := by
  have stops := List.head?_dropWhile_not (fun d => ofChar d == ofChar c) rest
  unfold cut at head
  rw [if_pos runs] at head
  rw [Option.mem_def.mp head] at stops
  simpa using stops

theorem maximalRun_cut {kind : CharClass} {holds : Char → Bool} (found : ofChar c = kind)
    (runs : kind.runs = true) (same : ∀ d, ofChar d = kind ↔ holds d = true)
    (boundary : Boundary front (c :: rest)) :
    Text.MaximalRun holds front (cut c rest).1 (cut c rest).2 where
  filled := cut_ne_nil c rest
  inside d member := (same d).mp ((ofChar_of_mem_cut member).trans found)
  before d member := by
    have changes := boundary d member c rfl (found ▸ runs)
    rw [found, ne_eq, same] at changes
    exact eq_false_of_ne_true changes
  behind d member := by
    have changes := ofChar_head?_cut (found ▸ runs) member
    rw [found, ne_eq, same] at changes
    exact eq_false_of_ne_true changes

theorem boundary_cut (front : List Char) (c : Char) (rest : List Char) :
    Boundary (front ++ (cut c rest).1) (cut c rest).2 := by
  intro d last e head runs same
  rw [List.getLast?_append_of_ne_nil _ (cut_ne_nil c rest)] at last
  have first := ofChar_of_mem_cut (List.mem_of_getLast? last)
  rw [← same, first] at runs
  exact ofChar_head?_cut runs head (same.symm.trans first)

/-- The piece that is cut off is read by itself. -/
theorem reads_cut (visible : ofChar c ≠ .blank) (boundary : Boundary front (c :: rest)) :
    Lexeme.Reads front (cut c rest).1 (cut c rest).2
      (Lexeme.outcome ⟨Lexeme.byteCount front, (cut c rest).1,
        tokenOf? c (cut c rest).1 (cut c rest).2⟩) := by
  rw [tokenOf?]
  cases found : ofChar c with
  | blank => exact absurd found visible
  | numeral =>
      have numeral := maximalRun_cut found rfl (fun _ => ofChar_eq_numeral_iff) boundary
      cases read : Numeral.read? (cut c rest).1 with
      | none => exact .malformed numeral read
      | some x => exact .number numeral read
  | name =>
      have name := maximalRun_cut found rfl (fun _ => ofChar_eq_name_iff) boundary
      dsimp only
      split_ifs with called
      · exact .functionName name called
      · exact .variableName name called
  | separator =>
      exact .separator (maximalRun_cut found rfl (fun _ => ofChar_eq_separator_iff) boundary)
  | opening shape =>
      obtain rfl := eq_openingSymbol found
      rw [cut_single (by rw [found]; rfl) (by cases shape <;> simp [Bracket.openingSymbol])]
      exact .opening shape
  | closing shape =>
      obtain rfl := eq_closingSymbol found
      rw [cut_single (by rw [found]; rfl) (by cases shape <;> simp [Bracket.closingSymbol])]
      exact .closing shape
  | operator op =>
      obtain rfl := ofChar_eq_operator_iff.mp found
      by_cases double : op = .mul ∧ rest.head? = some '*'
      · obtain ⟨rfl, head⟩ := double
        obtain ⟨tail, rfl⟩ := List.head?_eq_some_iff.mp head
        exact .power
      · rw [cut_single (by rw [found]; rfl) (by cases op <;> simp_all [Operator.symbol])]
        dsimp only
        rw [if_neg (by simp)]
        exact .operator op fun mul head => double ⟨mul, head⟩

/-! ## Whole texts -/

/-- The rest of a text behind `front` is made of the pieces of the lexemes and of the blank
characters between them. -/
inductive Covers : List Char → List Char → List Lexeme → Prop where
  | done {front : List Char} : Covers front [] []
  | blank {front rest : List Char} {c : Char} {lexemes : List Lexeme}
      (blank : Text.isBlank c = true) (tail : Covers (front ++ [c]) rest lexemes) :
      Covers front (c :: rest) lexemes
  | lexeme {front back : List Char} {lexeme : Lexeme} {lexemes : List Lexeme}
      (start : lexeme.start = Lexeme.byteCount front)
      (reads : Lexeme.Reads front lexeme.piece back lexeme.outcome)
      (tail : Covers (front ++ lexeme.piece) back lexemes) :
      Covers front (lexeme.piece ++ back) (lexeme :: lexemes)

theorem covers_scanFrom (boundary : Boundary front text) :
    Covers front text (scanFrom (Lexeme.byteCount front) text) := by
  generalize counted : Lexeme.byteCount front = start
  induction start, text using scanFrom.induct generalizing front with
  | case1 start =>
      rw [scanFrom_nil]
      exact .done
  | case2 start c rest blank induction =>
      rw [scanFrom_blank blank]
      refine .blank (ofChar_eq_blank_iff.mp blank) (induction ?_ ?_)
      · intro d last e head runs same
        obtain rfl : c = d := by simpa using last
        rw [← same, blank] at runs
        cases runs
      · rw [Lexeme.byteCount_append, counted]
        rfl
  | case3 start c rest visible parts =>
      rename_i induction
      subst counted
      have pieces := @Covers.lexeme front (cut c rest).2
        ⟨Lexeme.byteCount front, (cut c rest).1, tokenOf? c (cut c rest).1 (cut c rest).2⟩ _ rfl
        (reads_cut visible boundary)
        (induction (boundary_cut front c rest) (Lexeme.byteCount_append _ _))
      rw [scanFrom_cons visible]
      rwa [cut_append] at pieces

theorem covers_scan (text : List Char) : Covers [] text (scan text) :=
  covers_scanFrom (by simp [Boundary])

namespace Covers

theorem le_start {lexeme : Lexeme} (covers : Covers front text lexemes)
    (member : lexeme ∈ lexemes) : Lexeme.byteCount front ≤ lexeme.start := by
  induction covers with
  | done => cases member
  | blank _ _ induction =>
      have later := induction member
      rw [Lexeme.byteCount_append] at later
      omega
  | lexeme start _ _ induction =>
      rcases List.mem_cons.mp member with rfl | behind
      · exact start.ge
      · have later := induction behind
        rw [Lexeme.byteCount_append] at later
        omega

theorem pairwise (covers : Covers front text lexemes) :
    lexemes.Pairwise fun earlier later => earlier.range.stop ≤ later.range.start := by
  induction covers with
  | done => exact .nil
  | blank _ _ induction => exact induction
  | lexeme start _ tail induction =>
      refine .cons (fun later member => ?_) induction
      have follows := tail.le_start member
      rwa [Lexeme.byteCount_append, ← start] at follows

theorem exists_place {lexeme : Lexeme} (covers : Covers front text lexemes)
    (member : lexeme ∈ lexemes) :
    ∃ before back, front ++ text = before ++ (lexeme.piece ++ back) ∧
      lexeme.start = Lexeme.byteCount before ∧
      Lexeme.Reads before lexeme.piece back lexeme.outcome := by
  induction covers with
  | done => cases member
  | blank _ _ induction =>
      obtain ⟨before, back, text, start, reads⟩ := induction member
      rw [List.append_assoc, List.singleton_append] at text
      exact ⟨before, back, text, start, reads⟩
  | @lexeme front back first _ start reads _ induction =>
      rcases List.mem_cons.mp member with rfl | behind
      · exact ⟨front, back, rfl, start, reads⟩
      · obtain ⟨before, back, text, start, reads⟩ := induction behind
        rw [List.append_assoc] at text
        exact ⟨before, back, text, start, reads⟩

/-- The characters that are not blank are those in lexemes. -/
theorem visible_iff (covers : Covers front text lexemes) {before back : List Char}
    (place : text = before ++ c :: back) :
    Text.isBlank c = false ↔
      ∃ lexeme ∈ lexemes, lexeme.range.Contains (Lexeme.byteCount (front ++ before)) := by
  induction covers generalizing before with
  | done => simp at place
  | @blank front rest d lexemes blank tail induction =>
      rcases before with - | ⟨_, before⟩
      · obtain ⟨rfl, rfl⟩ := List.cons.inj place
        have positive : 0 < Lexeme.byteCount [d] := Lexeme.byteCount_pos (by simp)
        rw [blank, List.append_nil]
        refine iff_of_false (by simp) ?_
        rintro ⟨lexeme, member, covered, -⟩
        have later := tail.le_start member
        rw [Lexeme.byteCount_append] at later
        exact absurd covered (by simp only [Lexeme.range]; omega)
      · obtain ⟨rfl, behind⟩ := List.cons.inj place
        have later := induction behind
        rwa [List.append_assoc] at later
  | @lexeme front rest first lexemes start reads tail induction =>
      have stop : first.range.stop = Lexeme.byteCount (front ++ first.piece) := by
        rw [Lexeme.byteCount_append, ← start]
        rfl
      have behind {x : List Char} (split : before = first.piece ++ x)
          (rest_eq : rest = x ++ c :: back) :
          Text.isBlank c = false ↔ ∃ lexeme ∈ first :: lexemes,
            lexeme.range.Contains (Lexeme.byteCount (front ++ before)) := by
        have later := induction rest_eq
        subst split
        rw [List.append_assoc] at later
        rw [later, List.exists_mem_cons_iff, iff_or_self]
        rintro ⟨-, inside⟩
        rw [stop, ← List.append_assoc, Lexeme.byteCount_append _ x] at inside
        omega
      rcases List.append_eq_append_iff.mp place with ⟨x, split, rest_eq⟩ | ⟨x, split, rest_eq⟩
      · exact behind split rest_eq
      · rcases x with - | ⟨_, x⟩
        · exact @behind [] (by simpa using split.symm) rest_eq.symm
        · obtain ⟨rfl, -⟩ := List.cons.inj rest_eq
          have visible : Text.isBlank c = false := reads.visible c (by simp [split])
          have longer : Lexeme.byteCount (front ++ before) <
              Lexeme.byteCount (front ++ first.piece) := by
            have positive : 0 < Lexeme.byteCount (c :: x) := Lexeme.byteCount_pos (by simp)
            rw [split, ← List.append_assoc, Lexeme.byteCount_append (front ++ before)]
            omega
          refine iff_of_true visible ⟨first, List.mem_cons_self, ?_, stop ▸ longer⟩
          calc
            first.range.start = Lexeme.byteCount front := start
            _ ≤ Lexeme.byteCount (front ++ before) := by
              rw [Lexeme.byteCount_append]
              exact Nat.le_add_right _ _

end Covers

/-- The tokens of a text are those of its lexemes, or the first malformed one is its fault. -/
theorem tokenize_eq_match (text : List Char) :
    tokenize text =
      match (scan text).find? (·.token?.isNone) with
      | none => .ok ((scan text).filterMap Lexeme.token?)
      | some lexeme => .error (.malformedLiteral (String.ofList lexeme.piece) lexeme.range) := by
  rw [tokenize]
  induction scan text with
  | nil => rfl
  | cons lexeme lexemes induction =>
      rw [List.mapM_cons, induction, Lexeme.outcome]
      cases read : lexeme.token? with
      | none => simp [read]
      | some token =>
          simp only [read, List.find?_cons, List.filterMap_cons, Option.isNone_some]
          cases lexemes.find? (·.token?.isNone) <;> rfl

/-- Reading a text loses and repeats nothing.  Every lexeme has a place in the text, where its piece
is the slice of its range and decides what is read.  The ranges are not empty and follow one
another, and the characters that are not blank are those in a range.  The tokens of the text are
those of its lexemes, or the first malformed one is its fault. -/
theorem scan_lossless (text : List Char) :
    (∀ lexeme ∈ scan text, lexeme.range.start < lexeme.range.stop ∧
        ∃ front back, text = front ++ (lexeme.piece ++ back) ∧
          lexeme.range = ⟨Lexeme.byteCount front, Lexeme.byteCount (front ++ lexeme.piece)⟩ ∧
          Lexeme.Reads front lexeme.piece back lexeme.outcome) ∧
      (scan text).Pairwise (fun earlier later => earlier.range.stop ≤ later.range.start) ∧
      (∀ front c back, text = front ++ c :: back →
        (Text.isBlank c = false ↔
          ∃ lexeme ∈ scan text, lexeme.range.Contains (Lexeme.byteCount front))) ∧
      tokenize text =
        match (scan text).find? (·.token?.isNone) with
        | none => .ok ((scan text).filterMap Lexeme.token?)
        | some lexeme =>
            .error (.malformedLiteral (String.ofList lexeme.piece) lexeme.range) := by
  have covers := covers_scan text
  refine ⟨?_, covers.pairwise, ?_, tokenize_eq_match text⟩
  · intro lexeme member
    obtain ⟨front, back, place, start, reads⟩ := covers.exists_place member
    have stop : lexeme.range.stop = Lexeme.byteCount (front ++ lexeme.piece) := by
      rw [Lexeme.byteCount_append, ← start]
      rfl
    refine ⟨?_, front, back, place, ?_, reads⟩
    · exact Nat.lt_add_of_pos_right (Lexeme.byteCount_pos reads.filled)
    · rw [← start, ← stop]
      rfl
  · intro front c back place
    exact covers.visible_iff place

/-- A malformed number behind a name outside ASCII, and a power sign behind a blank character. -/
theorem scan_lossless_malformed :
    let text := "ä(1..2 **b".toList
    let malformed : Lexeme := ⟨3, "1..2".toList, none⟩
    malformed ∈ scan text ∧
      (∃ front back, text = front ++ ("1..2".toList ++ back) ∧
        malformed.range = ⟨Lexeme.byteCount front, Lexeme.byteCount (front ++ "1..2".toList)⟩ ∧
        Lexeme.Reads front "1..2".toList back (.error (.malformedLiteral "1..2" ⟨3, 7⟩))) ∧
      ¬ (∃ lexeme ∈ scan text, lexeme.range.Contains 7) ∧
      tokenize text = .error (.malformedLiteral "1..2" ⟨3, 7⟩) := by
  intro text malformed
  obtain ⟨places, -, visible, tokens⟩ := scan_lossless text
  have member : malformed ∈ scan text := by decide +kernel
  have first : (scan text).find? (·.token?.isNone) = some malformed := by decide +kernel
  obtain ⟨-, front, back, place, range, reads⟩ := places malformed member
  refine ⟨member, ⟨front, back, place, range, reads⟩, ?_, ?_⟩
  · intro covered
    have blank := (visible "ä(1..2".toList ' ' "**b".toList rfl).mpr covered
    exact absurd blank (by decide)
  · rw [tokens, first]
    rfl

end Lexer
end Reckoner
