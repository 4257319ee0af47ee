import Reckoner.Proofs.Readings
import Reckoner.Proofs.Text

/-!
# Lists between brackets

Parameters and arguments are listed between round brackets with separators between them.  A list of
names is divided at its commas, and a list of numbers is read at all its separators.
-/

namespace Reckoner

/-- A list as it is written between brackets: cells with separators between them. -/
inductive Listing where
  /-- The last cell. -/
  | last (cell : List Char)
  /-- A cell and what stands behind its separator. -/
  | more (cell : List Char) (mark : Char) (separates : Text.isSeparatorChar mark = true)
      (others : Listing)

namespace Listing

/-- The cells of a list. -/
def cells : Listing → List (List Char)
  | last cell => [cell]
  | more cell _ _ others => cell :: others.cells

/-- The separators of a list. -/
def marks : Listing → List Char
  | last _ => []
  | more _ mark _ others => mark :: others.marks

/-- All separators of a list are commas. -/
def Commas (list : Listing) : Prop := ∀ mark ∈ list.marks, mark = ','

/-- A list as a text. -/
def text : Listing → List Char
  | last cell => cell
  | more cell mark _ others => cell ++ mark :: others.text

/-- The names in the cells of a list. -/
def names (list : Listing) : List String :=
  list.cells.map fun cell => String.ofList (Text.trim cell)

theorem length_cells (list : Listing) : list.cells.length = list.marks.length + 1 := by
  induction list with
  | last => rfl
  | more _ _ _ _ induction => rw [cells, marks, List.length_cons, List.length_cons, induction]

theorem cells_ne_nil (list : Listing) : list.cells ≠ [] := by
  cases list <;> simp [cells]

theorem mem_text {list : Listing} {c : Char} (member : c ∈ list.text) :
    c ∈ list.marks ∨ ∃ cell ∈ list.cells, c ∈ cell := by
  induction list with
  | last cell => exact .inr ⟨cell, List.mem_cons_self, member⟩
  | more cell mark _ others induction =>
      rw [text, List.mem_append, List.mem_cons] at member
      rcases member with inside | rfl | behind
      · exact .inr ⟨cell, List.mem_cons_self, inside⟩
      · exact .inl List.mem_cons_self
      · rcases induction behind with separates | ⟨other, occurs, inside⟩
        · exact .inl (List.mem_cons_of_mem _ separates)
        · exact .inr ⟨other, List.mem_cons_of_mem _ occurs, inside⟩

theorem isSeparatorChar_of_mem_marks {list : Listing} {mark : Char} (member : mark ∈ list.marks) :
    Text.isSeparatorChar mark = true := by
  induction list with
  | last => cases member
  | more _ _ separates _ induction =>
      rcases List.mem_cons.mp member with rfl | behind
      · exact separates
      · exact induction behind

/-! ## Division at commas -/

theorem count_text {list : Listing} (clean : ∀ cell ∈ list.cells, ',' ∉ cell) :
    list.text.count ',' = list.marks.count ',' := by
  induction list with
  | last cell => exact List.count_eq_zero_of_not_mem (clean cell List.mem_cons_self)
  | more cell mark _ others induction =>
      obtain ⟨first, rest⟩ := List.forall_mem_cons.mp clean
      rw [text, marks, List.count_append, List.count_eq_zero_of_not_mem first, Nat.zero_add,
        List.count_cons, List.count_cons, induction rest]

/-- Commas divide a list into its cells if all its separators are commas. -/
theorem pieces_text {list : Listing} (clean : ∀ cell ∈ list.cells, ',' ∉ cell)
    (commas : list.Commas) : Text.pieces ',' list.text = list.cells := by
  induction list with
  | last cell => exact Text.pieces_of_notMem (clean cell List.mem_cons_self)
  | more cell mark _ others induction =>
      obtain ⟨first, rest⟩ := List.forall_mem_cons.mp clean
      obtain ⟨rfl, behind⟩ := List.forall_mem_cons.mp commas
      rw [text, cells, Text.pieces_append_cons, Text.pieces_of_notMem first,
        induction rest behind, List.singleton_append]

theorem exists_visible_of_mem_pieces {list : Listing} {front piece : List Char}
    (visible : ∀ cell ∈ list.cells, ∃ c ∈ cell, Text.isBlank c = false)
    (clean : ∀ cell ∈ list.cells, ',' ∉ cell) (before : ',' ∉ front)
    (member : piece ∈ Text.pieces ',' (front ++ list.text)) :
    ∃ c ∈ piece, Text.isBlank c = false := by
  induction list generalizing front with
  | last cell =>
      obtain ⟨c, inside, shown⟩ := visible cell List.mem_cons_self
      rw [text, Text.pieces_of_notMem (by simp [before, clean cell List.mem_cons_self]),
        List.mem_singleton] at member
      exact ⟨c, member ▸ List.mem_append_right front inside, shown⟩
  | more cell mark separates others induction =>
      obtain ⟨first, rest⟩ := List.forall_mem_cons.mp visible
      obtain ⟨cleanFirst, cleanRest⟩ := List.forall_mem_cons.mp clean
      obtain ⟨c, inside, shown⟩ := first
      have absent : ',' ∉ front ++ cell := by simp [before, cleanFirst]
      by_cases comma : mark = ','
      · subst comma
        rw [text, ← List.append_assoc, Text.pieces_append_cons, Text.pieces_of_notMem absent,
          List.singleton_append, List.mem_cons] at member
        rcases member with rfl | behind
        · exact ⟨c, List.mem_append_right front inside, shown⟩
        · exact @induction [] rest cleanRest (by simp) behind
      · -- The piece goes on behind any other separator.
        have joined : front ++ text (.more cell mark separates others) =
            (front ++ cell ++ [mark]) ++ others.text := by simp [text]
        rw [joined] at member
        exact induction rest cleanRest (by simp [before, cleanFirst, Ne.symm comma]) member

end Listing

/-! ## Cells -/

theorem Text.isNameChar_of_isAlpha {c : Char} (letter : c.isAlpha = true) :
    isNameChar c = true := by
  have small : c.toNat < 123 := by
    rcases Bool.or_eq_true_iff.mp letter with upper | lower
    · have high := (of_decide_eq_true upper).2
      exact Nat.lt_of_le_of_lt (UInt32.le_iff_toNat_le.mp high) (by decide)
    · have high := of_decide_eq_true (Bool.and_eq_true_iff.mp lower).2
      exact Nat.lt_of_le_of_lt (UInt32.le_iff_toNat_le.mp high) (by decide)
  have letters : ∀ code < 123, (Char.ofNat code).isAlpha = true →
      isNameChar (Char.ofNat code) = true := by decide
  rw [← Char.ofNat_toNat c] at letter ⊢
  exact letters c.toNat small letter

/-- A name of one or more letters of ASCII. -/
structure IsWord (name : List Char) : Prop where
  filled : name ≠ []
  letters : ∀ c ∈ name, c.isAlpha = true

/-- A cell that holds a number as it is written in an expression. -/
structure IsLiteral (cell : List Char) (x : Float) : Prop where
  filled : Text.trim cell ≠ []
  digits : ∀ c ∈ Text.trim cell, Text.isNumeralChar c = true
  value : Numeral.read? (Text.trim cell) = some x

namespace IsWord

variable {name cell : List Char} {c : Char}

theorem notMem (word : IsWord name) (noLetter : c.isAlpha = false) : c ∉ name := by
  intro member
  rw [word.letters c member] at noLetter
  cases noLetter

theorem isNameChar (word : IsWord name) (member : c ∈ name) : Text.isNameChar c = true :=
  Text.isNameChar_of_isAlpha (word.letters c member)

theorem isBlank (word : IsWord name) (member : c ∈ name) : Text.isBlank c = false := by
  have named := word.isNameChar member
  simp only [Text.isNameChar, Bool.not_eq_true', Bool.or_eq_false_iff] at named
  exact named.1.1

theorem trimmed (word : IsWord name) : Text.Trimmed name where
  first _ head := word.isBlank (List.mem_of_mem_head? head)
  last _ last := word.isBlank (List.mem_of_getLast? last)

theorem notMem_cell (word : IsWord (Text.trim cell)) (visible : Text.isBlank c = false)
    (noLetter : c.isAlpha = false) : c ∉ cell := by
  obtain ⟨front, back, around, blankFront, blankBack⟩ := Text.exists_trim cell
  intro member
  rw [around, List.mem_append, List.mem_append] at member
  rcases member with before | inside | behind
  · rw [blankFront c before] at visible
    cases visible
  · exact word.notMem noLetter inside
  · rw [blankBack c behind] at visible
    cases visible

theorem exists_visible (word : IsWord (Text.trim cell)) :
    ∃ c ∈ cell, Text.isBlank c = false := by
  obtain ⟨c, member⟩ := List.exists_mem_of_ne_nil _ word.filled
  exact ⟨c, Text.mem_of_mem_trim member, word.isBlank member⟩

end IsWord

namespace Listing

variable {list : Listing} {c : Char}

theorem notMem_text (words : ∀ cell ∈ list.cells, IsWord (Text.trim cell))
    (other : (Text.isBlank c || c.isAlpha || Text.isSeparatorChar c) = false) : c ∉ list.text := by
  simp only [Bool.or_eq_false_iff] at other
  obtain ⟨⟨visible, noLetter⟩, noSeparator⟩ := other
  intro member
  rcases mem_text member with separates | ⟨cell, occurs, inside⟩
  · rw [isSeparatorChar_of_mem_marks separates] at noSeparator
    cases noSeparator
  · exact (words cell occurs).notMem_cell visible noLetter inside

theorem comma_notMem (words : ∀ cell ∈ list.cells, IsWord (Text.trim cell)) :
    ∀ cell ∈ list.cells, ',' ∉ cell :=
  fun cell occurs => (words cell occurs).notMem_cell (by decide) (by decide)

/-- The parameters that a definition takes from a list. -/
def parameters (list : Listing) : List String :=
  (Text.pieces ',' list.text).map fun piece => String.ofList (Text.trim piece)

theorem length_parameters (words : ∀ cell ∈ list.cells, IsWord (Text.trim cell)) :
    list.parameters.length = list.marks.count ',' + 1 := by
  rw [parameters, List.length_map, Text.length_pieces, count_text (comma_notMem words)]

theorem commas_of_length_parameters (words : ∀ cell ∈ list.cells, IsWord (Text.trim cell))
    (same : list.parameters.length = list.cells.length) : list.Commas := by
  rw [length_parameters words, length_cells, Nat.add_right_cancel_iff,
    List.count_eq_length] at same
  exact fun mark member => (same mark member).symm

theorem parameters_eq_names_iff (words : ∀ cell ∈ list.cells, IsWord (Text.trim cell)) :
    list.parameters = list.names ↔ list.Commas := by
  constructor
  · intro same
    refine commas_of_length_parameters words ?_
    rw [same, names, List.length_map]
  · intro commas
    rw [parameters, pieces_text (comma_notMem words) commas, names]

end Listing

/-! ## Lists of numbers -/

/-- The tokens of a list of numbers. -/
def literalTokens (numbers : List Float) : List Token :=
  [.separator].intercalate (numbers.map fun x => [.number (.scalar x)])

theorem literalTokens_cons (x : Float) {numbers : List Float} (filled : numbers ≠ []) :
    literalTokens (x :: numbers) =
      .number (.scalar x) :: .separator :: literalTokens numbers := by
  rw [literalTokens, List.map_cons, List.intercalate_cons_of_ne_nil (by simpa using filled)]
  rfl

namespace IsLiteral

variable {cell rest : List Char} {x : Float}

theorem ne_nil (literal : IsLiteral cell x) : cell ≠ [] := by
  rintro rfl
  exact literal.filled rfl

theorem isSeparatorChar_of_mem (literal : IsLiteral cell x) {c : Char} (member : c ∈ cell) :
    Text.isSeparatorChar c = false := by
  obtain ⟨front, back, around, blankFront, blankBack⟩ := Text.exists_trim cell
  have kinds : Text.isBlank c = true ∨ Text.isNumeralChar c = true := by
    rw [around, List.mem_append, List.mem_append] at member
    rcases member with before | inside | behind
    · exact .inl (blankFront c before)
    · exact .inr (literal.digits c inside)
    · exact .inl (blankBack c behind)
  cases separates : Text.isSeparatorChar c with
  | false => rfl
  | true =>
      rw [Text.isSeparatorChar, Bool.or_eq_true, beq_iff_eq, beq_iff_eq] at separates
      rcases separates with rfl | rfl <;> rcases kinds with blank | numeral <;> contradiction

theorem reads_cell (literal : IsLiteral cell x)
    (ends : ∀ c ∈ rest.head?, Text.isNumeralChar c = false) :
    Lexer.reads (cell ++ rest) = some (.number (.scalar x)) :: Lexer.reads rest := by
  obtain ⟨front, back, around, blankFront, blankBack⟩ := Text.exists_trim cell
  have behind : ∀ c ∈ (back ++ rest).head?, Text.isNumeralChar c = false := by
    intro c head
    cases back with
    | nil => exact ends c head
    | cons d back =>
        cases head
        have blank := blankBack c List.mem_cons_self
        cases numeral : Text.isNumeralChar c with
        | false => rfl
        | true => rw [Text.isBlank_of_isNumeralChar numeral] at blank; cases blank
  rw [around, List.append_assoc, List.append_assoc, Lexer.reads_blanks blankFront,
    Lexer.reads_numeral literal.filled literal.digits behind, literal.value,
    Lexer.reads_blanks blankBack]
  rfl

end IsLiteral

namespace Lexer

variable {list : Listing} {numbers : List Float}

theorem isSeparatorChar_of_mem_head?_listing (literals : List.Forall₂ IsLiteral list.cells numbers)
    (rest : List Char) {c : Char} (head : c ∈ (list.text ++ rest).head?) :
    Text.isSeparatorChar c = false := by
  cases list with
  | last cell =>
      cases literals with
      | cons literal _ =>
          rw [Listing.text, List.head?_append_of_ne_nil _ literal.ne_nil] at head
          exact literal.isSeparatorChar_of_mem (List.mem_of_mem_head? head)
  | more cell mark separates others =>
      cases literals with
      | cons literal _ =>
          rw [Listing.text, List.append_assoc,
            List.head?_append_of_ne_nil _ literal.ne_nil] at head
          exact literal.isSeparatorChar_of_mem (List.mem_of_mem_head? head)

/-- Numbers in a list are read up to the bracket that closes it, whatever separates them. -/
theorem reads_listing (rest : List Char) (literals : List.Forall₂ IsLiteral list.cells numbers) :
    reads (list.text ++ ')' :: rest) =
      (literalTokens numbers).map some ++ some (.closing .round) :: reads rest := by
  have closes : reads (')' :: rest) = some (.closing .round) :: reads rest := reads_closing .round
  induction list generalizing numbers with
  | last cell =>
      cases literals with
      | cons literal none =>
          cases none
          rw [Listing.text, literal.reads_cell (by rintro _ ⟨⟩; decide), closes]
          rfl
  | more cell mark separates others induction =>
      cases literals with
      | @cons _ x _ numbers literal behind =>
          have noNumeral : Text.isNumeralChar mark = false := by
            rw [Text.isSeparatorChar, Bool.or_eq_true, beq_iff_eq, beq_iff_eq] at separates
            rcases separates with rfl | rfl <;> decide
          have filled : numbers ≠ [] := by
            rintro rfl
            exact others.cells_ne_nil (List.forall₂_nil_right_iff.mp behind)
          rw [Listing.text, List.append_assoc, List.cons_append,
            literal.reads_cell (by rintro _ ⟨⟩; exact noNumeral),
            reads_separator separates fun _ => isSeparatorChar_of_mem_head?_listing behind _,
            induction behind, literalTokens_cons x filled]
          rfl

end Lexer

end Reckoner
