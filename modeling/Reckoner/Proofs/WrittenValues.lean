import Reckoner.Number.RoundTrip
import Reckoner.Proofs.Grammar.Descent
import Reckoner.Proofs.Readings
import Reckoner.Proofs.Text

/-!
# Reading written values

No token is a negative number.  A value of finite numbers is nevertheless read back from its text:
a minus sign is taken for a negation, of the whole expression or of an entry of an array.
-/

namespace Reckoner

theorem Text.notMem_intercalate {c : Char} {separator : List Char} {pieces : List (List Char)}
    (between : c ∉ separator) (inside : ∀ piece ∈ pieces, c ∉ piece) :
    c ∉ separator.intercalate pieces := by
  induction pieces with
  | nil => simp
  | cons piece pieces induction =>
      obtain ⟨first, others⟩ := List.forall_mem_cons.mp inside
      cases pieces with
      | nil => simpa using first
      | cons next pieces =>
          rw [List.intercalate_cons_cons, List.mem_append, List.mem_append, not_or, not_or]
          exact ⟨⟨first, between⟩, induction others⟩

/-! ## Written numbers -/

namespace Numeral

open Binary64

variable {x : Float}

theorem write_of_isFinite (finite : x.isFinite = true) :
    write x = (if isNegative x then ['-'] else []) ++ (Decimal.shortest (rank x)).positional := by
  have below := (isFinite_iff x).mp finite
  have number : ¬x.isNaN = true := by
    rw [isNaN_iff]
    omega
  have bounded : ¬x.isInf = true := by
    rw [isInf_iff]
    omega
  rw [write, writeWith, if_neg number, if_neg bounded]

theorem isNumeralChar_of_mem_positional {d : Decimal} {c : Char} (member : c ∈ d.positional) :
    Text.isNumeralChar c = true := by
  rw [Text.isNumeralChar, Bool.or_eq_true, beq_iff_eq]
  exact Decimal.mem_positional member

theorem isBlank_of_mem_write (finite : x.isFinite = true) {c : Char} (member : c ∈ write x) :
    Text.isBlank c = false := by
  rw [write_of_isFinite finite, List.mem_append] at member
  rcases member with sign | digit
  · split_ifs at sign
    · obtain rfl := List.mem_singleton.mp sign
      decide
    · cases sign
  · exact Text.isBlank_of_isNumeralChar (isNumeralChar_of_mem_positional digit)

theorem read?_positional {rank : Nat} (finite : rank < infinity) :
    read? (Decimal.shortest rank).positional = some (ofRank false rank) := by
  obtain ⟨c, text, written, digit⟩ := Decimal.positional_eq_cons (Decimal.shortest rank)
  have unsigned : ∀ mark : Char, mark.isDigit = false →
      (Decimal.shortest rank).positional.head? ≠ some mark := by
    rintro mark notDigit same
    rw [written, List.head?_cons, Option.some.injEq] at same
    rw [same, notDigit] at digit
    cases digit
  rw [read?_unsigned (unsigned '-' (by decide)) (unsigned '+' (by decide)),
    readMagnitude?_positional finite]

end Numeral

/-! ## The tokens of a value -/

namespace Value

theorem write_ofList_many (x y : Float) (xs : List Float) :
    (ofList (x :: y :: xs)).write =
      '[' :: (", ".toList.intercalate ((x :: y :: xs).map Numeral.write) ++ [']']) := by
  simp only [write, ofList, List.map_cons, List.map_map, List.cons_append]
  rfl

end Value

/-- The tokens that a finite number is written as: those of its magnitude behind a minus sign. -/
def numberTokens (x : Float) : List Token :=
  (if Binary64.isNegative x then [.operator .sub] else []) ++
    [.number (.scalar (Binary64.ofRank false (Binary64.rank x)))]

/-- The tokens that a value of finite numbers is written as. -/
def valueTokens : List Float → List Token
  | [x] => numberTokens x
  | xs => .opening .square :: ([.separator].intercalate (xs.map numberTokens) ++ [.closing .square])

namespace Lexer

open CharClass Binary64

variable {rest : List Char}

theorem reads_number {x : Float} (finite : x.isFinite = true)
    (ends : ∀ c ∈ rest.head?, Text.isNumeralChar c = false) :
    reads (Numeral.write x ++ rest) = (numberTokens x).map some ++ reads rest := by
  have magnitude : reads ((Decimal.shortest (rank x)).positional ++ rest) =
      some (.number (.scalar (ofRank false (rank x)))) :: reads rest := by
    obtain ⟨c, text, written, -⟩ := Decimal.positional_eq_cons (Decimal.shortest (rank x))
    rw [reads_numeral (by simp [written])
      (fun c => Numeral.isNumeralChar_of_mem_positional) ends,
      Numeral.read?_positional ((isFinite_iff x).mp finite), Option.map_some]
  rw [Numeral.write_of_isFinite finite, numberTokens]
  split
  · rw [List.append_assoc, List.singleton_append,
      reads_single (by decide) (by decide) (by decide), magnitude]
    rfl
  · exact magnitude

theorem reads_comma : reads (", ".toList ++ rest) = some .separator :: reads rest :=
  calc
    reads (',' :: ' ' :: rest) = some .separator :: reads (' ' :: rest) :=
      reads_separator rfl (by rintro _ ⟨⟩; rfl)
    _ = some .separator :: reads rest := by rw [reads_blank rfl]

theorem reads_entries {xs : List Float} (filled : xs ≠ [])
    (finite : ∀ x ∈ xs, x.isFinite = true) :
    reads (", ".toList.intercalate (xs.map Numeral.write) ++ ']' :: rest) =
      ([Token.separator].intercalate (xs.map numberTokens)).map some ++
        some (.closing .square) :: reads rest := by
  have closes : reads (']' :: rest) = some (.closing .square) :: reads rest :=
    reads_closing .square
  induction xs with
  | nil => exact absurd rfl filled
  | cons x xs induction =>
      obtain ⟨first, others⟩ := List.forall_mem_cons.mp finite
      cases xs with
      | nil =>
          rw [List.map_singleton, List.map_singleton, List.intercalate_singleton,
            List.intercalate_singleton, reads_number first (by rintro _ ⟨⟩; decide), closes]
      | cons next xs =>
          have later := induction (by simp) others
          simp only [List.map_cons, List.intercalate_cons_cons, List.append_assoc] at later ⊢
          rw [reads_number first (by rintro _ ⟨⟩; decide), reads_comma, later]
          simp

theorem reads_value {xs : List Float} (filled : xs ≠ []) (finite : ∀ x ∈ xs, x.isFinite = true) :
    reads (Value.ofList xs).write = (valueTokens xs).map some := by
  match xs with
  | [] => exact absurd rfl filled
  | [x] =>
      have alone := @reads_number [] x (finite x List.mem_cons_self) (by simp)
      rw [reads_nil, List.append_nil, List.append_nil] at alone
      exact alone
  | x :: y :: xs =>
      have entries := @reads_entries [] _ filled finite
      rw [reads_nil] at entries
      have opens : ∀ rest, reads ('[' :: rest) = some (.opening .square) :: reads rest :=
        fun _ => reads_opening .square
      rw [Value.write_ofList_many, opens, entries]
      simp [valueTokens]

end Lexer

/-! ## The value of the tokens -/

section Derived

open Grammar Binary64

variable (env : Environment) {x : Float} {xs : List Float}

theorem derives_numberTokens (finite : x.isFinite = true) :
    Derives env .sum (.scalar x) (numberTokens x) := by
  have magnitude : Derives env (.chain .product) (.scalar (ofRank false (rank x)))
      [.number (.scalar (ofRank false (rank x)))] :=
    .first (.first (.atom (.operand .number)))
  have signed := ofRank_rank x
  rw [numberTokens]
  cases sign : isNegative x with
  | false =>
      rw [sign] at signed
      rw [signed] at magnitude ⊢
      exact .first (.unsigned magnitude)
  | true =>
      rw [sign, ← neg_ofRank ((isFinite_iff x).mp finite)] at signed
      have negated : Derives env .sum (Value.scalar (ofRank false (rank x))).neg
          [.operator .sub, .number (.scalar (ofRank false (rank x)))] :=
        .first (.negated magnitude)
      have opposite : (Value.scalar (ofRank false (rank x))).neg = .scalar x :=
        congrArg Value.scalar signed
      rw [opposite] at negated
      exact negated

theorem derives_valueTokens (filled : xs ≠ []) (finite : ∀ x ∈ xs, x.isFinite = true) :
    Derives env .sum (.ofList xs) (valueTokens xs) := by
  have entries : DerivesAll env (xs.map .scalar)
      ([.separator].intercalate (xs.map numberTokens)) := by
    refine derivesAll_iff.mpr ⟨_, by simpa using filled, rfl, ?_⟩
    rw [List.forall₂_map_left_iff, List.forall₂_map_right_iff, List.forall₂_same]
    exact fun x member => derives_numberTokens env (finite x member)
  have array : Derives env .sum (.ofList xs)
      (.opening .square :: ([.separator].intercalate (xs.map numberTokens) ++
        [.closing .square])) := by
    have built := Derives.array entries
    have joined : (⟨(xs.map Value.scalar).map fun value => value.scalar?.join⟩ : Value) =
        .ofList xs := by
      rw [List.map_map]
      rfl
    rw [joined] at built
    exact .first (.unsigned (.first (.first (.atom (.operand built)))))
  match xs with
  | [] => exact absurd rfl filled
  | [x] => exact derives_numberTokens env (finite x List.mem_cons_self)
  | _ :: _ :: _ => exact array

end Derived

namespace Value

variable {value : Value}

/-- Whether all entries of a value are finite numbers. -/
def isFinite (value : Value) : Bool := value.entries.all (·.any Float.isFinite)

theorem exists_ofList (finite : value.isFinite = true) :
    ∃ xs, value = ofList xs ∧ ∀ x ∈ xs, x.isFinite = true := by
  obtain ⟨entries⟩ := value
  simp only [isFinite, List.all_eq_true] at finite
  induction entries with
  | nil => exact ⟨[], rfl, by simp⟩
  | cons entry entries induction =>
      obtain ⟨first, others⟩ := List.forall_mem_cons.mp finite
      obtain ⟨xs, rest, all⟩ := induction others
      cases entry with
      | none => cases first
      | some x =>
          refine ⟨x :: xs, ?_, List.forall_mem_cons.mpr ⟨first, all⟩⟩
          cases rest
          rfl

theorem write_ne_nil (finite : value.isFinite = true) : value.write ≠ [] := by
  obtain ⟨xs, rfl, all⟩ := exists_ofList finite
  match xs with
  | [] => decide
  | [x] =>
      obtain ⟨c, text, written, -⟩ :=
        Decimal.positional_eq_cons (Decimal.shortest (Binary64.rank x))
      have number := Numeral.write_of_isFinite (all x List.mem_cons_self)
      rw [written] at number
      show Numeral.write x ≠ []
      simp [number]
  | x :: y :: xs => simp [write_ofList_many]

theorem newline_notMem_write (finite : value.isFinite = true) : '\n' ∉ value.write := by
  obtain ⟨xs, rfl, all⟩ := exists_ofList finite
  have number : ∀ x ∈ xs, '\n' ∉ Numeral.write x := by
    intro x member newline
    exact absurd (Numeral.isBlank_of_mem_write (all x member) newline) (by decide)
  match xs with
  | [] => decide
  | [x] => exact number x List.mem_cons_self
  | x :: y :: xs =>
      have entries : '\n' ∉ ", ".toList.intercalate ((x :: y :: xs).map Numeral.write) :=
        Text.notMem_intercalate (by decide) (by simpa using number)
      rw [write_ofList_many, List.mem_cons, List.mem_append, not_or, not_or]
      exact ⟨by decide, entries, by decide⟩

theorem trimmed_write (finite : value.isFinite = true) : Text.Trimmed value.write := by
  obtain ⟨xs, rfl, all⟩ := exists_ofList finite
  match xs with
  | [] => constructor <;> rintro c ⟨⟩ <;> decide
  | [x] =>
      have visible := fun c => Numeral.isBlank_of_mem_write (c := c) (all x List.mem_cons_self)
      exact ⟨fun c head => visible c (List.mem_of_mem_head? head),
        fun c last => visible c (List.mem_of_getLast? last)⟩
  | x :: y :: xs =>
      rw [write_ofList_many]
      constructor
      · rintro c ⟨⟩
        decide
      · intro c last
        rw [← List.cons_append, List.getLast?_concat] at last
        cases last
        decide

/-- A value of finite numbers has a text whose tokens evaluate to it everywhere. -/
theorem exists_tokens_of_write (finite : value.isFinite = true) (filled : value.entries ≠ []) :
    ∃ tokens, Lexer.tokenize (' ' :: value.write) = .ok tokens ∧
      ∀ env, evaluate env tokens = .ok value := by
  obtain ⟨xs, rfl, all⟩ := exists_ofList finite
  have filled : xs ≠ [] := by simpa [ofList] using filled
  have blank : Lexer.reads (' ' :: (ofList xs).write) = Lexer.reads (ofList xs).write :=
    Lexer.reads_blank (by decide)
  refine ⟨valueTokens xs, Lexer.tokenize_eq_ok_iff_reads.mpr ?_, fun env =>
    evaluate_of_derives (derives_valueTokens env filled all)⟩
  rw [blank, Lexer.reads_value filled all]

end Value
end Reckoner
