import Mathlib.Data.List.TakeWhile
import Reckoner.Proofs.Outcome
import Reckoner.Token.Lexer

/-!
# Reading names

Names are the runs of characters that neither separate nor write anything else.  A reader of tokens
takes such a text for one name, and no token has another name.
-/

namespace Reckoner

/-! ## Characters -/

/-- A character that stands in names: it is not blank and writes no number, separator, bracket or
operator. -/
def Text.isNameChar (c : Char) : Bool :=
  !(isBlank c || c.isDigit ||
    ['.', ',', ';', '(', ')', '[', ']', '+', '-', '*', '/', '%', '^', '!'].contains c)

/-- A name that has characters of names only. -/
def Readable (name : String) : Prop := ∀ c ∈ name.toList, Text.isNameChar c = true

instance (name : String) : Decidable (Readable name) :=
  List.decidableBAll (fun c => Text.isNameChar c = true) name.toList

theorem Operator.ofSymbol?_eq_none_iff {c : Char} :
    ofSymbol? c = none ↔ c ∉ ['+', '-', '*', '/', '%', '^', '!'] := by
  have symbols : ['+', '-', '*', '/', '%', '^', '!'] = all.map symbol := rfl
  rw [symbols, ofSymbol?, List.find?_eq_none]
  simp only [beq_iff_eq, List.mem_map, not_exists, not_and]

theorem CharClass.ofChar_eq_name_iff {c : Char} : ofChar c = name ↔ Text.isNameChar c = true := by
  have operators := @Operator.ofSymbol?_eq_none_iff c
  simp only [List.mem_cons, List.not_mem_nil] at operators
  simp only [ofChar, Text.isNameChar, Bracket.openingSymbol, Bracket.closingSymbol,
    List.contains_eq_mem, List.mem_cons, List.not_mem_nil]
  cases operator : Operator.ofSymbol? c with
  | none => grind
  | some op => grind

namespace Lexer

open CharClass

variable {c d : Char} {body rest text : List Char} {start : Nat}

/-! ## One scan -/

@[simp]
theorem scanFrom_nil (start : Nat) : scanFrom start [] = [] := by
  rw [scanFrom]

theorem scanFrom_blank (blank : ofChar c = .blank) :
    scanFrom start (c :: rest) = scanFrom (start + c.utf8Size) rest := by
  rw [scanFrom, if_pos blank]

theorem scanFrom_cons (visible : ofChar c ≠ .blank) :
    scanFrom start (c :: rest) =
      ⟨start, (cut c rest).1, tokenOf? c (cut c rest).1 (cut c rest).2⟩ ::
        scanFrom (start + Lexeme.byteCount (cut c rest).1) (cut c rest).2 := by
  rw [scanFrom, if_neg visible]

theorem cut_run (runs : (ofChar c).runs = true) (inside : ∀ d ∈ body, ofChar d = ofChar c)
    (ends : ∀ d ∈ rest.head?, ofChar d ≠ ofChar c) : cut c (body ++ rest) = (c :: body, rest) := by
  have inside : ∀ d ∈ body, (ofChar d == ofChar c) = true :=
    fun d member => by simp [inside d member]
  have stops : rest.takeWhile (fun d => ofChar d == ofChar c) = [] ∧
      rest.dropWhile (fun d => ofChar d == ofChar c) = rest := by
    cases rest with
    | nil => simp
    | cons d rest => simp [ends d rfl]
  unfold cut
  rw [if_pos runs, List.takeWhile_append_of_pos inside, List.dropWhile_append_of_pos inside,
    stops.1, stops.2, List.append_nil]

theorem ofChar_of_mem_cut (member : d ∈ (cut c rest).1) : ofChar d = ofChar c := by
  unfold cut at member
  split_ifs at member with runs
  · rcases List.mem_cons.mp member with rfl | behind
    · rfl
    · simpa using List.mem_takeWhile_imp behind
  · split at member <;> simp_all

/-! ## Tokens -/

theorem outcome_eq_ok_iff {lexeme : Lexeme} {token : Token} :
    lexeme.outcome = .ok token ↔ lexeme.token? = some token := by
  rw [Lexeme.outcome]
  cases lexeme.token? <;> simp

theorem tokenize_eq_ok_iff {tokens : List Token} :
    tokenize text = .ok tokens ↔ (scan text).map Lexeme.token? = tokens.map some := by
  rw [tokenize, Outcome.mapM_eq_ok, ← List.forall₂_eq_eq_eq, List.forall₂_map_left_iff,
    List.forall₂_map_right_iff]
  simp only [outcome_eq_ok_iff]

theorem exists_lexeme_of_mem {tokens : List Token} {token : Token}
    (tokenized : tokenize text = .ok tokens) (member : token ∈ tokens) :
    ∃ lexeme ∈ scan text, lexeme.token? = some token := by
  refine List.mem_map.mp ?_
  rw [tokenize_eq_ok_iff.mp tokenized]
  exact List.mem_map_of_mem member

/-- A run of name characters is one name, which a round bracket makes that of a function. -/
theorem token?_scanFrom_name {name : List Char} (filled : name ≠ [])
    (inside : ∀ c ∈ name, ofChar c = .name) (ends : ∀ c ∈ rest.head?, ofChar c ≠ .name) :
    (scanFrom start (name ++ rest)).map Lexeme.token? =
      some (if rest.head? = some '(' then .functionName (String.ofList name)
        else .variableName (String.ofList name)) ::
          (scanFrom (start + Lexeme.byteCount name) rest).map Lexeme.token? := by
  cases name with
  | nil => exact absurd rfl filled
  | cons c body =>
      have first : ofChar c = .name := inside c List.mem_cons_self
      have cut : cut c (body ++ rest) = (c :: body, rest) := by
        refine cut_run (by rw [first]; rfl) (fun d member => ?_) (fun d head => ?_)
        · rw [first]
          exact inside d (List.mem_cons_of_mem c member)
        · rw [first]
          exact ends d head
      rw [List.cons_append, scanFrom_cons (by rw [first]; decide), cut, List.map_cons, tokenOf?,
        first]
      split_ifs <;> rfl

/-- Only a piece of name characters is a name, and it is the whole name. -/
theorem of_tokenOf?_named {piece : List Char} {name : String}
    (named : tokenOf? c piece rest = some (.variableName name) ∨
      tokenOf? c piece rest = some (.functionName name)) :
    ofChar c = .name ∧ name = String.ofList piece := by
  unfold tokenOf? at named
  cases kind : ofChar c with
  | name =>
      rw [kind] at named
      refine ⟨rfl, ?_⟩
      dsimp only at named
      split_ifs at named
      · simpa [eq_comm] using named
      · simpa [eq_comm] using named
  | _ => simp [kind] at named

theorem readable_of_mem_scanFrom {lexeme : Lexeme} {name : String}
    (member : lexeme ∈ scanFrom start text)
    (named : lexeme.token? = some (.variableName name) ∨
      lexeme.token? = some (.functionName name)) : Readable name := by
  induction start, text using scanFrom.induct with
  | case1 start => simp at member
  | case2 start c rest blank induction =>
      rw [scanFrom_blank blank] at member
      exact induction member
  | case3 start c rest visible parts induction =>
      rw [scanFrom_cons visible] at member
      rcases List.mem_cons.mp member with rfl | behind
      · obtain ⟨first, rfl⟩ := of_tokenOf?_named named
        intro d member
        rw [String.toList_ofList] at member
        exact ofChar_eq_name_iff.mp ((ofChar_of_mem_cut member).trans first)
      · exact induction behind

/-- Names that are not readable are out of reach of every text. -/
theorem readable_of_mem_tokens {tokens : List Token} {token : Token} {name : String}
    (tokenized : tokenize text = .ok tokens) (member : token ∈ tokens)
    (named : token = .variableName name ∨ token = .functionName name) : Readable name := by
  obtain ⟨lexeme, scanned, read⟩ := exists_lexeme_of_mem tokenized member
  refine readable_of_mem_scanFrom scanned ?_
  rw [read]
  exact named.imp (congrArg some) (congrArg some)

theorem tokenize_variableName_iff {name : String} (filled : name ≠ "") :
    tokenize name.toList = .ok [.variableName name] ↔ Readable name := by
  constructor
  · intro tokenized
    exact readable_of_mem_tokens tokenized List.mem_cons_self (.inl rfl)
  · intro readable
    have read := @token?_scanFrom_name [] 0 name.toList (by simpa using filled)
      (fun c member => ofChar_eq_name_iff.mpr (readable c member)) (by simp)
    rw [tokenize_eq_ok_iff, scan]
    simpa using read

theorem tokenize_functionName_iff {name : String} (filled : name ≠ "") :
    tokenize (name.toList ++ ['(']) = .ok [.functionName name, .opening .round] ↔
      Readable name := by
  constructor
  · intro tokenized
    exact readable_of_mem_tokens tokenized List.mem_cons_self (.inr rfl)
  · intro readable
    have read := @token?_scanFrom_name ['('] 0 name.toList (by simpa using filled)
      (fun c member => ofChar_eq_name_iff.mpr (readable c member)) (by simp; decide)
    have bracket (start : Nat) :
        scanFrom start ['('] = [⟨start, ['('], some (.opening .round)⟩] := by
      rw [scanFrom_cons (by decide)]
      exact congrArg _ (scanFrom_nil _)
    rw [tokenize_eq_ok_iff, scan, read, bracket]
    simp

end Lexer
end Reckoner
