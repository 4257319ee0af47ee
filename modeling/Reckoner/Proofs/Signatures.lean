import Reckoner.Proofs.Grammar.Descent
import Reckoner.Proofs.Listings
import Reckoner.Proofs.Nesting.Evaluation
import Reckoner.Proofs.Spacing
import Reckoner.Proofs.Substitution
import Reckoner.Proofs.Transaction

/-!
# Parameters and arguments

The list of arguments in a call is divided at every separator, the list of parameters in a
definition at commas only.  So a function takes as many arguments as its definition lists parameters
exactly if commas separate these.
-/

namespace Reckoner

/-! ## Definitions -/

namespace Statement

/-- A finished line whose target starts with a visible character is cut at its first `=`, and blank
characters are dropped at its end. -/
theorem read_line_eq {target body : List Char}
    (visible : ∀ c ∈ target.head?, Text.isBlank c = false)
    (oneLine : '\n' ∉ target) (bodyLine : '\n' ∉ body) (unmarked : '=' ∉ target)
    (named : targetName target ≠ []) :
    read (target ++ '=' :: body ++ ['\n']) =
      .ok ⟨target ++ '=' :: Text.trimEnd body, target, Text.trimEnd body⟩ := by
  have first : ∀ c ∈ (target ++ '=' :: body).head?, Text.isBlank c = false := by
    intro c head
    cases target with
    | nil => cases head; decide
    | cons d target => exact visible c head
  refine read_eq_ok_iff.mpr ⟨?_, Text.cutAt?_eq_some_iff.mpr ⟨rfl, unmarked⟩, named⟩
  rw [filter_newline (by simp [oneLine, bodyLine]), Text.trim_eq_trimEnd first,
    Text.trimEnd_append_cons (by decide)]

theorem parameters?_listing {name : List Char} {list : Listing} (word : IsWord name)
    (words : ∀ cell ∈ list.cells, IsWord (Text.trim cell)) (behind : List Char) :
    parameters? (name ++ '(' :: (list.text ++ ')' :: behind)) = .ok (some list.parameters) := by
  have outer : Text.cutAt? '(' (name ++ '(' :: (list.text ++ ')' :: behind)) =
      some (name, list.text ++ ')' :: behind) :=
    Text.cutAt?_eq_some_iff.mpr ⟨rfl, word.notMem (by decide)⟩
  have inner : Text.cutAt? ')' (list.text ++ ')' :: behind) = some (list.text, behind) :=
    Text.cutAt?_eq_some_iff.mpr
      ⟨rfl, Listing.notMem_text words (by decide)⟩
  have kept : ((Text.pieces ',' list.text).map Text.trim).filter (· != []) =
      (Text.pieces ',' list.text).map Text.trim := by
    refine List.filter_eq_self.mpr fun trimmed member => ?_
    obtain ⟨piece, occurs, rfl⟩ := List.mem_map.mp member
    obtain ⟨c, inside, visible⟩ := @Listing.exists_visible_of_mem_pieces list [] piece
      (fun cell occurs => (words cell occurs).exists_visible) (Listing.comma_notMem words)
      (by simp) occurs
    have filled : Text.trim piece ≠ [] := by
      intro empty
      rw [Text.trim_eq_nil_iff.mp empty c inside] at visible
      cases visible
    simpa using filled
  simp only [parameters?, outer, inner, kept, List.map_map, Listing.parameters]
  rfl

end Statement

/-- A definition whose parameters are listed with any separators is stored with the parameters
that the commas between them divide. -/
theorem Table.assign_listing (table : Table) {name body : List Char} {list : Listing}
    {tokens : List Token} (word : IsWord name)
    (words : ∀ cell ∈ list.cells, IsWord (Text.trim cell)) (oneLine : '\n' ∉ list.text)
    (bodyLine : '\n' ∉ body) (tokenized : Lexer.tokenize body = .ok tokens) :
    ∃ description,
      table.assign (name ++ '(' :: (list.text ++ ") = ".toList) ++ body ++ ['\n']) =
        .ok (tokens, table.setFunction (String.ofList name)
          ⟨description, .formula ⟨list.parameters, tokens⟩⟩) := by
  let target := name ++ '(' :: (list.text ++ [')', ' '])
  have written : name ++ '(' :: (list.text ++ ") = ".toList) ++ body ++ ['\n'] =
      target ++ '=' :: (' ' :: body) ++ ['\n'] := by simp [target]
  have targetName : Statement.targetName target = name := by
    rw [Statement.targetName, Text.before_append_cons (word.notMem (by decide)),
      word.trimmed.trim_eq]
  have clean : ∀ c, c ∉ list.text → c.isAlpha = false → c ∉ ['(', ')', ' '] → c ∉ target := by
    intro c noList noLetter noOther
    simp only [List.mem_cons, List.not_mem_nil, not_or] at noOther
    simp [target, word.notMem noLetter, noList, noOther]
  have read : Statement.read (target ++ '=' :: (' ' :: body) ++ ['\n']) =
      .ok ⟨target ++ '=' :: Text.trimEnd (' ' :: body), target, Text.trimEnd (' ' :: body)⟩ := by
    refine Statement.read_line_eq ?_ ?_ ?_ ?_ ?_
    · intro c head
      rw [List.head?_append_of_ne_nil _ word.filled] at head
      exact word.isBlank (List.mem_of_mem_head? head)
    · exact clean '\n' oneLine (by decide) (by decide)
    · simp [bodyLine]
    · exact clean '=' (Listing.notMem_text words (by decide)) (by decide) (by decide)
    · rw [targetName]
      exact word.filled
  have expression : Lexer.tokenize (Text.trimEnd (' ' :: body)) = .ok tokens := by
    obtain ⟨back, around, blank⟩ := Text.exists_trimEnd (' ' :: body)
    rw [← Lexer.tokenize_append_blanks blank, ← around, Lexer.tokenize_eq_ok_iff_reads,
      Lexer.reads_blank (by decide)]
    exact Lexer.tokenize_eq_ok_iff_reads.mp tokenized
  let statement : Statement :=
    ⟨target ++ '=' :: Text.trimEnd (' ' :: body), target, Text.trimEnd (' ' :: body)⟩
  have stored : statement.definition table tokens = .ok (.function (String.ofList name)
      ⟨String.ofList statement.line, .formula ⟨list.parameters, tokens⟩⟩) := by
    rw [Statement.definition, Statement.name, Statement.parameters?_listing word words, targetName]
    rfl
  have planned : table.plan (target ++ '=' :: (' ' :: body) ++ ['\n']) =
      .ok (tokens, some (.function (String.ofList name)
        ⟨String.ofList statement.line, .formula ⟨list.parameters, tokens⟩⟩)) := by
    refine plan_eq_ok.mpr ⟨statement, Statement.prepare_eq_ok.mpr ⟨read, expression⟩, ?_⟩
    rw [if_pos (by simp)]
    exact ⟨_, stored, rfl⟩
  refine ⟨String.ofList statement.line, ?_⟩
  rw [written]
  exact assign_eq_ok.mpr (Update.perform_assign_eq_ok.mpr ⟨_, planned, rfl⟩)

/-! ## Calls -/

section Calls

open Evaluation Grammar

/-- A call with a list of expressions in brackets is made with their values. -/
theorem evaluate_call {env : Environment} {name : String} {values : List Value}
    {list : List Token} (derived : DerivesAll env values list) (arrayFree : ArrayFree list) :
    evaluate env (.functionName name :: .opening .round :: (list ++ [.closing .round])) =
      env.call name values := by
  have complete : ∀ slice value, slice.length < list.length + 1 → Derives env .sum value slice →
      evaluate env slice = .ok value := fun _ _ _ => evaluate_of_derives
  have whole :
      ArrayFree (.functionName name :: .opening .round :: (list ++ [.closing .round])) := by
    simp [arrayFree]
  have flattened : flattenGroups (evaluate env)
      (.functionName name :: .opening .round :: (list ++ [.closing .round])) =
        .ok (.functionName name :: (groupTokens values ++ [])) := by
    rw [flattenGroups, Outline.ofTokens, Outline.remaining_plain (by simp) (by simp)]
    exact Outline.fill_plain (fill_bracketed complete derived (Nat.lt_succ_self _) rfl true)
  have applied : applyFunctions env.call
      (substitute env.valueOf? (.functionName name :: (groupTokens values ++ []))) = (do
        let result ← env.call name values
        let rest ← applyFrom env.call .outside []
        return .number result :: rest) :=
    calc
      _ = applyFrom env.call (.named name)
          (substitute env.valueOf? (groupTokens values ++ [])) := rfl
      _ = applyFrom env.call (.named name) (groupTokens values ++ []) := by
        rw [substitute_groupTokens]
        rfl
      _ = _ := applyFrom_named_groupTokens env.call name values []
  rw [evaluate_eq env (by simp), buildArrays_of_arrayFree whole, Outcome.ok_bind, flattened,
    Outcome.ok_bind, reduce, applied]
  cases env.call name values <;> rfl

theorem derivesAll_literalTokens (env : Environment) {numbers : List Float}
    (filled : numbers ≠ []) :
    DerivesAll env (numbers.map .scalar) (literalTokens numbers) := by
  refine derivesAll_iff.mpr ⟨_, by simpa using filled, rfl, ?_⟩
  rw [List.forall₂_map_left_iff, List.forall₂_map_right_iff]
  exact List.forall₂_same.mpr fun x _ =>
    .first (.unsigned (.first (.first (.atom (.operand .number)))))

theorem arrayFree_literalTokens (numbers : List Float) : ArrayFree (literalTokens numbers) := by
  induction numbers with
  | nil => simp [literalTokens]
  | cons x numbers induction =>
      by_cases filled : numbers = []
      · simp [literalTokens, filled]
      · rw [literalTokens_cons x filled]
        simp [induction]

end Calls

namespace Table

theorem evaluateText_call (table : Table) {name : List Char} {arguments : Listing}
    {numbers : List Float} (word : IsWord name)
    (literals : List.Forall₂ IsLiteral arguments.cells numbers) :
    table.evaluateText (name ++ '(' :: (arguments.text ++ [')'])) =
      (Scope.ofTable table).environment.call (String.ofList name) (numbers.map .scalar) := by
  have filled : numbers ≠ [] := by
    rintro rfl
    exact arguments.cells_ne_nil (List.forall₂_nil_right_iff.mp literals)
  have tokenized : Lexer.tokenize (name ++ '(' :: (arguments.text ++ [')'])) =
      .ok (.functionName (String.ofList name) :: .opening .round ::
        (literalTokens numbers ++ [.closing .round])) := by
    rw [Lexer.tokenize_eq_ok_iff_reads,
      Lexer.reads_functionName word.filled fun _ => word.isNameChar,
      Lexer.reads_listing [] literals, Lexer.reads_nil]
    simp
  rw [evaluateText, Scope.evaluateText, tokenized, Outcome.ok_bind, Scope.evaluate,
    evaluate_call (derivesAll_literalTokens _ filled) (arrayFree_literalTokens numbers)]

/-- A definition whose parameters are words and calls whose arguments are numbers, listed with any
separators.  The function has one parameter more than there are commas in its list, and these are
the words listed exactly if nothing but commas separates them.  Then every call that lists as many
numbers, with whatever separators, evaluates the body with the words bound to them, and otherwise
every such call is refused for its arity. -/
theorem assign_signature (table : Table) {name body : List Char} {tokens : List Token}
    {list : Listing} (word : IsWord name) (words : ∀ cell ∈ list.cells, IsWord (Text.trim cell))
    (distinct : list.names.Nodup) (oneLine : '\n' ∉ list.text) (bodyLine : '\n' ∉ body)
    (tokenized : Lexer.tokenize body = .ok tokens) :
    ∃ description parameters after,
      after = table.setFunction (String.ofList name)
          ⟨description, .formula ⟨parameters, tokens⟩⟩ ∧
        table.assign (name ++ '(' :: (list.text ++ ") = ".toList) ++ body ++ ['\n']) =
          .ok (tokens, after) ∧
        parameters.length = list.marks.count ',' + 1 ∧
        (parameters = list.names ↔ list.Commas) ∧
        ∀ (arguments : Listing) (numbers : List Float),
          List.Forall₂ IsLiteral arguments.cells numbers → numbers.length = list.cells.length →
            let call := name ++ '(' :: (arguments.text ++ [')'])
            let inner := (Scope.ofTable after).bind (list.names.zip (numbers.map .scalar))
            (list.Commas → after.evaluateText call = inner.evaluate tokens ∧
                ∀ parameter argument,
                  (parameter, argument) ∈ list.names.zip (numbers.map Value.scalar) →
                    inner.valueOf? parameter = some argument) ∧
              (¬list.Commas → after.evaluateText call = .error (.invalidCall (String.ofList name)
                (.arity (list.marks.count ',' + 1) numbers.length))) := by
  obtain ⟨description, assigned⟩ := table.assign_listing word words oneLine bodyLine tokenized
  refine ⟨description, list.parameters, _, rfl, assigned, Listing.length_parameters words,
    Listing.parameters_eq_names_iff words, fun arguments numbers literals arity => ?_⟩
  set after := table.setFunction (String.ofList name)
    ⟨description, .formula ⟨list.parameters, tokens⟩⟩ with stored
  have called : after.evaluateText (name ++ '(' :: (arguments.text ++ [')'])) =
      (Scope.ofTable after).call ⟨description, .formula ⟨list.parameters, tokens⟩⟩
        (String.ofList name) (numbers.map .scalar) := by
    rw [after.evaluateText_call word literals]
    simp [Scope.environment, Scope.environmentWith, Scope.ofTable, stored]
  have lengths : list.names.length = (numbers.map Value.scalar).length := by
    rw [Listing.names, List.length_map, List.length_map, arity]
  refine ⟨fun commas => ⟨?_, fun parameter argument member => ?_⟩, fun others => ?_⟩
  · have same := (Listing.parameters_eq_names_iff words).mpr commas
    rw [called, same]
    exact Scope.call_formula _ _ ⟨list.names, tokens⟩ _ _ lengths
      (show 0 < Scope.depthLimit by decide)
  · exact Scope.valueOf?_bind_zip_of_nodup _ lengths distinct member
  · have different : list.parameters.length ≠ (numbers.map Value.scalar).length := by
      rw [List.length_map, arity]
      exact fun same => others (Listing.commas_of_length_parameters words same)
    rw [called, Scope.call_formula_of_ne different, Listing.length_parameters words,
      List.length_map]

/-- Parameters listed with a comma, and arguments with a semicolon. -/
theorem assign_signature_difference :
    let body : List Token := [.variableName "x", .operator .sub, .variableName "y"]
    ∃ description after,
      after = empty.setFunction "f" ⟨description, .formula ⟨["x", "y"], body⟩⟩ ∧
        empty.assign "f(x, y) = x-y\n".toList = .ok (body, after) ∧
        after.evaluateText "f(5; 3)".toList = .ok (.scalar 2) := by
  intro body
  let parameters : Listing := .more ['x'] ',' rfl (.last [' ', 'y'])
  let arguments : Listing := .more ['5'] ';' rfl (.last [' ', '3'])
  have letter : ∀ c : Char, c.isAlpha = true → IsWord [c] := fun c letter =>
    ⟨List.cons_ne_nil c [], List.forall_mem_singleton.mpr letter⟩
  have words : ∀ cell ∈ parameters.cells, IsWord (Text.trim cell) :=
    List.forall_mem_cons.mpr ⟨letter 'x' rfl, List.forall_mem_singleton.mpr (letter 'y' rfl)⟩
  have digit : ∀ (cell : List Char) (c : Char) (x : Float), Text.trim cell = [c] →
      Text.isNumeralChar c = true → Numeral.read? [c] = some x → IsLiteral cell x := by
    intro cell c x trimmed numeral read
    exact ⟨by simp [trimmed], by simpa [trimmed] using numeral, by rw [trimmed, read]⟩
  have literals : List.Forall₂ IsLiteral arguments.cells [5, 3] :=
    .cons (digit _ '5' 5 rfl rfl (by decide +kernel))
      (.cons (digit _ '3' 3 rfl rfl (by decide +kernel)) .nil)
  have tokenized : Lexer.tokenize "x-y".toList = .ok body := by decide +kernel
  obtain ⟨description, _, after, stored, assigned, -, names, calls⟩ :=
    empty.assign_signature (letter 'f' rfl) words (by decide) (by decide) (by decide) tokenized
  have commas : parameters.Commas := List.forall_mem_singleton.mpr rfl
  obtain rfl := names.mpr commas
  have call := ((calls arguments [5, 3] literals rfl).1 commas).1
  subst stored
  exact ⟨description, _, rfl, assigned, call.trans rfl⟩

/-- Parameters listed with a semicolon are one parameter that no call can fill with two
arguments. -/
theorem assign_signature_semicolon :
    let after := ((Update.assign "f(x;y) = x+y\n".toList).perform .empty).2
    let body : List Token := [.variableName "x", .operator .add, .variableName "y"]
    empty.assign "f(x;y) = x+y\n".toList = .ok (body, after) ∧
      after.function? "f" = some ⟨"f(x;y) = x+y", .formula ⟨["x;y"], body⟩⟩ ∧
      after.evaluateText "f(1;2)".toList = .error (.invalidCall "f" (.arity 1 2)) := by
  intro after body
  have performed : ((Update.assign "f(x;y) = x+y\n".toList).perform .empty).1 = .ok body := by
    decide +kernel
  refine ⟨assign_eq_ok.mpr (Prod.ext performed rfl), ?_, ?_⟩
  · decide +kernel
  · decide +kernel

end Table
end Reckoner
