import Reckoner.Proofs.Application
import Reckoner.Proofs.Grammar.Brackets
import Reckoner.Proofs.Grammar.Reduction

/-!
# Calls as phrases

Once groups, variables and calls are replaced by their values, what is left abbreviates a sequence
by its atoms.
-/

namespace Reckoner
namespace Grammar

open Evaluation Outline

variable {env : Environment}

/-- What a sequence in front of which a function name stands is replaced by: the rest of the call
comes first. -/
def CompletesCall (env : Environment) (name : String) (result tokens : List Token) : Prop :=
  ∃ value others segment rest, result = .number value :: others ∧ tokens = segment ++ rest ∧
    Derives env .atom value (.functionName name :: segment) ∧
    Abbreviates (Derives env .atom) others rest

theorem joinGroup_eq_ok {evaluate : List Token → Except Fault Value}
    (sound : ∀ slice value, evaluate slice = .ok value → Derives env .sum value slice)
    {called : Bool} {slices : List (List Token)} {tokens : List Token} (filled : slices ≠ [])
    (joined : joinGroup evaluate called slices = .ok tokens) :
    ∃ values, tokens = groupTokens values ∧
      (DerivesAll env values ([.separator].intercalate slices) ∨
        called = true ∧ slices = [[]] ∧ values = []) := by
  unfold joinGroup at joined
  split at joined
  · rename_i empty
    cases joined
    simp only [Bool.and_eq_true, decide_eq_true_eq] at empty
    exact ⟨[], rfl, .inr ⟨empty.1, empty.2, rfl⟩⟩
  · obtain ⟨values, evaluated, grouped⟩ := Outcome.bind_eq_ok.mp joined
    cases grouped
    exact ⟨values, rfl, .inl (derivesAll_of_mapM sound filled evaluated)⟩

/-- A token stands for itself or, in place of a variable, for its value. -/
theorem abbreviates_resolve (env : Environment) (token : Token) :
    Abbreviates (Derives env .atom) [resolve env.valueOf? token] [token] := by
  cases token with
  | number value => exact .single Derives.number.operand
  | variableName name =>
      cases bound : env.valueOf? name with
      | none => simpa [resolve, bound] using Abbreviates.other rfl .nil
      | some value => simpa [resolve, bound] using (Derives.variableName bound).operand
  | _ => exact .other rfl .nil

theorem derives_of_resolve {token : Token} {value : Value}
    (number : resolve env.valueOf? token = .number value) :
    Derives env .operand value [token] := by
  cases token with
  | number other =>
      cases number
      exact .number
  | variableName name =>
      cases bound : env.valueOf? name with
      | none => simp [resolve, bound] at number
      | some other =>
          simp only [resolve, bound, Token.number.injEq] at number
          exact .variableName (number ▸ bound)
  | _ => cases number

/-- Whatever an outline is filled in with and its calls are then replaced by abbreviates the
sequence, unless a bracket is left over. -/
def SoundOutside (env : Environment) (evaluate : List Token → Except Fault Value)
    (outline : Outline) (tokens : List Token) : Prop :=
  ∀ flat result, outline.fill .round evaluate (joinGroup evaluate) false = .ok flat →
    applyFrom env.call .outside (substitute env.valueOf? flat) = .ok result →
    .opening .round ∉ result → Abbreviates (Derives env .atom) result tokens

/-- The same behind the name of a function. -/
def SoundNamed (env : Environment) (evaluate : List Token → Except Fault Value)
    (outline : Outline) (tokens : List Token) : Prop :=
  ∀ name flat result, outline.fill .round evaluate (joinGroup evaluate) true = .ok flat →
    applyFrom env.call (.named name) (substitute env.valueOf? flat) = .ok result →
    .opening .round ∉ result → CompletesCall env name result tokens

section Sound

variable {evaluate : List Token → Except Fault Value} {tail : Outline} {rest : List Token}
  (outside : SoundOutside env evaluate tail rest)
include outside

theorem soundOutside_plain (named : SoundNamed env evaluate tail rest) (token : Token) :
    SoundOutside env evaluate (.plain token tail) (token :: rest) := by
  intro flat result filled applied closed
  obtain ⟨others, filledTail, done⟩ := Outcome.bind_eq_ok.mp filled
  cases done
  by_cases function : token.isFunctionName = true
  · obtain ⟨name, rfl⟩ := Token.exists_functionName function
    obtain ⟨value, later, segment, back, rfl, rfl, derived, whole⟩ :=
      named name others result filledTail applied closed
    exact .number derived whole
  · rw [Bool.not_eq_true] at function
    have copied : (resolve env.valueOf? token).isFunctionName = false := by
      rw [isFunctionName_resolve, function]
    rw [function] at filledTail
    rw [substitute, List.map_cons, applyFrom_outside_cons _ copied] at applied
    obtain ⟨later, appliedTail, done⟩ := Outcome.bind_eq_ok.mp applied
    cases done
    have whole := outside others later filledTail appliedTail (List.not_mem_of_not_mem_cons closed)
    exact (abbreviates_resolve env token).append whole

theorem soundNamed_plain {token : Token} (noOpening : token ≠ .opening .round) :
    SoundNamed env evaluate (.plain token tail) (token :: rest) := by
  intro name flat result filled applied closed
  obtain ⟨others, filledTail, done⟩ := Outcome.bind_eq_ok.mp filled
  cases done
  obtain ⟨argument, value, later, number, called, appliedTail, rfl⟩ :=
    applyFrom_named_cons_eq_ok _ (resolve_ne_opening noOpening) applied
  have operand := derives_of_resolve number
  rw [isFunctionName_of_resolve number] at filledTail
  have whole := outside others later filledTail appliedTail (List.not_mem_of_not_mem_cons closed)
  exact ⟨value, later, [token], rest, rfl, rfl, .bareCall called operand, whole⟩

variable (sound : ∀ slice value, evaluate slice = .ok value → Derives env .sum value slice)
  {slices : List (List Token)} (filledSlices : slices ≠ [])
include sound filledSlices

theorem soundOutside_group :
    SoundOutside env evaluate (.group slices tail)
      (.opening .round :: ([.separator].intercalate slices ++ .closing .round :: rest)) := by
  intro flat result filled applied closed
  obtain ⟨first, joined, filling⟩ := Outcome.bind_eq_ok.mp filled
  obtain ⟨others, filledTail, done⟩ := Outcome.bind_eq_ok.mp filling
  cases done
  obtain ⟨values, rfl, derived | ⟨impossible, -, -⟩⟩ := joinGroup_eq_ok sound filledSlices joined
  · rw [substitute_groupTokens, applyFrom_outside_groupTokens] at applied
    obtain ⟨later, appliedTail, done⟩ := Outcome.bind_eq_ok.mp applied
    cases done
    rw [List.mem_append, not_or] at closed
    have whole := outside others later filledTail appliedTail closed.2
    -- Only the tokens of a single value have no bracket.
    rcases values with - | ⟨value, - | ⟨_, _⟩⟩
    · simp [groupTokens] at closed
    · have atom := derived.single.group
      simpa [groupTokens] using Abbreviates.number atom whole
    · simp [groupTokens] at closed
  · cases impossible

theorem soundNamed_group :
    SoundNamed env evaluate (.group slices tail)
      (.opening .round :: ([.separator].intercalate slices ++ .closing .round :: rest)) := by
  intro name flat result filled applied closed
  obtain ⟨first, joined, filling⟩ := Outcome.bind_eq_ok.mp filled
  obtain ⟨others, filledTail, done⟩ := Outcome.bind_eq_ok.mp filling
  cases done
  obtain ⟨values, rfl, arguments⟩ := joinGroup_eq_ok sound filledSlices joined
  rw [substitute_groupTokens, applyFrom_named_groupTokens] at applied
  obtain ⟨value, called, continued⟩ := Outcome.bind_eq_ok.mp applied
  obtain ⟨later, appliedTail, done⟩ := Outcome.bind_eq_ok.mp continued
  cases done
  have whole := outside others later filledTail appliedTail (List.not_mem_of_not_mem_cons closed)
  have call : Derives env .atom value (.functionName name :: .opening .round ::
      ([.separator].intercalate slices ++ [.closing .round])) := by
    rcases arguments with derived | ⟨-, rfl, rfl⟩
    · exact .listCall called derived
    · simpa using Derives.emptyCall called
  exact ⟨value, later, _, rest, rfl, by simp, call, whole⟩

end Sound

/-- What groups, variables and calls are replaced by abbreviates the sequence, unless a bracket is
left over. -/
theorem sound_of_divides {evaluate : List Token → Except Fault Value}
    (sound : ∀ slice value, evaluate slice = .ok value → Derives env .sum value slice)
    {outline : Outline} {tokens : List Token} (divides : Divides .round outline tokens) :
    SoundOutside env evaluate outline tokens ∧ SoundNamed env evaluate outline tokens := by
  induction divides with
  | done =>
      constructor
      · intro flat result filled applied _
        cases filled
        cases applied
        exact .nil
      · intro name flat result filled applied _
        cases filled
        cases applied
  | @plain token _ _ noOpening _ _ induction =>
      obtain ⟨outside, named⟩ := induction
      exact ⟨soundOutside_plain outside named token, soundNamed_plain outside noOpening⟩
  | group filledSlices _ induction =>
      obtain ⟨outside, -⟩ := induction
      exact ⟨soundOutside_group outside sound filledSlices,
        soundNamed_group outside sound filledSlices⟩

theorem nonempty_hereditary (env : Environment) :
    Hereditary env (fun _ _ tokens => tokens ≠ []) (fun _ _ => True) where
  number _ := by simp
  variableName _ := by simp
  array _ _ := by simp
  operand operand := operand
  group _ _ := by simp
  emptyCall _ := by simp
  listCall _ _ _ := by simp
  bareCall _ _ := by simp
  atom atom := atom
  factorial _ := by simp
  unsigned product := product
  negated _ := by simp
  first item := item
  join _ _ _ _ := by simp
  last _ := trivial
  more _ _ := trivial

theorem joinGroup_of_derived {evaluate : List Token → Except Fault Value} {bound : Nat}
    (complete : ∀ slice value, slice.length < bound → Derives env .sum value slice →
      evaluate slice = .ok value)
    {slices : List (List Token)} {values : List Value}
    (short : ∀ slice ∈ slices, slice.length < bound)
    (derived : List.Forall₂ (fun slice value => Derives env .sum value slice) slices values)
    (called : Bool) : joinGroup evaluate called slices = .ok (groupTokens values) := by
  have filled : slices ≠ [[]] := by
    rintro rfl
    cases derived with
    | cons first _ => exact (nonempty_hereditary env).derives first rfl
  rw [joinGroup, if_neg (by simp [filled]), mapM_of_complete complete short derived]
  rfl

theorem exists_token_of_operand {value : Value} {tokens : List Token} (arrayFree : ArrayFree tokens)
    (derived : Derives env .operand value tokens) :
    ∃ token, tokens = [token] ∧ resolve env.valueOf? token = .number value := by
  rcases derived.operand_cases with rfl | ⟨name, bound, rfl⟩ | ⟨values, entries, -, -, rfl⟩
  · exact ⟨_, rfl, rfl⟩
  · exact ⟨_, rfl, by simp [resolve, bound]⟩
  · simp at arrayFree

theorem fill_operand {evaluate : List Token → Except Fault Value} {token : Token} {value : Value}
    (number : resolve env.valueOf? token = .number value) {rest flat : List Token}
    (filled : (remaining .round none rest).fill .round evaluate (joinGroup evaluate) false =
      .ok flat) {called : Bool} :
    (remaining .round none (token :: rest)).fill .round evaluate (joinGroup evaluate) called =
      .ok (token :: flat) := by
  have noOpening : token ≠ .opening .round := by
    rintro rfl
    cases number
  have noClosing : token ≠ .closing .round := by
    rintro rfl
    cases number
  rw [remaining_plain noOpening noClosing]
  exact fill_plain (isFunctionName_of_resolve number ▸ filled)

theorem applyFrom_call {name : String} {values : List Value} {value : Value}
    {flat short : List Token} (called : env.call name values = .ok value)
    (applied : applyFrom env.call .outside (substitute env.valueOf? flat) = .ok short) :
    applyFrom env.call .outside
      (substitute env.valueOf? (.functionName name :: (groupTokens values ++ flat))) =
        .ok (.number value :: short) := by
  calc
    _ = applyFrom env.call (.named name) (substitute env.valueOf? (groupTokens values ++ flat)) :=
      rfl
    _ = .ok (.number value :: short) := by
      rw [substitute_groupTokens, applyFrom_named_groupTokens, called, applied]
      rfl

theorem fill_bracketed {evaluate : List Token → Except Fault Value} {bound : Nat}
    (complete : ∀ slice value, slice.length < bound → Derives env .sum value slice →
      evaluate slice = .ok value)
    {list rest flat : List Token} {values : List Value} (derived : DerivesAll env values list)
    (bounded : list.length < bound)
    (filled : (remaining .round none rest).fill .round evaluate (joinGroup evaluate) false =
      .ok flat) (called : Bool) :
    (remaining .round none (.opening .round :: (list ++ .closing .round :: rest))).fill .round
      evaluate (joinGroup evaluate) called = .ok (groupTokens values ++ flat) := by
  obtain ⟨slices, -, rfl, expressions, grouped⟩ := remaining_bracketed derived
  have short : ∀ slice ∈ slices, slice.length < bound := by
    intro slice member
    exact Nat.lt_of_le_of_lt (length_le_intercalate member) bounded
  rw [grouped]
  exact fill_group (joinGroup_of_derived complete short expressions called) filled

theorem exists_flattened {evaluate : List Token → Except Fault Value} {bound : Nat}
    (complete : ∀ slice value, slice.length < bound → Derives env .sum value slice →
      evaluate slice = .ok value)
    {tokens result : List Token} (whole : Abbreviates (Derives env .atom) result tokens)
    (arrayFree : ArrayFree tokens) (arithmetic : Arithmetic (fun _ => True) result)
    (bounded : tokens.length ≤ bound) :
    ∃ flat, (remaining .round none tokens).fill .round evaluate (joinGroup evaluate) false =
        .ok flat ∧
      applyFrom env.call .outside (substitute env.valueOf? flat) = .ok result := by
  induction whole with
  | nil => exact ⟨[], rfl, rfl⟩
  | @other token short long other tail induction =>
      obtain ⟨first, rest⟩ := List.forall_mem_cons.mp arithmetic
      rw [ArrayFree.cons_iff] at arrayFree
      rw [List.length_cons] at bounded
      obtain ⟨flat, filled, applied⟩ := induction arrayFree.2.2 rest (by omega)
      rcases first with number | ⟨op, rfl, -⟩
      · simp [other] at number
      · refine ⟨.operator op :: flat, ?_, ?_⟩
        · rw [remaining_plain (by simp) (by simp)]
          exact fill_plain filled
        · rw [substitute, List.map_cons, applyFrom_outside_cons _ rfl]
          exact Outcome.bind_eq_ok.mpr ⟨short, applied, rfl⟩
  | @number value segment short long atom tail induction =>
      obtain ⟨-, rest⟩ := List.forall_mem_cons.mp arithmetic
      rw [ArrayFree.append_iff] at arrayFree
      rw [List.length_append] at bounded
      obtain ⟨flat, filled, applied⟩ := induction arrayFree.2 rest (by omega)
      rcases atom.atom_cases with operand | ⟨inner, derived, rfl⟩ | ⟨name, called, rfl⟩ |
        ⟨name, values, list, called, derived, rfl⟩ | ⟨name, argument, tokens, called, operand, rfl⟩
      · obtain ⟨token, rfl, number⟩ := exists_token_of_operand arrayFree.1 operand
        refine ⟨token :: flat, fill_operand number filled, ?_⟩
        rw [substitute, List.map_cons, number, applyFrom_outside_cons _ rfl]
        exact Outcome.bind_eq_ok.mpr ⟨short, applied, rfl⟩
      · simp only [List.length_cons, List.length_append] at bounded
        refine ⟨groupTokens [value] ++ flat, ?_, ?_⟩
        · rw [List.cons_append, List.append_assoc, List.singleton_append]
          exact fill_bracketed complete (.last derived) (by omega) filled false
        · rw [substitute_groupTokens, applyFrom_outside_groupTokens]
          exact Outcome.bind_eq_ok.mpr ⟨short, applied, rfl⟩
      · refine ⟨.functionName name :: (groupTokens [] ++ flat), ?_, ?_⟩
        · rw [List.cons_append, remaining_plain (by simp) (by simp)]
          exact fill_plain (fill_group rfl filled)
        · exact applyFrom_call called applied
      · simp only [List.length_cons, List.length_append] at bounded
        refine ⟨.functionName name :: (groupTokens values ++ flat), ?_,
          applyFrom_call called applied⟩
        rw [List.cons_append, List.cons_append, List.append_assoc, List.singleton_append,
          remaining_plain (by simp) (by simp)]
        exact fill_plain (fill_bracketed complete derived (by omega) filled true)
      · obtain ⟨token, rfl, number⟩ :=
          exists_token_of_operand (ArrayFree.cons_iff.mp arrayFree.1).2.2 operand
        refine ⟨.functionName name :: token :: flat, ?_, ?_⟩
        · rw [List.cons_append, remaining_plain (by simp) (by simp)]
          exact fill_plain (fill_operand number filled)
        · have argumentOnly := applyFrom_call called applied
          rw [substitute, List.map_cons, List.map_cons, number]
          exact argumentOnly

end Grammar
end Reckoner
