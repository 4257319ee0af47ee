import Reckoner.Proofs.Grammar.Reduction
import Reckoner.Proofs.Nesting.Condensation
import Reckoner.Proofs.Nesting.Faults

/-!
# Evaluating condensed sequences

A group in brackets and its value are evaluated alike wherever they stand.  Arrays and groups are
replaced in two passes: the first leaves sequences that are condensed again, of which the second
leaves the same.
-/

namespace Reckoner

open Evaluation Outline Outcome Grammar

/-! ## Arrays of a nested sequence -/

namespace Evaluation

variable {evaluate : List Token → Except Fault Value} {inner left rest : List Token}

/-- Whatever stands before an array, its value is the same. -/
theorem fill_array (called : Bool) (outline : Outline) :
    outline.fill .square evaluate (fun _ => joinArray evaluate) called =
      outline.fill .square evaluate (fun _ => joinArray evaluate) false := by
  cases outline <;> rfl

theorem buildArrays_plain {token : Token} (noOpening : token ≠ .opening .square)
    (noClosing : token ≠ .closing .square) (rest : List Token) :
    buildArrays evaluate (token :: rest) = (do
      let built ← buildArrays evaluate rest
      return token :: built) := by
  rw [buildArrays, ofTokens, remaining_plain noOpening noClosing, fill, fill_array]
  rfl

theorem buildArrays_group {slices : List (List Token)}
    (outlined : remaining .square none (.opening .square :: (inner ++ .closing .square :: rest)) =
      .group slices (remaining .square none rest)) :
    buildArrays evaluate (.opening .square :: (inner ++ .closing .square :: rest)) = (do
      let first ← joinArray evaluate slices
      let built ← buildArrays evaluate rest
      return first ++ built) := by
  rw [buildArrays, ofTokens, outlined]
  rfl

theorem buildArrays_append (nested : WellNested left) (rest : List Token) :
    buildArrays evaluate (left ++ rest) = (do
      let first ← buildArrays evaluate left
      let built ← buildArrays evaluate rest
      return first ++ built) := by
  induction nested generalizing rest with
  | nil => cases done : buildArrays evaluate rest <;> exact done
  | plain noBracket _ induction =>
      have noOpening := Token.ne_opening noBracket .square
      have noClosing := Token.ne_closing noBracket .square
      rw [List.cons_append, buildArrays_plain noOpening noClosing, induction,
        buildArrays_plain noOpening noClosing]
      simp
  | group shape inside _ insideInduction tailInduction =>
      rw [List.cons_append, List.append_assoc, List.cons_append]
      cases shape with
      | square =>
          obtain ⟨slices, -, outlined⟩ := inside.exists_group
          rw [buildArrays_group (outlined _ _), buildArrays_group (outlined _ _), tailInduction]
          simp
      | round =>
          simp only [@buildArrays_plain _ (.opening .round) (by simp) (by simp), insideInduction,
            @buildArrays_plain _ (.closing .round) (by simp) (by simp), tailInduction]
          simp

/-- Arrays inside and behind a round group are built one after the other. -/
theorem buildArrays_round (inside : WellNested inner) (rest : List Token) :
    buildArrays evaluate (.opening .round :: (inner ++ .closing .round :: rest)) = (do
      let first ← buildArrays evaluate inner
      let built ← buildArrays evaluate rest
      return .opening .round :: (first ++ .closing .round :: built)) := by
  rw [buildArrays_plain (by simp) (by simp), buildArrays_append inside,
    buildArrays_plain (by simp) (by simp)]
  simp

theorem buildArrays_of_arrayFree {tokens : List Token} (arrayFree : ArrayFree tokens) :
    buildArrays evaluate tokens = .ok tokens := by
  induction tokens with
  | nil => rfl
  | cons token rest induction =>
      obtain ⟨noOpening, noClosing, free⟩ := ArrayFree.cons_iff.mp arrayFree
      rw [buildArrays_plain noOpening noClosing, induction free]
      rfl

/-- Building arrays keeps a sequence well nested and leaves no array. -/
theorem wellNested_of_buildArrays {tokens built : List Token} (nested : WellNested tokens)
    (ok : buildArrays evaluate tokens = .ok built) : WellNested built ∧ ArrayFree built := by
  induction nested generalizing built with
  | nil =>
      cases ok
      exact ⟨.nil, .nil⟩
  | plain noBracket _ induction =>
      have noOpening := Token.ne_opening noBracket .square
      have noClosing := Token.ne_closing noBracket .square
      rw [buildArrays_plain noOpening noClosing] at ok
      obtain ⟨rest, building, done⟩ := bind_eq_ok.mp ok
      cases done
      obtain ⟨tail, free⟩ := induction building
      exact ⟨.plain noBracket tail, ArrayFree.cons_iff.mpr ⟨noOpening, noClosing, free⟩⟩
  | group shape inside _ insideInduction tailInduction =>
      cases shape with
      | square =>
          obtain ⟨slices, -, outlined⟩ := inside.exists_group
          rw [buildArrays_group (outlined _ _)] at ok
          obtain ⟨first, joined, ok⟩ := bind_eq_ok.mp ok
          obtain ⟨rest, building, done⟩ := bind_eq_ok.mp ok
          obtain ⟨values, -, single⟩ := bind_eq_ok.mp joined
          cases done
          cases single
          obtain ⟨tail, free⟩ := tailInduction building
          exact ⟨.plain rfl tail, by simpa using free⟩
      | round =>
          rw [buildArrays_round inside] at ok
          obtain ⟨first, buildingInside, ok⟩ := bind_eq_ok.mp ok
          obtain ⟨rest, building, done⟩ := bind_eq_ok.mp ok
          cases done
          obtain ⟨inner, freeInside⟩ := insideInduction buildingInside
          obtain ⟨tail, free⟩ := tailInduction building
          exact ⟨.group .round inner tail, by simpa using ⟨freeInside, free⟩⟩

end Evaluation

/-! ## Groups with a value -/

section Groups

variable {env : Environment} {inner built : List Token} {slices : List (List Token)} {value : Value}

theorem joinArray_of_evaluate
    (outlined : remaining .square none (.opening .square :: (inner ++ [.closing .square])) =
      .group slices .done)
    (evaluated : evaluate env (.opening .square :: (inner ++ [.closing .square])) = .ok value) :
    joinArray (evaluate env) slices = .ok [.number value] := by
  rw [evaluate_eq env (by simp), buildArrays_group outlined] at evaluated
  obtain ⟨built, building, evaluated⟩ := bind_eq_ok.mp evaluated
  obtain ⟨first, joined, building⟩ := bind_eq_ok.mp building
  obtain ⟨values, entries, single⟩ := bind_eq_ok.mp joined
  cases building
  cases single
  rw [joined]
  cases evaluated
  rfl

/-- A round group without arrays is joined to its value, also behind the name of a function. -/
theorem joinGroup_of_evaluate (arrayFree : ArrayFree inner)
    (outlined : remaining .round none (.opening .round :: (inner ++ [.closing .round])) =
      .group slices .done)
    (evaluated : evaluate env (.opening .round :: (inner ++ [.closing .round])) = .ok value)
    (called : Bool) : joinGroup (evaluate env) called slices = .ok [.number value] := by
  have free : ArrayFree (.opening .round :: (inner ++ [.closing .round])) := by
    simpa using arrayFree
  rw [evaluate_eq env (by simp), buildArrays_of_arrayFree free, ok_bind, flattenGroups, ofTokens,
    outlined] at evaluated
  obtain ⟨flat, filled, reduced⟩ := bind_eq_ok.mp evaluated
  obtain ⟨first, joined, filled⟩ := bind_eq_ok.mp filled
  obtain ⟨values, entries, grouped⟩ := bind_eq_ok.mp joined
  cases filled
  cases grouped
  obtain ⟨copied, applied, calculated⟩ := reduce_eq_ok.mp reduced
  rw [applyFunctions, substitute_groupTokens, applyFrom_outside_groupTokens] at applied
  cases applied
  have closed : .opening .round ∉ groupTokens values := fun member =>
    opening_notMem_of_calculate calculated .round (List.mem_append_left _ member)
  -- Only a single value leaves no bracket behind.
  rcases values with - | ⟨only, - | ⟨second, values⟩⟩
  · exact absurd List.mem_cons_self closed
  · cases calculated
    have filled : slices ≠ [[]] := by
      rintro rfl
      simp at entries
    rw [joinGroup, if_neg (by simp [filled]), entries]
    rfl
  · exact absurd List.mem_cons_self closed

/-- A round group whose arrays are built keeps its value. -/
theorem exists_built_of_evaluate (inside : WellNested inner)
    (evaluated : evaluate env (.opening .round :: (inner ++ [.closing .round])) = .ok value) :
    ∃ built, buildArrays (evaluate env) inner = .ok built ∧ WellNested built ∧ ArrayFree built ∧
      evaluate env (.opening .round :: (built ++ [.closing .round])) = .ok value := by
  rw [evaluate_eq env (by simp), buildArrays_round inside] at evaluated
  obtain ⟨whole, building, evaluated⟩ := bind_eq_ok.mp evaluated
  obtain ⟨built, buildingInside, done⟩ := bind_eq_ok.mp building
  cases done
  obtain ⟨nested, free⟩ := wellNested_of_buildArrays inside buildingInside
  refine ⟨built, buildingInside, nested, free, ?_⟩
  rw [evaluate_eq env (by simp), buildArrays_of_arrayFree (by simpa using free)]
  exact evaluated

end Groups

/-! ## Two runs -/

/-- A value stands for the tokens that evaluate to it. -/
def Evaluates (env : Environment) (value : Value) (tokens : List Token) : Prop :=
  evaluate env tokens = .ok value

namespace Condenses

variable {env : Environment} {allowed : Fault → Prop} {bound : Nat} {long short : List Token}

/-- Short enough slices that are condensed have the same values. -/
def SameValues (env : Environment) (allowed : Fault → Prop) (bound : Nat) : Prop :=
  ∀ slice slice', slice.length < bound ∧ Condenses (Evaluates env) slice slice' →
    Agree allowed (fun _ => False) Eq (evaluate env slice) (evaluate env slice')

theorem agree_joinArray (same : SameValues env allowed bound) {slices slices' : List (List Token)}
    (all : List.Forall₂ (fun slice slice' => slice.length < bound ∧
      Condenses (Evaluates env) slice slice') slices slices') :
    Agree allowed (fun _ => False)
      (fun built built' => ∃ value, built = [.number value] ∧ built' = [.number value])
      (joinArray (evaluate env) slices) (joinArray (evaluate env) slices') := by
  refine (Agree.mapM all same).bind fun values values' equal => ?_
  rw [List.forall₂_eq_eq_eq] at equal
  subst equal
  exact .ok ⟨_, rfl, rfl⟩

theorem agree_buildArrays (condenses : Condenses (Evaluates env) long short)
    (same : SameValues env allowed bound) (fits : long.length ≤ bound) :
    Agree allowed (fun _ => False) (Condenses (Evaluates env)) (buildArrays (evaluate env) long)
      (buildArrays (evaluate env) short) := by
  induction condenses with
  | nil => exact .ok .nil
  | plain noBracket _ induction =>
      have noOpening := Token.ne_opening noBracket .square
      have noClosing := Token.ne_closing noBracket .square
      rw [List.length_cons] at fits
      rw [buildArrays_plain noOpening noClosing, buildArrays_plain noOpening noClosing]
      refine (induction (by omega)).bind fun built built' tails => ?_
      exact .ok (.plain noBracket tails)
  | group shape inside tail insideInduction tailInduction =>
      simp only [List.length_cons, List.length_append] at fits
      cases shape with
      | square =>
          obtain ⟨slices, slices', all, outlined⟩ := inside.exists_group
          rw [buildArrays_group (outlined _ _).1, buildArrays_group (outlined _ _).2]
          refine (agree_joinArray same (all.imp fun _ _ pair => ⟨by omega, pair.2⟩)).bind ?_
          rintro _ _ ⟨value, rfl, rfl⟩
          refine (tailInduction (by omega)).bind fun built built' tails => ?_
          exact .ok (.plain rfl tails)
      | round =>
          rw [buildArrays_round inside.wellNested.1, buildArrays_round inside.wellNested.2]
          refine (insideInduction (by omega)).bind fun first first' heads => ?_
          refine (tailInduction (by omega)).bind fun built built' tails => ?_
          exact .ok (.group .round heads tails)
  | @value shape inner _ _ value inside stand tail induction =>
      simp only [List.length_cons, List.length_append] at fits
      rw [@buildArrays_plain _ (.number value) (by simp) (by simp)]
      cases shape with
      | square =>
          obtain ⟨slices, -, outlined⟩ := inside.exists_group
          rw [buildArrays_group (outlined _ _), joinArray_of_evaluate (outlined _ []) stand]
          refine (induction (by omega)).bind fun built built' tails => ?_
          exact .ok (.plain rfl tails)
      | round =>
          obtain ⟨first, building, nested, -, stand⟩ := exists_built_of_evaluate inside stand
          rw [buildArrays_round inside, building]
          refine (induction (by omega)).bind fun built built' tails => ?_
          exact .ok (.value nested stand tails)

theorem agree_fill (condenses : Condenses (Evaluates env) long short) (arrayFree : ArrayFree long)
    (same : SameValues env allowed bound) (fits : long.length ≤ bound) (called : Bool) :
    Agree allowed (fun _ => False) Eq
      ((remaining .round none long).fill .round (evaluate env) (joinGroup (evaluate env)) called)
      ((remaining .round none short).fill .round (evaluate env) (joinGroup (evaluate env))
        called) := by
  induction condenses generalizing called with
  | nil => exact .ok rfl
  | @plain token _ _ noBracket _ induction =>
      have noOpening := Token.ne_opening noBracket .round
      have noClosing := Token.ne_closing noBracket .round
      rw [List.length_cons] at fits
      rw [remaining_plain noOpening noClosing, remaining_plain noOpening noClosing, fill, fill]
      refine (induction (ArrayFree.cons_iff.mp arrayFree).2.2 (by omega) _).bind ?_
      rintro rest _ rfl
      exact .ok rfl
  | group shape inside tail _ induction =>
      cases shape with
      | square => simp at arrayFree
      | round =>
          simp only [ArrayFree.cons_iff, ArrayFree.append_iff] at arrayFree
          simp only [List.length_cons, List.length_append] at fits
          obtain ⟨slices, slices', all, outlined⟩ := inside.exists_group
          rw [(outlined _ _).1, (outlined _ _).2, fill, fill]
          refine (Comparison.agree_joinGroup same (fun _ _ pair => pair.2.nil_iff) called
            (all.imp fun _ _ pair => ⟨by omega, pair.2⟩)).bind ?_
          rintro _ _ ⟨values, values', rfl, rfl, equal⟩
          rw [List.forall₂_eq_eq_eq] at equal
          subst equal
          refine (induction arrayFree.2.2.2.2.2 (by omega) false).bind ?_
          rintro rest _ rfl
          exact .ok rfl
  | @value shape inner _ _ value inside stand tail induction =>
      cases shape with
      | square => simp at arrayFree
      | round =>
          simp only [ArrayFree.cons_iff, ArrayFree.append_iff] at arrayFree
          simp only [List.length_cons, List.length_append] at fits
          obtain ⟨slices, -, outlined⟩ := inside.exists_group
          rw [outlined, fill, joinGroup_of_evaluate arrayFree.2.2.1 (outlined _ []) stand,
            remaining_plain (by simp) (by simp), fill]
          refine (induction arrayFree.2.2.2.2.2 (by omega) false).bind ?_
          rintro rest _ rfl
          exact .ok rfl

/-- Condensed sequences have the same value or end in the same fault, which comes from a call or is
not about brackets. -/
theorem agree_evaluate (others : ∀ fault : Fault, fault.isGrouping = false → allowed fault)
    (calls : ∀ name args, FailsOnly allowed (env.call name args))
    (condenses : Condenses (Evaluates env) long short) :
    Agree allowed (fun _ => False) Eq (evaluate env long) (evaluate env short) := by
  induction length : long.length using Nat.strongRecOn generalizing long short with
  | ind length induction =>
      subst length
      have same : SameValues env allowed long.length :=
        fun slice slice' pair => induction slice.length pair.1 pair.2 rfl
      by_cases filled : long = []
      · obtain rfl := condenses.nil_iff.mp filled
        obtain rfl := filled
        exact .error (others _ rfl)
      · rw [evaluate_eq env filled, evaluate_eq env (mt condenses.nil_iff.mpr filled)]
        refine (condenses.agree_buildArrays same (Nat.le_refl _)).bind_of_ok
          fun built built' ok condensed => ?_
        have free := (wellNested_of_buildArrays condenses.wellNested.1 ok).2
        refine (condensed.agree_fill free same (length_buildArrays_le ok) false).bind ?_
        rintro flat _ rfl
        exact Agree.refl (failsOnly_reduce others calls flat)

end Condenses
end Reckoner
