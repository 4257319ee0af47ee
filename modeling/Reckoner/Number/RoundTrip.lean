import Reckoner.Number.Bits
import Reckoner.Number.Numeral
import Reckoner.Number.Positional

/-!
# Numerals read back

Every float, infinite or not a number included, is read back from the text that is written for it.
-/

namespace Reckoner
namespace Numeral

open Binary64

theorem toLower_of_isDigit {c : Char} (digit : c.isDigit = true) : c.toLower = c := by
  simp only [Char.isDigit, Bool.and_eq_true, decide_eq_true_eq, ge_iff_le] at digit
  unfold Char.toLower
  rw [dif_neg]
  rintro ⟨low, _⟩
  have upper := digit.2
  simp only [UInt32.le_iff_toNat_le] at low upper
  exact absurd (Nat.le_trans low upper) (by decide)

theorem readMagnitude?_positional {rank : Nat} (finite : rank < infinity) (negative : Bool) :
    readMagnitude? negative (Decimal.shortest rank).positional = some (ofRank negative rank) := by
  have shortest_finite : (Decimal.shortest rank).rank < infinity := by
    rwa [Decimal.rank_shortest finite]
  obtain ⟨c, text, positional_eq, digit⟩ := Decimal.positional_eq_cons (Decimal.shortest rank)
  have value := Decimal.ofText?_positional (Decimal.shortest rank)
  have n : c ≠ 'n' := by
    rintro rfl
    exact absurd digit (by decide)
  have i : c ≠ 'i' := by
    rintro rfl
    exact absurd digit (by decide)
  rw [positional_eq] at value
  rw [positional_eq, readMagnitude?]
  simp [toLower_of_isDigit digit, n, i, value, Decimal.rank_trailing_zeros shortest_finite,
    Decimal.rank_shortest finite]

theorem read?_unsigned {text : List Char} (minus : text.head? ≠ some '-')
    (plus : text.head? ≠ some '+') : read? text = readMagnitude? false text := by
  unfold read?
  split <;> simp_all

theorem isNegative_of_readMagnitude? {text : List Char} {x : Float}
    (read : readMagnitude? false text = some x) : isNegative x = false := by
  simp only [readMagnitude?] at read
  split_ifs at read
  · cases read
    decide
  · cases read
    decide
  · obtain ⟨decimal, -, rfl⟩ := Option.map_eq_some_iff.mp read
    rcases Nat.lt_or_eq_of_le decimal.rank_le with below | infinite
    · exact isNegative_ofRank below
    · rw [infinite]
      decide

/-- Every float is read back from what is written for it. -/
theorem read?_write (x : Float) : read? (write x) = some x := by
  unfold write writeWith
  split
  case isTrue undefined =>
    rw [eq_nan_of_isNaN undefined]
    decide
  case isFalse number =>
    have magnitude : ∀ negative, readMagnitude? negative
        (if x.isInf then ['i', 'n', 'f'] else (Decimal.shortest (rank x)).positional) =
          some (ofRank negative (rank x)) := by
      intro negative
      split
      case isTrue infinite =>
        rw [(isInf_iff x).mp infinite]
        cases negative <;> decide
      case isFalse finite =>
        have notNaN := mt (isNaN_iff x).mpr number
        have notInf := mt (isInf_iff x).mpr finite
        exact readMagnitude?_positional (by omega) negative
    cases sign : isNegative x
    · have first : ∀ mark, mark ≠ 'i' → mark.isDigit = false →
          (if x.isInf then ['i', 'n', 'f'] else (Decimal.shortest (rank x)).positional).head? ≠
            some mark := by
        intro mark notName notDigit
        split
        · simpa using Ne.symm notName
        · obtain ⟨c, text, positional_eq, digit⟩ :=
            Decimal.positional_eq_cons (Decimal.shortest (rank x))
          rw [positional_eq]
          rintro same
          simp only [List.head?_cons, Option.some.injEq] at same
          rw [same, notDigit] at digit
          exact absurd digit (by decide)
      simp only [Bool.false_eq_true, ↓reduceIte, List.nil_append]
      rw [read?_unsigned (first '-' (by decide) (by decide)) (first '+' (by decide) (by decide)),
        magnitude false, ← sign, ofRank_rank]
    · simp only [↓reduceIte, List.singleton_append, read?]
      rw [magnitude true, ← sign, ofRank_rank]

end Numeral
end Reckoner
