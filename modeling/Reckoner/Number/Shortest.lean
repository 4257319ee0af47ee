import Reckoner.Number.Decimal

/-!
# Decimals for binary64 magnitudes

A finite magnitude has a shortest decimal, the one with the fewest digits that rounds to it.  It
always rounds back.
-/

namespace Reckoner
namespace Decimal

open scoped Binary64

/-- The finite magnitude of a rank in units of `10 ^ exponent`, as numerator and denominator. -/
def ratio (rank : Nat) (exponent : Int) : Nat × Nat :=
  (Binary64.units rank * 10 ^ (-exponent).toNat, Binary64.unitsPerOne * 10 ^ exponent.toNat)

/-- The power of ten of the leading digit of a positive finite magnitude. -/
def leadingExponent (rank : Nat) : Int :=
  let units := Binary64.units rank
  if Binary64.unitsPerOne ≤ units then
    (digits (units / Binary64.unitsPerOne)).length - 1
  else
    -(digits ((Binary64.unitsPerOne - 1) / units)).length

/-- A multiple of `10 ^ exponent` that rounds to the given rank: of the two multiples around the
magnitude the nearer one that does, and the larger one of two equally near. -/
def roundingTo? (rank : Nat) (exponent : Int) : Option Decimal :=
  let (numerator, denominator) := ratio rank exponent
  let below : Decimal := ⟨numerator / denominator, exponent⟩
  let above : Decimal := ⟨numerator / denominator + 1, exponent⟩
  if below.rank = rank then
    if above.rank = rank ∧ denominator ≤ 2 * (numerator % denominator) then some above
    else some below
  else if above.rank = rank then some above
  else none

/-- A finite magnitude with all its digits. -/
def exact (rank : Nat) : Decimal :=
  ⟨Binary64.units rank * 5 ^ Binary64.places, -Binary64.places⟩

/-- Search ever finer powers of ten for a multiple that rounds to the given rank, and fall back to
all digits. -/
def search (rank : Nat) : Nat → Int → Decimal
  | 0, _ => exact rank
  | steps + 1, exponent =>
      match roundingTo? rank exponent with
      | some decimal => decimal
      | none => search rank steps (exponent - 1)

/-- The decimal with the fewest digits that rounds to the finite magnitude of the given rank.  The
search starts one place above the leading digit and seventeen digits always suffice. -/
def shortest (rank : Nat) : Decimal :=
  if rank = 0 then ⟨0, 0⟩ else search rank 18 (leadingExponent rank + 1)

theorem rank_exact {rank : Nat} (finite : rank < Binary64.infinity) (positive : 0 < rank) :
    (exact rank).rank = rank := by
  have units_pos := Binary64.units_pos positive
  have wide : 2 * Binary64.places ≤ (Binary64.units rank * 5 ^ Binary64.places).log2 := by
    rw [Nat.le_log2 (Nat.mul_ne_zero (by omega) (Nat.ne_of_gt (Nat.pow_pos (by decide)))),
      Nat.pow_mul]
    exact Nat.le_trans (Nat.pow_le_pow_left (by decide) _) (Nat.le_mul_of_pos_left _ units_pos)
  have whole : Binary64.units rank * 5 ^ Binary64.places * 10 ^ (0 : Nat) * Binary64.unitsPerOne =
      Binary64.units rank * 10 ^ Binary64.places := by
    rw [Nat.pow_zero, Nat.mul_one, Binary64.unitsPerOne, Nat.mul_assoc, ← Nat.mul_pow]
  have exponent_toNat : (-(Binary64.places : Int)).toNat = 0 := by omega
  have negated_toNat : (- -(Binary64.places : Int)).toNat = Binary64.places := by omega
  have exponent_eq : (exact rank).exponent = -(Binary64.places : Int) := rfl
  have coefficient_eq : (exact rank).coefficient =
      Binary64.units rank * 5 ^ Binary64.places := rfl
  rw [Decimal.rank, if_neg (by omega), if_neg (by rw [coefficient_eq]; omega), exponent_eq,
    coefficient_eq, exponent_toNat, negated_toNat, whole,
    Binary64.nearest_units finite (Nat.pow_pos (by decide))]

theorem rank_of_roundingTo? {rank : Nat} {exponent : Int} {decimal : Decimal}
    (found : roundingTo? rank exponent = some decimal) : decimal.rank = rank := by
  simp only [roundingTo?] at found
  split at found <;> split at found <;> simp_all

theorem rank_search {rank : Nat} (finite : rank < Binary64.infinity) (positive : 0 < rank)
    (steps : Nat) (exponent : Int) : (search rank steps exponent).rank = rank := by
  induction steps generalizing exponent with
  | zero => exact rank_exact finite positive
  | succ steps induction =>
      unfold search
      split
      case h_1 found => exact rank_of_roundingTo? found
      case h_2 => exact induction _

/-- The shortest decimal rounds to the magnitude it was chosen for. -/
theorem rank_shortest {rank : Nat} (finite : rank < Binary64.infinity) :
    (shortest rank).rank = rank := by
  unfold shortest
  split
  case isTrue zero =>
    subst zero
    decide +kernel
  case isFalse nonzero => exact rank_search finite (Nat.pos_of_ne_zero nonzero) _ _

end Decimal
end Reckoner
