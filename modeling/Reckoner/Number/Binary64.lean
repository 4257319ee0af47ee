/-!
# Binary64 magnitudes by rank

The magnitudes of binary64 are numbered in increasing order: rank zero is zero, the finite ones
follow, and infinity comes last.  Every finite magnitude is a whole number of least units, so that
rounding and remainders are arithmetic on natural numbers.  A float is a sign and a rank, or not a
number.
-/

namespace Reckoner
namespace Binary64

-- A power of natural numbers is the kernel's own in this library, whichever others are in scope.
attribute [scoped instance (high)] instPowNat

/-- Rank of the infinite magnitude. -/
def infinity : Nat := 2047 * 2 ^ (52 : Nat)

/-- The number of binary places of the least unit. -/
def places : Nat := 1074

/-- How many least units make one. -/
def unitsPerOne : Nat := 2 ^ places

/-- The finite magnitude of the given rank, counted in least units. -/
def units (rank : Nat) : Nat :=
  let exponent := rank / 2 ^ (52 : Nat)
  let fraction := rank % 2 ^ (52 : Nat)
  if exponent = 0 then fraction else (2 ^ (52 : Nat) + fraction) * 2 ^ (exponent - 1)

/-- A quotient rounded to the nearest whole number, a half going to the even neighbour. -/
def divideToEven (numerator denominator : Nat) : Nat :=
  let quotient := numerator / denominator
  let twice := 2 * (numerator % denominator)
  if twice < denominator then quotient
  else if denominator < twice then quotient + 1
  else quotient + quotient % 2

/-- Rank of the magnitude nearest to `numerator / denominator` least units, a half going to the
even rank and everything beyond the finite range to infinity. -/
def nearest (numerator denominator : Nat) : Nat :=
  let shift := Nat.log2 (numerator / denominator) - 52
  min infinity (shift * 2 ^ (52 : Nat) + divideToEven numerator (denominator * 2 ^ shift))

theorem units_pos {rank : Nat} (positive : 0 < rank) : 0 < units rank := by
  have recompose : 2 ^ (52 : Nat) * (rank / 2 ^ (52 : Nat)) + rank % 2 ^ (52 : Nat) = rank :=
    Nat.div_add_mod ..
  simp only [units]
  split
  · omega
  · exact Nat.mul_pos (by omega) (Nat.two_pow_pos _)

theorem divideToEven_mul (quotient : Nat) {denominator : Nat} (positive : 0 < denominator) :
    divideToEven (quotient * denominator) denominator = quotient := by
  simp [divideToEven, Nat.mul_div_cancel _ positive, positive]

/-- A magnitude is its own rounding, in whatever terms its quotient is written. -/
theorem nearest_units {rank scale : Nat} (finite : rank < infinity) (positive : 0 < scale) :
    nearest (units rank * scale) scale = rank := by
  have recompose : 2 ^ (52 : Nat) * (rank / 2 ^ (52 : Nat)) + rank % 2 ^ (52 : Nat) = rank :=
    Nat.div_add_mod ..
  have fraction_lt : rank % 2 ^ (52 : Nat) < 2 ^ (52 : Nat) := Nat.mod_lt _ (by decide)
  simp only [nearest, units, Nat.mul_div_cancel _ positive]
  split
  case isTrue subnormal =>
    have shift_eq : Nat.log2 (rank % 2 ^ (52 : Nat)) - 52 = 0 := by
      by_cases zero : rank % 2 ^ (52 : Nat) = 0
      · rw [zero]
        decide
      · have := (Nat.log2_lt zero).mpr fraction_lt
        omega
    rw [shift_eq, Nat.pow_zero, Nat.mul_one, divideToEven_mul _ positive]
    omega
  case isFalse normal =>
    obtain ⟨exponent, exponent_eq⟩ := Nat.exists_eq_succ_of_ne_zero normal
    have power_pos : 0 < 2 ^ exponent := Nat.two_pow_pos exponent
    have log2_eq :
        Nat.log2 ((2 ^ (52 : Nat) + rank % 2 ^ (52 : Nat)) * 2 ^ exponent) = 52 + exponent := by
      rw [Nat.log2_eq_iff (Nat.mul_ne_zero (by omega) (by omega))]
      constructor
      · rw [Nat.pow_add]
        exact Nat.mul_le_mul_right _ (by omega)
      · rw [show 52 + exponent + 1 = 53 + exponent by omega, Nat.pow_add]
        exact Nat.mul_lt_mul_of_pos_right (by omega) power_pos
    have scaled : (2 ^ (52 : Nat) + rank % 2 ^ (52 : Nat)) * 2 ^ exponent * scale =
        (2 ^ (52 : Nat) + rank % 2 ^ (52 : Nat)) * (scale * 2 ^ exponent) := by
      rw [Nat.mul_assoc, Nat.mul_comm scale]
    rw [exponent_eq, Nat.succ_sub_one, log2_eq, Nat.add_sub_cancel_left, scaled,
      divideToEven_mul _ (Nat.mul_pos positive power_pos)]
    omega

/-- The float with the given sign and rank. -/
def ofRank (negative : Bool) (rank : Nat) : Float :=
  Float.ofBits (UInt64.ofNat (if negative then 2 ^ (63 : Nat) + rank else rank))

/-- The one value that is not a number. -/
def nan : Float := Float.ofBits 0x7FF8000000000000

/-- Rank of the magnitude of a float that is a number. -/
def rank (x : Float) : Nat := x.toBits.toNat % 2 ^ (63 : Nat)

/-- The sign bit of a float. -/
def isNegative (x : Float) : Bool := 2 ^ (63 : Nat) ≤ x.toBits.toNat

/-- Whether a float is a whole number. -/
def isWhole (x : Float) : Bool := x.isFinite && units (rank x) % unitsPerOne == 0

/-- The whole part of the magnitude of a finite float. -/
def wholePart (x : Float) : Nat := units (rank x) / unitsPerOne

/-- What is left of `a` after taking away whole multiples of `b`, with the sign of `a`.  It is
exact, because the remainder of two whole numbers of units is again one and smaller than both. -/
def remainder (a b : Float) : Float :=
  if !a.isFinite || b.isNaN || rank b = 0 then nan
  else if b.isInf then a
  else ofRank (isNegative a) (nearest (units (rank a) % units (rank b)) 1)

/-- The remainder with the sign of the divisor: `-7` modulo `3` is `2`. -/
def modulo (a b : Float) : Float :=
  let r := remainder a b
  if r != 0 && decide (r < 0) != decide (b < 0) then r + b else r

end Binary64
end Reckoner
