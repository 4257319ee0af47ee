import Mathlib
import Reckoner.Number.Binary64

/-!
# Bits of floats

A float is determined by its bits, hence by its sign and rank, and the rank tells whether it is
finite, infinite or not a number.  Negation changes the sign of a finite one and keeps its rank.
-/

namespace Reckoner
namespace Binary64

open Float.Model Float.Model.UnpackedFloat

/-! ## Packing -/

theorem packComponents_self {word : BitVec Format.binary64.numBits}
    {exponent : BitVec Format.binary64.exponentBits}
    {fraction : BitVec Format.binary64.mantissaBitsWithoutImplicit}
    (exponent_eq : unpackExponent word = exponent) (fraction_eq : unpackMantissa word = fraction) :
    packComponents .binary64 (Sign.ofBitVec (unpackSign word)) exponent fraction = word := by
  subst exponent_eq fraction_eq
  have sign_self : ∀ sign : BitVec 1, (Sign.ofBitVec sign).toBitVec = sign := by decide
  simp only [packComponents, sign_self, unpackSign, unpackExponent, unpackMantissa,
    BitVec.extractLsb]
  ext i bound
  grind

theorem toNat_implicit_append (fraction : BitVec Format.binary64.mantissaBitsWithoutImplicit) :
    (1#1 ++ fraction).toNat = 2 ^ 52 + fraction.toNat := by
  rw [BitVec.toNat_append, ← Nat.shiftLeft_add_eq_or_of_lt fraction.isLt]
  simp [Nat.shiftLeft_eq]

theorem pack_finite {sign : Sign} {significand : Nat} {exponent : Int} (stored : Nat)
    (positive : 0 < significand)
    (biased : (exponent + Format.binary64.exponentBias +
      Format.binary64.mantissaBitsWithoutImplicit).toNat = stored)
    (small : stored < 2047) :
    UnpackedFloat.pack .binary64 (.finite sign significand exponent positive) =
      if 2 ^ 52 ≤ significand ∧ significand < 2 ^ 53 then
        packComponents .binary64 sign (BitVec.ofNat _ stored) (BitVec.ofNat _ significand)
      else packComponents .binary64 sign 0#_ (BitVec.ofNat _ significand) := by
  have nonzero : significand ≠ 0 := by omega
  have range : significand.log2 + 1 = Format.binary64.mantissaBits ↔
      2 ^ 52 ≤ significand ∧ significand < 2 ^ 53 := by
    rw [← Nat.log2_eq_iff nonzero]
    simp only [Format.mantissaBits]
    omega
  have bounded : ¬ 2 ^ Format.binary64.exponentBits ≤ stored + 1 := by
    simp only
    omega
  simp only [UnpackedFloat.pack, biased, if_neg bounded, range]

theorem pack_unpack {word : BitVec Format.binary64.numBits} (valid : Format.binary64.Valid word) :
    UnpackedFloat.pack .binary64 (UnpackedFloat.unpack .binary64 word) = word := by
  have fraction_lt : (unpackMantissa word).toNat < 2 ^ 52 := (unpackMantissa word).isLt
  have exponent_lt : (unpackExponent word).toNat < 2 ^ 11 := (unpackExponent word).isLt
  have bias : ((Format.binary64.exponentBias : Nat) : Int) = 1023 := rfl
  simp only [UnpackedFloat.unpack]
  split
  case isTrue full =>
    split
    case isTrue zero => exact packComponents_self full zero
    case isFalse nonzero => exact (valid.eq_packedNaN full nonzero).symm
  case isFalse notFull =>
    have stored_lt : (unpackExponent word).toNat < 2047 := by
      have : (unpackExponent word).toNat ≠ 2047 := fun same => notFull (BitVec.toNat_inj.mp same)
      omega
    split
    case isTrue zeroExponent =>
      have exponent_zero : (unpackExponent word).toNat = 0 := by
        rw [zeroExponent]
        rfl
      split
      case isTrue zero => exact packComponents_self zeroExponent zero
      case isFalse nonzero =>
        rw [pack_finite 1 _ (by rw [exponent_zero, bias]; rfl) (by decide),
          if_neg (by omega)]
        exact packComponents_self zeroExponent (by simp)
    case isFalse positiveExponent =>
      rw [pack_finite (unpackExponent word).toNat _ (by simp only [bias]; omega) stored_lt,
        if_pos (by rw [toNat_implicit_append]; omega)]
      refine packComponents_self (by simp) ?_
      apply BitVec.eq_of_toNat_eq
      rw [BitVec.toNat_ofNat, toNat_implicit_append]
      show _ = _ % 2 ^ 52
      omega

/-- A float is what its bits say. -/
theorem pack_unpack_toModel (x : Float) : Float.Model.pack x.toModel.unpack = x.toModel := by
  obtain ⟨⟨bits, valid⟩⟩ := x
  have same := pack_unpack valid
  simp only [Float.Model.pack, Float.Model.unpack, same]

theorem ofBits_toBits (x : Float) : Float.ofBits x.toBits = x :=
  congrArg Float.ofModel (pack_unpack_toModel x)

/-- A float is determined by its sign and rank. -/
theorem ofRank_rank (x : Float) : ofRank (isNegative x) (rank x) = x := by
  have bound : x.toBits.toNat < 2 ^ 64 := x.toBits.toNat_lt
  have word : (if isNegative x then 2 ^ 63 + rank x else rank x) = x.toBits.toNat := by
    simp only [isNegative, rank, decide_eq_true_eq]
    split <;> omega
  rw [ofRank, word, UInt64.ofNat_toNat, ofBits_toBits]

/-! ## Kinds of floats -/

theorem toNat_unpackExponent (word : BitVec Format.binary64.numBits) :
    (unpackExponent word).toNat = word.toNat % 2 ^ 63 / 2 ^ 52 := by
  simp only [unpackExponent, BitVec.toNat_cast, BitVec.extractLsb_toNat,
    Nat.shiftRight_eq_div_pow]
  show word.toNat / 2 ^ 52 % 2 ^ 11 = _
  omega

theorem toNat_unpackMantissa (word : BitVec Format.binary64.numBits) :
    (unpackMantissa word).toNat = word.toNat % 2 ^ 63 % 2 ^ 52 := by
  simp only [unpackMantissa, BitVec.toNat_cast, BitVec.extractLsb_toNat, Nat.shiftRight_zero]
  show word.toNat % 2 ^ 52 = _
  omega

/-- The bits behind the sign tell apart what is not a number, infinity and the finite numbers. -/
theorem unpack_cases (word : BitVec Format.binary64.numBits) :
    (infinity < word.toNat % 2 ^ 63 ∧ UnpackedFloat.unpack .binary64 word = .notANumber) ∨
      (word.toNat % 2 ^ 63 = infinity ∧
        ∃ sign, UnpackedFloat.unpack .binary64 word = .infinity sign) ∨
      (word.toNat % 2 ^ 63 < infinity ∧
        (UnpackedFloat.unpack .binary64 word).isFinite = true) := by
  have exponent := toNat_unpackExponent word
  have fraction := toNat_unpackMantissa word
  have infinity_eq : infinity = 2047 * 2 ^ 52 := rfl
  simp only [UnpackedFloat.unpack]
  split
  case isTrue full =>
    have exponent_full : (unpackExponent word).toNat = 2047 := by
      rw [full]
      rfl
    split
    case isTrue zero =>
      have fraction_zero : (unpackMantissa word).toNat = 0 := by
        rw [zero]
        rfl
      exact .inr (.inl ⟨by omega, _, rfl⟩)
    case isFalse nonzero =>
      have fraction_ne : (unpackMantissa word).toNat ≠ 0 :=
        fun same => nonzero (BitVec.toNat_inj.mp same)
      exact .inl ⟨by omega, rfl⟩
  case isFalse notFull =>
    have exponent_ne : (unpackExponent word).toNat ≠ 2047 :=
      fun same => notFull (BitVec.toNat_inj.mp same)
    refine .inr (.inr ⟨by omega, ?_⟩)
    split
    · split <;> rfl
    · rfl

theorem kinds (x : Float) :
    (infinity < rank x ∧ x.toModel.unpack = .notANumber) ∨
      (rank x = infinity ∧ ∃ sign, x.toModel.unpack = .infinity sign) ∨
      (rank x < infinity ∧ x.toModel.unpack.isFinite = true) :=
  unpack_cases x.toModel.toBits.toBitVec

theorem isNaN_iff (x : Float) : x.isNaN = true ↔ infinity < rank x := by
  show x.toModel.unpack.isNaN = true ↔ infinity < rank x
  rcases kinds x with ⟨above, kind⟩ | ⟨equal, sign, kind⟩ | ⟨below, kind⟩
  · simp [kind, above, UnpackedFloat.isNaN]
  · simp [kind, equal, UnpackedFloat.isNaN]
  · have other : x.toModel.unpack.isNaN = false := by
      revert kind
      cases x.toModel.unpack <;> simp [UnpackedFloat.isFinite, UnpackedFloat.isNaN]
    simp only [other, Bool.false_eq_true, false_iff]
    omega

theorem isInf_iff (x : Float) : x.isInf = true ↔ rank x = infinity := by
  show x.toModel.unpack.isInf = true ↔ rank x = infinity
  rcases kinds x with ⟨above, kind⟩ | ⟨equal, sign, kind⟩ | ⟨below, kind⟩
  · simp only [kind, UnpackedFloat.isInf, Bool.false_eq_true, false_iff]
    omega
  · simp [kind, equal, UnpackedFloat.isInf]
  · have other : x.toModel.unpack.isInf = false := by
      revert kind
      cases x.toModel.unpack <;> simp [UnpackedFloat.isFinite, UnpackedFloat.isInf]
    simp only [other, Bool.false_eq_true, false_iff]
    omega

theorem isFinite_iff (x : Float) : x.isFinite = true ↔ rank x < infinity := by
  show x.toModel.unpack.isFinite = true ↔ rank x < infinity
  rcases kinds x with ⟨above, kind⟩ | ⟨equal, sign, kind⟩ | ⟨below, kind⟩
  · simp only [kind, UnpackedFloat.isFinite, Bool.false_eq_true, false_iff]
    omega
  · simp [kind, equal, UnpackedFloat.isFinite]
  · simp [kind, below]

theorem eq_nan_of_isNaN {x : Float} (undefined : x.isNaN = true) : x = nan := by
  have above := (isNaN_iff x).mp undefined
  have kind : x.toModel.unpack = .notANumber := by
    rcases kinds x with ⟨_, kind⟩ | ⟨equal, _⟩ | ⟨below, _⟩
    · exact kind
    · omega
    · omega
  have model := pack_unpack_toModel x
  rw [kind] at model
  exact congrArg Float.ofModel model.symm

/-! ## Signs -/

theorem toNat_unpackSign (word : BitVec Format.binary64.numBits) :
    (unpackSign word).toNat = word.toNat / 2 ^ 63 := by
  simp only [unpackSign, BitVec.toNat_cast, BitVec.extractLsb_toNat, Nat.shiftRight_eq_div_pow]
  have bound : word.toNat < 2 ^ 64 := word.isLt
  show word.toNat / 2 ^ 63 % 2 ^ 1 = _
  omega

/-- Two words that differ in their sign only are unpacked to opposite floats. -/
theorem unpack_neg {positive negative : BitVec Format.binary64.numBits}
    (sign : unpackSign positive = 0#1) (opposite : unpackSign negative = 1#1)
    (same : positive.toNat % 2 ^ 63 = negative.toNat % 2 ^ 63) :
    (UnpackedFloat.unpack .binary64 positive).neg = UnpackedFloat.unpack .binary64 negative := by
  have exponent : unpackExponent negative = unpackExponent positive :=
    BitVec.eq_of_toNat_eq (by rw [toNat_unpackExponent, toNat_unpackExponent, same])
  have fraction : unpackMantissa negative = unpackMantissa positive :=
    BitVec.eq_of_toNat_eq (by rw [toNat_unpackMantissa, toNat_unpackMantissa, same])
  simp only [UnpackedFloat.unpack, sign, opposite, exponent, fraction]
  split
  · split <;> rfl
  · split
    · split <;> rfl
    · rfl

/-- A finite rank is a word of its own. -/
theorem valid_ofNat {rank : Nat} (finite : rank < infinity) :
    Format.binary64.Valid (BitVec.ofNat 64 rank) := by
  have bound : rank < 2 ^ 63 := Nat.lt_trans finite (by decide)
  have word : (BitVec.ofNat 64 rank).toNat = rank := Nat.mod_eq_of_lt (by omega)
  refine ⟨fun full => ?_⟩
  have exponent := toNat_unpackExponent (BitVec.ofNat 64 rank)
  rw [full, word] at exponent
  have : rank % 2 ^ 63 / 2 ^ 52 = 2047 := exponent.symm
  have infinity_eq : infinity = 2047 * 2 ^ 52 := rfl
  omega

theorem isNegative_ofRank {rank : Nat} (finite : rank < infinity) :
    isNegative (ofRank false rank) = false := by
  have bound : rank < 2 ^ 63 := Nat.lt_trans finite (by decide)
  have bits : (ofRank false rank).toBits.toBitVec = BitVec.ofNat 64 rank :=
    pack_unpack (valid_ofNat finite)
  have word : (ofRank false rank).toBits.toNat = rank := by
    rw [← UInt64.toNat_toBitVec, bits]
    exact Nat.mod_eq_of_lt (by omega)
  rw [isNegative, word]
  simpa using bound

/-- The negated magnitude of a finite rank has the sign and the same rank. -/
theorem neg_ofRank {rank : Nat} (finite : rank < infinity) :
    -(ofRank false rank) = ofRank true rank := by
  have bound : rank < 2 ^ 63 := Nat.lt_trans finite (by decide)
  let positive : BitVec Format.binary64.numBits := BitVec.ofNat 64 rank
  let negative : BitVec Format.binary64.numBits := BitVec.ofNat 64 (2 ^ 63 + rank)
  have positive_eq : positive.toNat = rank := Nat.mod_eq_of_lt (by omega)
  have negative_eq : negative.toNat = 2 ^ 63 + rank := Nat.mod_eq_of_lt (by omega)
  have opposite : (UnpackedFloat.unpack .binary64 positive).neg =
      UnpackedFloat.unpack .binary64 negative := by
    refine unpack_neg ?_ ?_ ?_
    · refine BitVec.eq_of_toNat_eq ?_
      rw [toNat_unpackSign, positive_eq]
      show _ = 0
      omega
    · refine BitVec.eq_of_toNat_eq ?_
      rw [toNat_unpackSign, negative_eq]
      show _ = 1
      omega
    · omega
  calc
    -(ofRank false rank) = Float.ofModel (Float.Model.pack
        (UnpackedFloat.unpack .binary64
          (UnpackedFloat.pack .binary64 (UnpackedFloat.unpack .binary64 positive))).neg) := rfl
    _ = Float.ofModel (Float.Model.pack (UnpackedFloat.unpack .binary64 negative)) := by
      rw [pack_unpack (valid_ofNat finite), opposite]
    _ = ofRank true rank := rfl

end Binary64
end Reckoner
