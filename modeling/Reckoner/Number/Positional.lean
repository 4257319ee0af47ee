import Reckoner.Number.Decimal

/-!
# Reading the positional form

The digits written for a whole number are read as that number, and the positional form of a decimal
is read as the same number.
-/

namespace Reckoner
namespace Decimal

open scoped Binary64

/-! ## Digits -/

theorem ofDigits_append (left right : List Char) :
    ofDigits (left ++ right) = ofDigits left * 10 ^ right.length + ofDigits right := by
  have shift : ∀ (digits : List Char) (value : Nat),
      digits.foldl (fun value digit => 10 * value + (digit.toNat - '0'.toNat)) value =
        value * 10 ^ digits.length + ofDigits digits := by
    intro digits
    induction digits with
    | nil => simp [ofDigits]
    | cons digit digits induction =>
        intro value
        rw [ofDigits, List.foldl_cons, List.foldl_cons, induction, induction (10 * 0 + _),
          List.length_cons, Nat.pow_succ]
        grind
  rw [ofDigits, List.foldl_append, shift]
  rfl

theorem ofDigits_replicate_zero (count : Nat) : ofDigits (List.replicate count '0') = 0 := by
  induction count with
  | zero => rfl
  | succ count induction =>
      rw [List.replicate_succ', ofDigits_append, induction]
      rfl

theorem ofDigits_digitChar {n : Nat} (small : n < 10) : ofDigits [Nat.digitChar n] = n := by
  have table : ∀ m < 10, ofDigits [Nat.digitChar m] = m := by decide
  exact table n small

theorem ofDigits_digits (n : Nat) : ofDigits (digits n) = n := by
  induction n using Nat.strongRecOn with
  | ind n induction =>
      by_cases small : n < 10
      · rw [digits, Nat.toDigits_of_lt_base small, ofDigits_digitChar small]
      · have leading : ofDigits (Nat.toDigits 10 (n / 10)) = n / 10 := induction (n / 10) (by omega)
        rw [digits, Nat.toDigits_of_base_le (by decide) (by omega), ofDigits_append, leading,
          ofDigits_digitChar (Nat.mod_lt n (by decide)), List.length_singleton]
        omega

theorem isDigit_of_mem_digits {n : Nat} {c : Char} (member : c ∈ digits n) : c.isDigit = true :=
  Nat.isDigit_of_mem_toDigits (by decide) (by decide) member

theorem ofPlain?_point {whole fraction : List Char}
    (digits : ∀ c ∈ whole ++ fraction, c.isDigit = true) (filled : whole ++ fraction ≠ []) :
    ofPlain? (whole ++ '.' :: fraction) =
      some ⟨ofDigits (whole ++ fraction), -fraction.length⟩ := by
  have before : ∀ c ∈ whole, (c != '.') = true := by
    intro c member
    have digit := digits c (List.mem_append_left _ member)
    simp only [bne_iff_ne]
    rintro rfl
    exact absurd digit (by decide)
  have all : (whole ++ fraction).all Char.isDigit = true := List.all_eq_true.mpr digits
  have nonempty : (whole ++ fraction).isEmpty = false := by simpa using filled
  simp only [ofPlain?, List.takeWhile_append_of_pos before, List.dropWhile_append_of_pos before]
  simp [all, nonempty]

theorem ofPlain?_whole {whole : List Char} (digits : ∀ c ∈ whole, c.isDigit = true)
    (filled : whole ≠ []) : ofPlain? whole = some ⟨ofDigits whole, 0⟩ := by
  have before : ∀ c ∈ whole, (c != '.') = true := by
    intro c member
    have digit := digits c member
    simp only [bne_iff_ne]
    rintro rfl
    exact absurd digit (by decide)
  have taken : whole.takeWhile (· != '.') = whole := by
    simpa using @List.takeWhile_append_of_pos _ _ whole [] before
  have dropped : whole.dropWhile (· != '.') = [] := by
    simpa using @List.dropWhile_append_of_pos _ _ whole [] before
  have all : whole.all Char.isDigit = true := List.all_eq_true.mpr digits
  simp [ofPlain?, taken, dropped, all, filled]

theorem isDigit_of_mem_padded {d : Decimal} (before behind : Nat) {c : Char}
    (member : c ∈ List.replicate before '0' ++
      (digits d.coefficient ++ List.replicate behind '0')) : c.isDigit = true := by
  simp only [List.mem_append, List.mem_replicate] at member
  rcases member with ⟨_, rfl⟩ | digit | ⟨_, rfl⟩
  · rfl
  · exact isDigit_of_mem_digits digit
  · rfl

/-! ## Positional form -/

theorem mem_positional {d : Decimal} {c : Char} (member : c ∈ d.positional) :
    c.isDigit = true ∨ c = '.' := by
  simp only [positional] at member
  split at member
  · exact .inl (isDigit_of_mem_padded 0 d.exponent.toNat member)
  · simp only [List.mem_append, List.mem_cons] at member
    rcases member with whole | point | fraction
    · exact .inl (isDigit_of_mem_padded _ _ (List.mem_of_mem_take whole))
    · exact .inr point
    · exact .inl (isDigit_of_mem_padded _ _ (List.mem_of_mem_drop fraction))

theorem positional_eq_cons (d : Decimal) :
    ∃ c text, d.positional = c :: text ∧ c.isDigit = true := by
  have filled : 0 < (digits d.coefficient).length := Nat.length_toDigits_pos
  simp only [positional]
  split
  · obtain ⟨c, text, written⟩ := List.exists_cons_of_length_pos (l :=
      digits d.coefficient ++ List.replicate d.exponent.toNat '0') (by simp; omega)
    have member : c ∈ digits d.coefficient ++ List.replicate d.exponent.toNat '0' := by
      rw [written]
      exact List.mem_cons_self
    exact ⟨c, text, written, isDigit_of_mem_padded 0 d.exponent.toNat member⟩
  · generalize padded_eq : List.replicate ((-d.exponent).toNat + 1 -
      (digits d.coefficient ++ List.replicate d.exponent.toNat '0').length) '0' ++
        (digits d.coefficient ++ List.replicate d.exponent.toNat '0') = padded
    have long : (-d.exponent).toNat < padded.length := by
      rw [← padded_eq]
      simp
      omega
    obtain ⟨c, whole, whole_eq⟩ := List.exists_cons_of_length_pos
      (l := padded.take (padded.length - (-d.exponent).toNat)) (by simp; omega)
    have member : c ∈ padded.take (padded.length - (-d.exponent).toNat) := by
      rw [whole_eq]
      exact List.mem_cons_self
    have inside := List.mem_of_mem_take member
    rw [← padded_eq] at inside
    exact ⟨c, _, by rw [whole_eq, List.cons_append], isDigit_of_mem_padded _ _ inside⟩

theorem ofPlain?_positional (d : Decimal) :
    ofPlain? d.positional =
      some ⟨d.coefficient * 10 ^ d.exponent.toNat, min d.exponent 0⟩ := by
  have value : ∀ before behind : Nat, ofDigits (List.replicate before '0' ++
      (digits d.coefficient ++ List.replicate behind '0')) = d.coefficient * 10 ^ behind := by
    intro before behind
    simp [ofDigits_append, ofDigits_replicate_zero, ofDigits_digits]
  have filled : digits d.coefficient ≠ [] := Nat.toDigits_ne_nil
  simp only [positional]
  split
  case isTrue whole =>
    have exponent_min : min d.exponent 0 = 0 := by omega
    have digit : ∀ c ∈ digits d.coefficient ++ List.replicate d.exponent.toNat '0',
        c.isDigit = true := fun _ member => isDigit_of_mem_padded 0 d.exponent.toNat member
    have number := value 0 d.exponent.toNat
    rw [List.replicate_zero, List.nil_append] at number
    rw [ofPlain?_whole digit (by simp [filled]), exponent_min, number]
  case isFalse fractional =>
    have exponent_min : min d.exponent 0 = -((-d.exponent).toNat : Int) := by omega
    rw [ofPlain?_point, List.take_append_drop, value, exponent_min]
    · simp only [List.length_drop, List.length_append, List.length_replicate]
      congr 2
      omega
    · rw [List.take_append_drop]
      exact fun _ member => isDigit_of_mem_padded _ _ member
    · rw [List.take_append_drop]
      simp [filled]

theorem ofText?_of_plain {text : List Char} (plain : ∀ c ∈ text, isExponentMark c = false) :
    ofText? text = ofPlain? text := by
  have taken : text.takeWhile (!isExponentMark ·) = text := by
    simpa using @List.takeWhile_append_of_pos _ (!isExponentMark ·) text [] (by simpa using plain)
  have dropped : text.dropWhile (!isExponentMark ·) = [] := by
    simpa using @List.dropWhile_append_of_pos _ (!isExponentMark ·) text [] (by simpa using plain)
  simp only [ofText?, taken, dropped]
  cases ofPlain? text <;> rfl

/-- The positional form is read as the same number, with trailing zeros in the coefficient. -/
theorem ofText?_positional (d : Decimal) :
    ofText? d.positional =
      some ⟨d.coefficient * 10 ^ d.exponent.toNat, min d.exponent 0⟩ := by
  rw [ofText?_of_plain, ofPlain?_positional]
  intro c member
  rcases mem_positional member with digit | rfl
  · by_cases mark : isExponentMark c
    · simp only [isExponentMark, Bool.or_eq_true, beq_iff_eq] at mark
      rcases mark with rfl | rfl <;> exact absurd digit (by decide)
    · simpa using mark
  · decide

/-- Trailing zeros in the coefficient do not change the rounding to a finite magnitude. -/
theorem rank_trailing_zeros {d : Decimal} (finite : d.rank < Binary64.infinity) :
    rank ⟨d.coefficient * 10 ^ d.exponent.toNat, min d.exponent 0⟩ = d.rank := by
  obtain ⟨coefficient, exponent⟩ := d
  by_cases negative : exponent ≤ 0
  · have exponent_min : min exponent 0 = exponent := by omega
    have exponent_toNat : exponent.toNat = 0 := by omega
    simp [exponent_min, exponent_toNat]
  · have exponent_min : min exponent 0 = 0 := by omega
    have negated_toNat : (-exponent).toNat = 0 := by omega
    by_cases huge : 400 < exponent
    · have coefficient_zero : coefficient = 0 := by
        refine Decidable.byContradiction fun nonzero => ?_
        rw [rank, if_pos huge, if_neg nonzero] at finite
        exact Nat.lt_irrefl _ finite
      subst coefficient_zero
      rw [rank, if_neg (by simp only [exponent_min]; omega),
        if_neg (by simp only [exponent_min]; omega), rank, if_pos huge, if_pos rfl]
      simp only [Nat.zero_mul, exponent_min]
      decide
    · rw [rank, if_neg (by simp only [exponent_min]; omega),
        if_neg (by simp only [exponent_min]; omega), rank, if_neg huge,
        if_neg (by simp only; omega)]
      simp only [exponent_min, negated_toNat]
      simp

end Decimal
end Reckoner
