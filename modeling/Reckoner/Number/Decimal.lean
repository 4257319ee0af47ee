import Reckoner.Number.Binary64

/-!
# Decimal numbers

A decimal is a whole coefficient and a power of ten.  It is read from digits with an optional
point and exponent, rounded to the nearest binary64 magnitude, and written positionally.
-/

namespace Reckoner

/-- The number `coefficient * 10 ^ exponent`. -/
structure Decimal where
  /-- The digits, read as a whole number. -/
  coefficient : Nat
  /-- The power of ten that scales the coefficient. -/
  exponent : Int
deriving DecidableEq, Repr

namespace Decimal

open scoped Binary64

/-! ## Digits -/

/-- The whole number written by decimal digits, most significant first. -/
def ofDigits (digits : List Char) : Nat :=
  digits.foldl (fun value digit => 10 * value + (digit.toNat - '0'.toNat)) 0

/-- The decimal digits of a whole number, most significant first. -/
def digits (n : Nat) : List Char := Nat.toDigits 10 n

/-! ## Rounding to binary64 -/

/-- Rank of the nearest binary64 magnitude, ties to even.  Exponents far outside the binary64
range are decided without computing the power. -/
def rank (d : Decimal) : Nat :=
  if 400 < d.exponent then
    if d.coefficient = 0 then 0 else Binary64.infinity
  else if d.exponent < -(400 + d.coefficient.log2) then
    0
  else
    Binary64.nearest (d.coefficient * 10 ^ d.exponent.toNat * Binary64.unitsPerOne)
      (10 ^ (-d.exponent).toNat)

theorem rank_le (d : Decimal) : d.rank ≤ Binary64.infinity := by
  unfold rank
  split
  · split
    · exact Nat.zero_le _
    · exact Nat.le_refl _
  · split
    · exact Nat.zero_le _
    · exact Nat.min_le_left _ _

/-! ## Text -/

/-- Write a decimal without an exponent: trailing zeros up to the units, or a point with at least
one digit before it. -/
def positional (d : Decimal) : List Char :=
  let places := (-d.exponent).toNat
  let written := digits d.coefficient ++ List.replicate d.exponent.toNat '0'
  if places = 0 then written
  else
    let padded := List.replicate (places + 1 - written.length) '0' ++ written
    padded.take (padded.length - places) ++ '.' :: padded.drop (padded.length - places)

/-- Read digits with at most one point among, before or after them; at least one digit is
needed. -/
def ofPlain? (text : List Char) : Option Decimal :=
  let whole := text.takeWhile (· != '.')
  let fraction := (text.dropWhile (· != '.')).drop 1
  if (whole ++ fraction).all Char.isDigit && !(whole ++ fraction).isEmpty then
    some ⟨ofDigits (whole ++ fraction), -fraction.length⟩
  else
    none

/-- Read one digit or more. -/
def ofWhole? (text : List Char) : Option Nat :=
  if text.all Char.isDigit && !text.isEmpty then some (ofDigits text) else none

/-- Read a whole number with an optional sign. -/
def ofSigned? : List Char → Option Int
  | '-' :: text => (ofWhole? text).map fun n => -(n : Int)
  | '+' :: text => (ofWhole? text).map fun n => (n : Int)
  | text => (ofWhole? text).map fun n => (n : Int)

/-- Whether a character announces the exponent of a decimal. -/
def isExponentMark (c : Char) : Bool := c == 'e' || c == 'E'

/-- Read an unsigned decimal with an optional exponent. -/
def ofText? (text : List Char) : Option Decimal := do
  let plain ← ofPlain? (text.takeWhile (!isExponentMark ·))
  match text.dropWhile (!isExponentMark ·) with
  | [] => some plain
  | _ :: exponent =>
      let shift ← ofSigned? exponent
      some { plain with exponent := plain.exponent + shift }

end Decimal
end Reckoner
