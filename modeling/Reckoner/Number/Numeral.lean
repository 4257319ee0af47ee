import Reckoner.Number.Shortest

/-!
# Numerals

The text of a float.  Reading accepts decimals with an optional sign, point and exponent, and the
names of infinity and of not a number in any case.  Writing uses the fewest digits that read back,
never an exponent.
-/

namespace Reckoner
namespace Numeral

/-! ## Reading -/

/-- Read an unsigned numeral as the float with the given sign. -/
def readMagnitude? (negative : Bool) (text : List Char) : Option Float :=
  let name := text.map Char.toLower
  if name = ['n', 'a', 'n'] then some Binary64.nan
  else if name = ['i', 'n', 'f'] ∨ name = ['i', 'n', 'f', 'i', 'n', 'i', 't', 'y'] then
    some (Binary64.ofRank negative Binary64.infinity)
  else (Decimal.ofText? text).map fun decimal => Binary64.ofRank negative decimal.rank

/-- Read a numeral with an optional sign. -/
def read? : List Char → Option Float
  | '-' :: text => readMagnitude? true text
  | '+' :: text => readMagnitude? false text
  | text => readMagnitude? false text

/-! ## Writing -/

/-- Write a float with `magnitude` in charge of the finite ranks. -/
def writeWith (magnitude : Nat → List Char) (x : Float) : List Char :=
  if x.isNaN then ['N', 'a', 'N']
  else
    (if Binary64.isNegative x then ['-'] else []) ++
      if x.isInf then ['i', 'n', 'f'] else magnitude (Binary64.rank x)

/-- Write a float with the fewest digits that read back, without an exponent. -/
def write (x : Float) : List Char :=
  writeWith (fun rank => (Decimal.shortest rank).positional) x

end Numeral

/-! ## Scientific form -/

namespace Decimal

open scoped Binary64

/-- A positive finite magnitude rounded to a number of significant digits, ties to even. -/
def significant (count rank : Nat) : Decimal :=
  let exponent := leadingExponent rank + 1 - count
  let (numerator, denominator) := ratio rank exponent
  let coefficient := Binary64.divideToEven numerator denominator
  if coefficient = 10 ^ count then ⟨coefficient / 10, exponent + 1⟩ else ⟨coefficient, exponent⟩

/-- Write a whole number with its sign, as an exponent. -/
def signed (n : Int) : List Char :=
  if n < 0 then '-' :: digits n.natAbs else digits n.natAbs

/-- Write a decimal with one digit before the point and the exponent behind an `e`. -/
def scientific (d : Decimal) : List Char :=
  let written := digits d.coefficient
  let exponent := d.exponent + (written.length - 1 : Nat)
  let fraction := if written.length = 1 then [] else '.' :: written.drop 1
  written.take 1 ++ fraction ++ 'e' :: signed exponent

end Decimal

/-- Write a float with the given number of significant digits and an exponent.  The program itself
never does so: this form serves to compare results whose last digits depend on the machine. -/
def Numeral.writeScientific (count : Nat) (x : Float) : List Char :=
  writeWith
    (fun rank =>
      if rank = 0 then
        ['0'] ++ (if count ≤ 1 then [] else '.' :: List.replicate (count - 1) '0') ++ ['e', '0']
      else (Decimal.significant count rank).scientific)
    x

end Reckoner
