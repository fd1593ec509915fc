import Docpress.Decimal

/-!
# The shortest decimal of a binary number

A number is written with the fewest digits that read back as the same number; of several
decimals with that many digits the nearest one is taken.

Every finite magnitude is a natural number of units of 10^-1074, because 2^-1074 equals
5^1074 * 10^-1074.  Cutting the digits of that number off after a fixed count gives the two
neighbours of the magnitude on a decimal grid; the search tries one digit, two digits, and
so on, and ends at the latest with all of them.
-/

namespace Docpress.Binary64

/-- The finite magnitude of a rank, in units of 10^-1074. -/
def decimalMagnitude (rank : Nat) : Nat :=
  magnitude rank * Nat.pow 5 1074

/-- The better of the two neighbours of `whole`, a magnitude in units of 10^-1074, that have
`dropped` digits less, provided it reads back as `rank`.  A tie goes up. -/
def neighbour? (rank whole dropped : Nat) : Option Decimal :=
  let unit := Nat.pow 10 dropped
  let exponent := (dropped : Int) - 1074
  let lower : Decimal := ⟨whole / unit, exponent⟩
  let upper : Decimal := ⟨whole / unit + 1, exponent⟩
  if lower.rank = rank then
    if 2 * (whole % unit) < unit then some lower
    else if upper.rank = rank then some upper
    else some lower
  else if upper.rank = rank then some upper
  else none

/-- The first grid, from `dropped - 1` dropped digits down to none, that holds a decimal which
reads back as `rank`. -/
def shortestBelow (rank whole : Nat) : Nat → Decimal
  | 0 => ⟨whole, -1074⟩
  | dropped + 1 => (neighbour? rank whole dropped).getD (shortestBelow rank whole dropped)

/-- The shortest decimal that reads back as the finite magnitude of the rank. -/
def shortest (rank : Nat) : Decimal :=
  let whole := decimalMagnitude rank
  shortestBelow rank whole (Text.decimalDigits whole).length

/-! ## The written form -/

/-- The digits of a decimal without trailing zeros. -/
def significantDigits (d : Decimal) : List Char :=
  ((Text.decimalDigits d.digits).reverse.dropWhile (· == '0')).reverse

/-- The digits around a decimal point that stands `point` places behind their start, with at
least one digit on either side. -/
def positional (digits : List Char) (point : Int) : List Char :=
  if point ≤ 0 then '0' :: '.' :: List.replicate (-point).toNat '0' ++ digits
  else if digits.length ≤ point.toNat then
    digits ++ List.replicate (point.toNat - digits.length) '0' ++ ['.', '0']
  else digits.take point.toNat ++ '.' :: digits.drop point.toNat

/-- The digits with the point behind the first one, and a power of ten. -/
def scientific (digits : List Char) (point : Int) : List Char :=
  let mantissa := match digits with
    | first :: second :: rest => first :: '.' :: second :: rest
    | _ => digits
  mantissa ++ 'e' :: (Text.signedDecimal (point - 1)).toList

/-- A positive finite magnitude.  Numbers from 10^-4 up to and excluding 10^16 are written
with a decimal point in place, all others with an exponent. -/
def magnitudeText (rank : Nat) : List Char :=
  let d := shortest rank
  let digits := significantDigits d
  if -3 ≤ d.scale ∧ d.scale ≤ 16 then positional digits d.scale else scientific digits d.scale

/-- The written form of a number. -/
def text (x : Binary64) : String :=
  if x.isNaN then "NaN"
  else
    let body :=
      if x.rank = infinityRank then "inf".toList
      else if x.rank = 0 then "0.0".toList
      else magnitudeText x.rank
    String.ofList (if x.isNegative then '-' :: body else body)

end Docpress.Binary64
