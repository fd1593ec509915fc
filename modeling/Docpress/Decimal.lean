import Docpress.Binary64
import Docpress.Text.Numeral

/-!
# Decimals

Numbers written with a power of ten.  `Decimal.read?` reads their text, `Decimal.rank` rounds
them to the nearest binary64 magnitude.
-/

namespace Docpress

/-- The number `digits * 10 ^ exponent`. -/
structure Decimal where
  digits : Nat
  exponent : Int
deriving DecidableEq, Repr, Inhabited

namespace Decimal

/-- The power of ten that a positive decimal stays below. -/
def scale (d : Decimal) : Int :=
  (Text.decimalDigits d.digits).length + d.exponent

/-- The rank of the binary64 magnitude nearest to the decimal.  Decimals beyond the range of
the format are recognised by their scale. -/
def rank (d : Decimal) : Nat :=
  if d.digits = 0 then 0
  else if 310 < d.scale then Binary64.infinityRank
  else if d.scale < -330 then 0
  else if 0 ≤ d.exponent then Binary64.nearestRank (d.digits * Nat.pow 10 d.exponent.toNat) 1
  else Binary64.nearestRank d.digits (Nat.pow 10 (-d.exponent).toNat)

/-- Reads the part behind the exponent mark: digits, with an optional sign in front. -/
def readExponent? : List Char → Option Int
  | '-' :: rest => (Text.readDigits? rest).map fun n => -(n : Int)
  | '+' :: rest => (Text.readDigits? rest).map fun n => (n : Int)
  | text => (Text.readDigits? text).map fun n => (n : Int)

/-- Splits the fraction digits off a text that starts with a decimal point. -/
def splitFraction : List Char → List Char × List Char
  | '.' :: rest => rest.span Char.isDigit
  | text => ([], text)

/-- Reads an unsigned decimal: digits with an optional point among or beside them, then an
optional exponent. -/
def read? (text : List Char) : Option Decimal :=
  let (whole, rest) := text.span Char.isDigit
  let (fraction, rest) := splitFraction rest
  if whole.isEmpty && fraction.isEmpty then none
  else
    let mantissa := Text.ofDigits 10 (whole ++ fraction)
    match rest with
    | [] => some ⟨mantissa, -(fraction.length : Int)⟩
    | mark :: rest =>
      if mark = 'e' ∨ mark = 'E' then
        (readExponent? rest).map fun exponent => ⟨mantissa, exponent - fraction.length⟩
      else none

end Decimal

end Docpress
