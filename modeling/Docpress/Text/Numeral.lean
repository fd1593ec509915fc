/-!
# Numerals

Digits of base ten and base sixteen: writing natural numbers, padding them, and reading
integers that have to fit a range.  Only ASCII digits count as digits.
-/

namespace Docpress.Text

/-! ## Writing -/

/-- The decimal digits of `n`, without leading zeros. -/
def decimalDigits (n : Nat) : List Char :=
  Nat.toDigits 10 n

/-- The lower case hexadecimal digits of `n`, without leading zeros. -/
def hexDigits (n : Nat) : List Char :=
  Nat.toDigits 16 n

/-- The digits behind as many zeros as it takes to reach the width. -/
def padZeros (width : Nat) (digits : List Char) : List Char :=
  List.replicate (width - digits.length) '0' ++ digits

/-- `n` in decimal. -/
def decimal (n : Nat) : String :=
  String.ofList (decimalDigits n)

/-- `n` in decimal, with at least `width` digits. -/
def paddedDecimal (width n : Nat) : String :=
  String.ofList (padZeros width (decimalDigits n))

/-- `n` in hexadecimal, with at least `width` digits. -/
def paddedHex (width n : Nat) : String :=
  String.ofList (padZeros width (hexDigits n))

/-- An integer in decimal, with a minus sign if it is negative. -/
def signedDecimal (n : Int) : String :=
  if n < 0 then "-" ++ decimal n.natAbs else decimal n.natAbs

/-! ## Reading -/

/-- Whether the character is a hexadecimal digit, in either case. -/
def isHexDigit (c : Char) : Bool :=
  c.isDigit || ('a' ≤ c && c ≤ 'f') || ('A' ≤ c && c ≤ 'F')

/-- The value of a hexadecimal digit. -/
def digitValue (c : Char) : Nat :=
  if c.isDigit then c.toNat - '0'.toNat
  else if 'a' ≤ c then c.toNat - 'a'.toNat + 10
  else c.toNat - 'A'.toNat + 10

/-- The number that the digits spell in the base. -/
def ofDigits (base : Nat) (digits : List Char) : Nat :=
  digits.foldl (fun value digit => value * base + digitValue digit) 0

/-- The number that a non-empty sequence of decimal digits spells. -/
def readDigits? (text : List Char) : Option Nat :=
  if text.isEmpty || !text.all Char.isDigit then none else some (ofDigits 10 text)

/-- Reads an unsigned integer below `limit`.  A plus sign may stand in front. -/
def readUnsigned? (limit : Nat) (text : List Char) : Option Nat :=
  let digits := match text with
    | '+' :: rest => rest
    | _ => text
  (readDigits? digits).filter (· < limit)

/-- Reads an integer from `-limit` up to and excluding `limit`.  A sign may stand in front. -/
def readSigned? (limit : Nat) (text : List Char) : Option Int :=
  match text with
  | '-' :: rest => ((readDigits? rest).filter (· ≤ limit)).map fun n => -(n : Int)
  | _ => (readUnsigned? limit text).map fun n => (n : Int)

/-- Reads an unsigned integer of 64 bits. -/
def readUInt64? (text : String) : Option UInt64 :=
  (readUnsigned? (Nat.pow 2 64) text.toList).map UInt64.ofNat

/-- Reads a signed integer of 64 bits. -/
def readInt64? (text : String) : Option Int64 :=
  (readSigned? (Nat.pow 2 63) text.toList).map Int64.ofInt

/-- Reads one of the words `true` and `false`. -/
def readBool? (text : String) : Option Bool :=
  if text = "true" then some true
  else if text = "false" then some false
  else none

end Docpress.Text
