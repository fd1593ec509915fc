import Docpress.Text.Numeral

/-!
# Identifiers

Numbers of 128 bits, written as 32 hexadecimal digits in five groups.
-/

namespace Docpress

/-- A number of 128 bits that names something. -/
abbrev Identifier := BitVec 128

namespace Identifier

/-- Reads an identifier.  Hyphens may stand anywhere; without them the text has 32
characters, all of them digits, except that the first may be a plus sign. -/
def read? (text : String) : Option Identifier :=
  let characters := text.toList.filter (· ≠ '-')
  let digits := match characters with
    | '+' :: rest => rest
    | _ => characters
  if characters.length = 32 ∧ digits.all Text.isHexDigit then
    some (BitVec.ofNat 128 (Text.ofDigits 16 digits))
  else none

/-- The 32 digits. -/
def digits (id : Identifier) : List Char :=
  Text.padZeros 32 (Text.hexDigits id.toNat)

/-- The written form, in groups of 8, 4, 4, 4 and 12 digits. -/
def text (id : Identifier) : String :=
  let group (start length : Nat) := String.ofList ((id.digits.drop start).take length)
  "-".intercalate [group 0 8, group 8 4, group 12 4, group 16 4, group 20 12]

end Identifier
end Docpress
