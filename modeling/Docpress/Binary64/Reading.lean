import Docpress.Decimal

/-!
# Reading binary numbers

The texts that stand for binary64 numbers: decimals, infinity, and the mark for no number.
-/

namespace Docpress.Binary64

/-- Reads one of the words for infinity and for no number, in any case. -/
def readWord? (negative : Bool) (text : List Char) : Option Binary64 :=
  let word := String.ofList (text.map Char.toLower)
  if word = "inf" ∨ word = "infinity" then some (ofRank negative infinityRank)
  else if word = "nan" then some (notANumber negative)
  else none

/-- Reads an unsigned number and gives it the sign. -/
def readMagnitude? (negative : Bool) (text : List Char) : Option Binary64 :=
  match Decimal.read? text with
  | some d => some (ofRank negative d.rank)
  | none => readWord? negative text

/-- Reads a number: a decimal, infinity or no number, with an optional sign in front.  The
result is the nearest number of the format, and infinity beyond its range. -/
def read? (text : String) : Option Binary64 :=
  match text.toList with
  | '-' :: rest => readMagnitude? true rest
  | '+' :: rest => readMagnitude? false rest
  | text => readMagnitude? false text

end Docpress.Binary64
