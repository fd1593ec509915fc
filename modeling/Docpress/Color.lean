import Docpress.Text.Numeral

/-!
# Colors

The literal `#rrggbb`, or `#rrggbbaa` with an opacity.
-/

namespace Docpress

/-- A color with an opacity, 255 being opaque. -/
structure Color where
  red : UInt8
  green : UInt8
  blue : UInt8
  alpha : UInt8
deriving DecidableEq, Repr, Inhabited

namespace Color

/-- The byte that two hexadecimal digits spell. -/
def channel (high low : Char) : UInt8 :=
  .ofNat (Text.ofDigits 16 [high, low])

/-- Reads a color.  Without an opacity it is opaque. -/
def readChars? : List Char → Option Color
  | '#' :: digits =>
    if !digits.all Text.isHexDigit then none
    else
      match digits with
      | [r, r', g, g', b, b'] => some ⟨channel r r', channel g g', channel b b', 255⟩
      | [r, r', g, g', b, b', a, a'] =>
        some ⟨channel r r', channel g g', channel b b', channel a a'⟩
      | _ => none
  | _ => none

/-- Reads a color.  Without an opacity it is opaque. -/
def read? (text : String) : Option Color :=
  readChars? text.toList

/-- The written form.  The opacity of an opaque color is left out. -/
def text (c : Color) : String :=
  let channels := [c.red, c.green, c.blue] ++ if c.alpha = 255 then [] else [c.alpha]
  "#" ++ String.join (channels.map fun channel => Text.paddedHex 2 channel.toNat)

end Color
end Docpress
