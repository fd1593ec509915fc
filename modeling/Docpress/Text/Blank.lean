import Docpress.Text.CodeRange

/-!
# Blank characters

The characters that separate words: those with the Unicode property White_Space.  `trim`
removes them from both ends of a text.
-/

namespace Docpress.Text

/-- The ranges of code points with the property White_Space. -/
def blanks : List CodeRange :=
  [(0x09, 0x0D), (0x20, 0x20), (0x85, 0x85), (0xA0, 0xA0), (0x1680, 0x1680),
   (0x2000, 0x200A), (0x2028, 0x2029), (0x202F, 0x202F), (0x205F, 0x205F), (0x3000, 0x3000)]

/-- Whether the character is blank. -/
def isBlank (c : Char) : Bool :=
  blanks.any (·.contains c)

/-- The text without the blanks at its two ends. -/
def trim (text : List Char) : List Char :=
  ((text.dropWhile isBlank).reverse.dropWhile isBlank).reverse

end Docpress.Text
