/-!
# Ranges of code points

Properties of characters are tabulated as lists of closed ranges of code points.
-/

namespace Docpress.Text

/-- A closed range of code points, given by its first and its last member. -/
abbrev CodeRange := Nat × Nat

/-- Whether the code point of `c` lies in the range. -/
def CodeRange.contains (range : CodeRange) (c : Char) : Bool :=
  range.1 ≤ c.toNat && c.toNat ≤ range.2

end Docpress.Text
