/-!
# Binary floating point numbers

A number is the 64 bits of the IEEE binary64 format.  Nothing here computes with machine
floats: magnitudes are natural numbers in units of 2^-1074, the smallest positive magnitude,
and the rank of a magnitude is its place in their order, which is also its bit pattern.

Quotients are rounded to the nearest magnitude, a half going to the even rank.
-/

namespace Docpress

/-- A number in the binary64 format. -/
structure Binary64 where
  bits : UInt64
deriving DecidableEq, Repr, Inhabited

namespace Binary64

/-! ## Ranks and magnitudes -/

/-- How many magnitudes share one exponent. -/
def rankStep : Nat := Nat.pow 2 52

/-- The rank of infinity.  All finite magnitudes rank below it, all patterns above it are no
numbers. -/
def infinityRank : Nat := 2047 * rankStep

/-- The rank of the magnitude. -/
def rank (x : Binary64) : Nat :=
  x.bits.toNat % Nat.pow 2 63

/-- Whether the sign bit is set. -/
def isNegative (x : Binary64) : Bool :=
  Nat.pow 2 63 ≤ x.bits.toNat

/-- The number with the given sign and magnitude. -/
def ofRank (negative : Bool) (rank : Nat) : Binary64 :=
  ⟨UInt64.ofNat (if negative then Nat.pow 2 63 + rank else rank)⟩

/-- The pattern that stands for no number, with the given sign. -/
def notANumber (negative : Bool) : Binary64 :=
  ofRank negative (infinityRank + Nat.pow 2 51)

/-- Whether the pattern stands for no number. -/
def isNaN (x : Binary64) : Bool :=
  infinityRank < x.rank

/-- The finite magnitude of a rank, in units of 2^-1074.  Ranks below `2 * rankStep` are their
own magnitude; from there on the unit doubles with every `rankStep`. -/
def magnitude (rank : Nat) : Nat :=
  let doublings := rank / rankStep - 1
  (rank - doublings * rankStep) * Nat.pow 2 doublings

/-! ## Rounding -/

/-- The natural number nearest to `num / den`, a half going to the even neighbour. -/
def divNearestEven (num den : Nat) : Nat :=
  let low := num / den
  let rest := num % den
  if 2 * rest < den then low
  else if den < 2 * rest then low + 1
  else low + low % 2

/-- The rank of the magnitude nearest to `num / den`, a half going to the even rank. -/
def nearestRank (num den : Nat) : Nat :=
  let units := num * Nat.pow 2 1074
  let doublings := (units / den).log2 - 52
  min infinityRank (doublings * rankStep + divNearestEven units (den * Nat.pow 2 doublings))

end Binary64

end Docpress
