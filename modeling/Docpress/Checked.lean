import Docpress.Fault

/-!
# Checked arithmetic

Line numbers are computed in 64 bits with a sign.  A sum or a difference that these do not hold
is a fault, not another number.
-/

namespace Docpress.Arithmetic

/-- The exact result. -/
def exact : Arithmetic → Int → Int → Int
  | addition, x, y => x + y
  | subtraction, x, y => x - y

/-- 64 bits with a sign hold the number. -/
def InRange (x : Int) : Prop :=
  Int64.minValue.toInt ≤ x ∧ x ≤ Int64.maxValue.toInt

instance (x : Int) : Decidable (InRange x) := inferInstanceAs (Decidable (_ ∧ _))

/-- The exact result in 64 bits, which have to hold it. -/
def apply (operation : Arithmetic) (x y : Int64) : Except Fault Int64 :=
  let result := operation.exact x.toInt y.toInt
  if InRange result then .ok (.ofInt result) else .error (.overflow operation)

end Docpress.Arithmetic
