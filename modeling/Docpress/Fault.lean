import Docpress.Object.Varint
import Docpress.Text.Numeral

/-!
# Faults

Failures of the compiler itself.  What authors get wrong is a diagnostic; a fault means that
a part of the compiler was used against its rules, or that a number did not fit in the bits that
were there for it.
-/

namespace Docpress

/-- What was tried on an empty stack of open constructs. -/
inductive StackUse where
  | access
  | merge
deriving DecidableEq, Repr, Inhabited

/-- What was to be computed in 64 bits. -/
inductive Arithmetic where
  | addition
  | subtraction
deriving DecidableEq, Repr, Inhabited

/-- Why the compiler gave up. -/
inductive Fault where
  /-- no construct is open -/
  | nothingOpen (use : StackUse)
  /-- a map call was given a value before a key -/
  | valueWithoutKey (method : String)
  /-- a vector call was given a parameter list -/
  | parametersOfVector (method : String)
  /-- a map call was to be compiled with a parameter still waiting for its value -/
  | incompleteCall (method : String)
  /-- a parameter was to be compiled while still waiting for its value -/
  | incompleteParameter (key : String)
  /-- a call was compiled to another number of lines than its size -/
  | wrongSize (method : String) (lines size : Nat)
  /-- a type tag without a literal before it -/
  | tagWithoutLiteral
  /-- a construct that is no value was used as an operand -/
  | notAnOperand (construct : String)
  /-- a construct that takes no operand was given one -/
  | takesNoOperand (construct : String)
  /-- constructs are open at the end of the input -/
  | stillOpen (count : Nat)
  /-- the same input was declined too often -/
  | livelock (attempts : Nat)
  /-- bytes are no object stream -/
  | undecodable (cause : DecodeError)
  /-- 64 bits with a sign do not hold a result -/
  | overflow (operation : Arithmetic)
deriving DecidableEq, Repr, Inhabited

namespace Fault

/-- The words for a broken rule. -/
def bug (text : String) : String :=
  "A compiler bug was detected: " ++ text

/-- The fault in words. -/
def message : Fault → String
  | nothingOpen .access => "The semantic stack is empty while accessing the open construct"
  | nothingOpen .merge => "The semantic stack is empty while merging"
  | valueWithoutKey method => bug s!"a value for '{method}' arrived without a pending key"
  | parametersOfVector method => bug s!"parameter list opened on vector '{method}'"
  | incompleteCall method =>
    bug s!"'{method}' reached code generation with a parameter missing its value"
  | incompleteParameter key =>
    bug s!"parameter '{key}' reached code generation without a value"
  | wrongSize method lines size =>
    bug s!"'{method}' produced {lines} lines, its size is {size}"
  | tagWithoutLiteral => bug "a type tag without a pending literal"
  | notAnOperand construct => bug s!"{construct} cannot be an operand"
  | takesNoOperand construct => bug s!"{construct} does not take a value operand"
  | stillOpen count => bug s!"{count} constructs are still open at the end of data"
  | livelock attempts => s!"No consumer accepted the same input after {attempts} attempts"
  | undecodable cause => s!"Could not serialize an object: {cause.message}"
  | overflow .addition => "attempt to add with overflow"
  | overflow .subtraction => "attempt to subtract with overflow"

end Fault
end Docpress
