import Docpress.Draft

/-!
# Statements

An assembly program is a list of statements: labels, and instructions with their operands.
While an operand is read it is a statement of its own, which is then attached to its
instruction.
-/

namespace Docpress.Assembly

/-- A statement. -/
inductive Statement where
  | label (name : String)
  /-- a literal whose type is still to come -/
  | literal (text : String)
  | value (object : Object)
  /-- an instruction without operand -/
  | operation (op : Opcode)
  | push (operand : Option Object)
  /-- a call of a function, by its name or by the number it has in a table -/
  | invoke (op : Opcode) (name : String) (id : Option UInt64)
  | forward (operand : Option Object)
  /-- an instruction that goes on at a label -/
  | jump (op : Opcode) (target : String)
deriving DecidableEq, Repr, Inhabited

namespace Statement

/-- The statement that an instruction starts, its operand still missing. -/
def ofOpcode (op : Opcode) : Statement :=
  match op.operand with
  | .bare => operation op
  | .value => push none
  | .ident => invoke op "" none
  | .uuid => forward none
  | .label => jump op ""

/-- The instruction of the statement. -/
def opcode? : Statement → Option Opcode
  | operation op => some op
  | invoke op _ _ => some op
  | jump op _ => some op
  | push _ => some .push
  | forward _ => some .forward
  | label _ | literal _ | value _ => none

/-- The number of objects that the statement occupies in the stream. -/
def size (statement : Statement) : Nat :=
  match statement with
  | label _ => 0
  | literal _ | value _ => 1
  | _ =>
    match statement.opcode? with
    | some op => op.size
    | none => 0

/-- The form in which messages describe a statement. -/
def description : Statement → String
  | label name => Text.variant "Label" [Text.quoted name]
  | literal text => Text.variant "Literal" [Text.quoted text]
  | value object => Text.variant "Value" [object.description]
  | operation op => Text.variant "Operation" [op.title]
  | push operand => Text.variant "Push" [Text.optional (operand.map Object.description)]
  | invoke op name id =>
    let id := id.map fun id => Text.decimal id.toNat
    Text.record "Invoke"
      [("op", op.title), ("name", Text.quoted name), ("id", Text.optional id)]
  | forward operand => Text.variant "Forward" [Text.optional (operand.map Object.description)]
  | jump op target => Text.record "Jump" [("op", op.title), ("target", Text.quoted target)]

/-- The object that a statement is as an operand. -/
def asOperand : Statement → Except Fault Object
  | value object => .ok object
  | literal text => .ok (.string text)
  | statement => .error (.notAnOperand statement.description)

/-- Gives an operand to an instruction that waits for one. -/
def attach (parent child : Statement) : Except Fault Statement := do
  let object ← child.asOperand
  match parent with
  | push none => return push (some object)
  | forward none => return forward (some object)
  | statement => throw (.takesNoOperand statement.description)

instance : Construct Statement where
  attach := attach

end Statement
end Docpress.Assembly
