/-!
# The instruction set

An instruction has a mnemonic, a code, which is its place in `Opcode.all`, and at most one
operand.
-/

namespace Docpress

/-- What follows an instruction in assembly text and in the object stream. -/
inductive OperandKind where
  | bare
  /-- any constant -/
  | value
  /-- the name of a function, or the number that a table gives it -/
  | ident
  /-- a number of 128 bits -/
  | uuid
  /-- a label, which becomes an offset -/
  | label
deriving DecidableEq, Repr, Inhabited

/-- The instructions. -/
inductive Opcode where
  | nop
  | halt
  | push
  | pull
  /-- saves the base of the stack -/
  | esba
  /-- restores the base of the stack -/
  | reba
  /-- counts the values above the saved base -/
  | frm
  | asp
  | rsp
  | invoke
  | invokeR
  | forward
  | call
  | ret
  | ja
  | je
  | jne
  | jl
  | jle
  | jg
  | jge
  | now
  | cmp
  | pr
  | makeTuple
  | makeVector
  | makeDeque
  | makeParam
  | makeParamMap
  | makeAttr
  | makeAttrMap
deriving DecidableEq, Repr, Inhabited

namespace Opcode

/-- The name in assembly text. -/
def mnemonic : Opcode → String
  | nop => "nop"
  | halt => "halt"
  | push => "push"
  | pull => "pull"
  | esba => "esba"
  | reba => "reba"
  | frm => "frm"
  | asp => "asp"
  | rsp => "rsp"
  | invoke => "invoke"
  | invokeR => "invoke_r"
  | forward => "forward"
  | call => "call"
  | ret => "ret"
  | ja => "ja"
  | je => "je"
  | jne => "jne"
  | jl => "jl"
  | jle => "jle"
  | jg => "jg"
  | jge => "jge"
  | now => "now"
  | cmp => "cmp"
  | pr => "pr"
  | makeTuple => "make_tuple"
  | makeVector => "make_vector"
  | makeDeque => "make_deque"
  | makeParam => "make_param"
  | makeParamMap => "make_param_map"
  | makeAttr => "make_attr"
  | makeAttrMap => "make_attr_map"

/-- All instructions in the order of their codes. -/
def all : List Opcode :=
  [nop, halt, push, pull, esba, reba, frm, asp, rsp, invoke, invokeR, forward, call, ret,
   ja, je, jne, jl, jle, jg, jge, now, cmp, pr, makeTuple, makeVector, makeDeque,
   makeParam, makeParamMap, makeAttr, makeAttrMap]

/-- The number that stands for the instruction in the object stream. -/
def code (op : Opcode) : Nat :=
  op.ctorIdx

/-- The instruction with the given code. -/
def ofCode? (code : Nat) : Option Opcode :=
  all[code]?

/-- What the instruction takes. -/
def operand : Opcode → OperandKind
  | push => .value
  | invoke | invokeR => .ident
  | forward => .uuid
  | call | ja | je | jne | jl | jle | jg | jge => .label
  | _ => .bare

/-- How many objects the instruction occupies in the object stream. -/
def size (op : Opcode) : Nat :=
  if op.operand = .bare then 1 else 2

/-- The lower case of a character as far as mnemonics can tell: besides the capitals of ASCII,
only the sign for kelvin has its lower case among the letters of ASCII. -/
def lowerCase (c : Char) : Char :=
  if c = '\u212A' then 'k' else c.toLower

/-- The instruction with the given mnemonic, in any case. -/
def ofMnemonic? (name : String) : Option Opcode :=
  let name := String.ofList (name.toList.map lowerCase)
  all.find? (·.mnemonic = name)

/-- The words of the mnemonic, each with a capital, as descriptions show them. -/
def title (op : Opcode) : String :=
  String.join ((op.mnemonic.splitOn "_").map String.capitalize)

end Opcode
end Docpress
