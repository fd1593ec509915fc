import Docpress.Document.Tree

/-!
# Assembly code of documents

Every call is compiled by the same convention.  A vector call is

    esba
    <arguments>
    frm
    make_vector
    push 1
    invoke_r <name>
    pull

and a map call is

    <value>             for every parameter
    push "<key>"
    make_param
    push <count>
    make_param_map
    push 1
    invoke_r <name>

A paragraph with nothing in it leaves a comment only.
-/

namespace Docpress.Document

/-! ## Lines -/

/-- A line of assembly code. -/
inductive Line where
  | op (op : Opcode)
  | operand (op : Opcode) (operand : String)
  | comment (text : String)
deriving DecidableEq, Repr, Inhabited

namespace Line

/-- A push of the spelled constant. -/
def push (spelling : String) : Line := operand .push spelling

/-- The text of the line. -/
def text : Line → String
  | op o => o.mnemonic
  | operand o text => o.mnemonic ++ " " ++ text
  | comment text => "; " ++ text

/-- Whether the line is an instruction. -/
def isInstruction : Line → Bool
  | comment _ => false
  | _ => true

/-- A comment that only annotated code has. -/
def note (annotate : Bool) (text : String) : List Line :=
  if annotate then [comment text] else []

end Line

/-- The number of instructions among the lines. -/
def instructionCount (lines : List Line) : Nat :=
  (lines.filter Line.isInstruction).length

/-- The first line of generated code. -/
def codeHeader : String := "; docc 0.1.0"

/-- The text of a whole program: a header, the lines, and the end of the run. -/
def render (lines : List Line) : String :=
  String.join ((codeHeader :: (lines ++ [Line.op .halt]).map Line.text).map (· ++ "\n"))

/-! ## Spelling of constants -/

/-- The characters that stand for a character in a double quoted string. -/
def escapedChar : Char → List Char
  | '\\' => ['\\', '\\']
  | '"' => ['\\', '"']
  | '\n' => ['\\', 'n']
  | '\t' => ['\\', 't']
  | c => [c]

/-- A double quoted string of assembly text. -/
def quoteString (text : String) : String :=
  String.ofList ('"' :: text.toList.flatMap escapedChar ++ ['"'])

/-- The spelling of a constant in assembly text. -/
def Payload.spelling : Payload → String
  | .string text => quoteString text
  | .bool value => if value then "true" else "false"
  | .unsigned value => Text.decimal value.toNat ++ "u64"
  | .signed value => Text.signedDecimal value.toInt ++ "i64"
  | .float value => value.text
  | .timestamp time => "@" ++ time.text
  | .color c => "'color:" ++ c.text ++ "'"

/-! ## Calls -/

/-- The lines that something is compiled to, and why it could not be compiled to the end if it
could not. -/
structure Emission where
  lines : List Line := []
  fault : Option Fault := none

namespace Emission

/-- Lines that cannot fail. -/
def ofLines (lines : List Line) : Emission := { lines }

/-- A failure before the first line. -/
def ofFault (fault : Fault) : Emission := { fault := some fault }

/-- One emission after the other, unless the first one fails. -/
def andThen (first second : Emission) : Emission :=
  match first.fault with
  | some _ => first
  | none => { lines := first.lines ++ second.lines, fault := second.fault }

end Emission

mutual

/-- The lines that push the value. -/
def Value.emit : Value → Emission
  | .constant constant => .ofLines [.push constant.payload.spelling]
  | .call call => call.emit

/-- The lines of the call.  The number of parameters is exact, whereas a counter of 32 bits with a
sign would hold it only up to `2 ^ 31 - 1`; calls with more parameters than that are left out of
account. -/
def Call.emit : Call → Emission
  | .vector name _ args =>
    if Call.isVacuous name args then .ofLines [.comment ("empty " ++ name)]
    else
      ((Emission.ofLines [.op .esba]).andThen (Value.emitAll args)).andThen
        (.ofLines [.op .frm, .op .makeVector, .push "1", .operand .invokeR name, .op .pull])
  | .map name _ params =>
    if !Call.isComplete params then .ofFault (.incompleteCall name)
    else
      (Param.emitAll params).andThen
        (.ofLines [.push (Text.decimal params.length), .op .makeParamMap, .push "1",
          .operand .invokeR name])

/-- The lines that bind the parameter. -/
def Param.emit : Param → Emission
  | .pending key => .ofFault (.incompleteParameter key)
  | .bound key value => value.emit.andThen (.ofLines [.push (quoteString key), .op .makeParam])

/-- The lines that push the values. -/
def Value.emitAll : List Value → Emission
  | [] => {}
  | value :: rest => value.emit.andThen (Value.emitAll rest)

/-- The lines that bind the parameters. -/
def Param.emitAll : List Param → Emission
  | [] => {}
  | param :: rest => param.emit.andThen (Param.emitAll rest)

end

/-! ## Documents -/

/-- The lines of a declaration, which have to be as many as its size says. -/
def declLines (annotate : Bool) (decl : Decl Call) : Except Fault (List Line) :=
  let name := decl.node.name
  let emission := decl.node.emit
  match emission.fault with
  | some fault => .error fault
  | none =>
    let count := instructionCount emission.lines
    if count ≠ decl.node.size then .error (.wrongSize name count decl.node.size)
    else .ok (Line.note annotate (decl.position.text ++ " ." ++ name) ++ emission.lines)

/-- The assembly text of the declarations.  Annotated code names the place of each of them. -/
def generate (annotate : Bool) (decls : List (Decl Call)) : Except Fault String := do
  let lines ← decls.mapM (declLines annotate)
  return render lines.flatten

end Docpress.Document
