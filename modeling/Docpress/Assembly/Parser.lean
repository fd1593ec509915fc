import Docpress.Assembly.Statement
import Docpress.Checked
import Docpress.Lexer

/-!
# Parsing assembly text

A pushdown automaton over symbols that works line by line.  The state on top of its stack
takes the symbol, or goes away, possibly leaving other states in its place, and asks for the
same symbol again.  An instruction is opened in a draft, its operand is attached to it, and
it is declared.  A mistake makes the parser skip the rest of the line.
-/

namespace Docpress.Assembly

/-- The numbers that functions are known by. -/
structure FunctionTable where
  entries : List (String × UInt64) := []
deriving DecidableEq, Repr, Inhabited

namespace FunctionTable

/-- The number of a function. -/
def lookup? (table : FunctionTable) (name : String) : Option UInt64 :=
  table.entries.lookup name

/-- Gives a number to a function, in place of the one it may have had. -/
def insert (table : FunctionTable) (name : String) (id : UInt64) : FunctionTable :=
  ⟨(name, id) :: table.entries⟩

end FunctionTable

/-- What the parser waits for. -/
inductive State where
  /-- the end of the data, or more lines -/
  | body
  /-- lines up to the end of the data -/
  | lines
  /-- a line -/
  | line
  /-- the operand of the open instruction -/
  | operand (kind : OperandKind)
  /-- a constant -/
  | value
  /-- the type of the open literal -/
  | typeTag
  /-- the argument of a directive -/
  | directive (name : String)
  /-- the end of a line -/
  | endOfLine
  /-- the end of a line, whatever stands before it -/
  | skip
  /-- nothing, the open statement is to be closed -/
  | reduce
deriving DecidableEq, Repr, Inhabited

/-- A parser of assembly text. -/
structure Parser where
  /-- the states, the topmost first -/
  states : List State := [.body]
  draft : Draft Statement := {}
  diagnostics : Array Diagnostic := #[]
  position : Position
  /-- the line of the assembly text, which the position may differ from -/
  textLine : Nat := 1
  /-- what a directive made of the difference -/
  lineShift : Int64 := 0
  functions : FunctionTable := {}
  /-- how often a symbol may be offered -/
  retryLimit : Nat
  /-- the end of the data was taken -/
  finished : Bool := false
  /-- a symbol could not be placed, all further input is ignored -/
  abandoned : Bool := false

namespace Parser

/-- A parser at the start of a file. -/
def start (file : String) (retryLimit : Nat) (functions : FunctionTable) : Parser :=
  { position := .start file, retryLimit, functions }

/-- Reports a cause at the current position. -/
def report (parser : Parser) (cause : Cause) : Parser :=
  { parser with diagnostics := parser.diagnostics.push ⟨parser.position, cause⟩ }

/-- Puts states on the stack, the first one topmost. -/
def push (parser : Parser) (states : List State) : Parser :=
  { parser with states := states ++ parser.states }

/-- Opens a statement. -/
def openStatement (parser : Parser) (statement : Statement) : Parser :=
  { parser with draft := parser.draft.push statement parser.position }

/-- Exchanges the open statement. -/
def setOpen (parser : Parser) (statement : Statement) : Parser :=
  { parser with draft := parser.draft.setTop statement }

/-- Closes the open statement. -/
def close (parser : Parser) : Except Fault Parser :=
  return { parser with draft := ← parser.draft.merged }

/-- The position line of a line of the text, in 64-bit arithmetic and at least 1. -/
def shifted (parser : Parser) (line : Nat) : Except Fault Nat := do
  let sum ← Arithmetic.addition.apply (Int64.ofNat line) parser.lineShift
  return (max sum 1).toNatClampNeg

/-- The shift that gives the next line of the text the number. -/
def shiftTo (parser : Parser) (number : Int64) : Except Fault Int64 := do
  let following ← Arithmetic.addition.apply (Int64.ofNat parser.textLine) 1
  Arithmetic.subtraction.apply number following

/-! ## Steps

Each of these functions answers whether the symbol was taken.  The state they belong to is
already off the stack. -/

/-- Takes the end of the data, or goes on with lines. -/
def stepBody (parser : Parser) (symbol : Symbol) : Except Fault (Bool × Parser) :=
  if symbol.kind = .endOfData then .ok (true, { parser with finished := true })
  else .ok (false, parser.push [.lines, .body])

/-- Goes on with a line unless the data ends. -/
def stepLines (parser : Parser) (symbol : Symbol) : Except Fault (Bool × Parser) :=
  if symbol.kind = .endOfData then .ok (false, parser)
  else .ok (false, parser.push [.line, .lines])

/-- Reports a cause and skips the rest of the line. -/
def skipLine (parser : Parser) (cause : Cause) : Parser :=
  (parser.report cause).push [.skip]

/-- Reads the start of a line: a label, which more may follow, a directive or an
instruction. -/
def stepLine (parser : Parser) (symbol : Symbol) : Except Fault (Bool × Parser) := do
  match symbol.kind with
  | .newline => return (true, parser)
  | .endOfData => return (false, parser)
  | .label =>
    let parser ← (parser.openStatement (.label symbol.text)).close
    return (true, parser.push [.line])
  | .directive =>
    if symbol.text = "file" ∨ symbol.text = "line" then
      return (true, parser.push [.directive symbol.text, .endOfLine])
    else return (true, parser.skipLine (.unknownDirective symbol.text))
  | .instruction =>
    match Opcode.ofMnemonic? symbol.text with
    | some op =>
      return (true, (parser.openStatement (.ofOpcode op)).push
        [.operand op.operand, .reduce, .endOfLine])
    | none => return (true, parser.skipLine (.unknownInstruction symbol.text))
  | .text => return (true, parser.skipLine (.unknownInstruction symbol.text))
  | _ => return (true, parser.skipLine (.mismatch .statement symbol))

/-- Reads the operand of the open instruction. -/
def stepOperand (parser : Parser) (kind : OperandKind) (symbol : Symbol) :
    Except Fault (Bool × Parser) := do
  match kind with
  | .bare => return (false, parser)
  | .value | .uuid => return (false, parser.push [.value])
  | .ident =>
    if symbol.kind = .text ∨ symbol.kind = .instruction ∨ symbol.kind = .literal then
      match ← parser.draft.top with
      | .invoke op _ _ =>
        let id := parser.functions.lookup? symbol.text
        return (true, parser.setOpen (.invoke op symbol.text id))
      | _ => return (true, parser)
    else return (false, parser)
  | .label =>
    if symbol.kind = .text ∨ symbol.kind = .instruction then
      match ← parser.draft.top with
      | .jump op _ => return (true, parser.setOpen (.jump op symbol.text))
      | _ => return (true, parser)
    else return (false, parser)

/-- The type that a constant has by the kind of its symbol, and its value if it has one. -/
def constant? (symbol : Symbol) : Option (TypeTag × Option Object) :=
  match symbol.kind with
  | .number => some (.u64, Object.ofLiteral? .u64 symbol.text)
  | .signed => some (.i64, Object.ofLiteral? .i64 symbol.text)
  | .float => some (.f64, Object.ofLiteral? .f64 symbol.text)
  | .bool => some (.bool, Object.ofLiteral? .bool symbol.text)
  | .timestamp => some (.timestamp, Object.ofLiteral? .timestamp symbol.text)
  | .color => some (.color, Object.ofLiteral? .color symbol.text)
  | .text => if symbol.text = "null" then some (.null, some .null) else none
  | _ => none

/-- Reads a constant.  One that has no value is reported and replaced by null. -/
def stepValue (parser : Parser) (symbol : Symbol) : Except Fault (Bool × Parser) :=
  if symbol.kind = .literal then
    .ok (true, (parser.openStatement (.literal symbol.text)).push [.typeTag, .reduce])
  else
    match constant? symbol with
    | none => .ok (false, parser)
    | some (_, some object) => .ok (true, (parser.openStatement (.value object)).push [.reduce])
    | some (tag, none) =>
      let parser := parser.report (.invalidLiteral tag symbol.text)
      .ok (true, (parser.openStatement (.value .null)).push [.reduce])

/-- Gives the open literal the type that the symbol names.  Without one it is a string. -/
def stepTypeTag (parser : Parser) (symbol : Symbol) : Except Fault (Bool × Parser) := do
  match ← parser.draft.top with
  | .literal text =>
    match if symbol.kind = .typeTag then TypeTag.ofName? symbol.text else none with
    | none => return (false, parser.setOpen (.value (.string text)))
    | some tag =>
      match Object.ofLiteral? tag text with
      | some object => return (true, parser.setOpen (.value object))
      | none =>
        let parser := parser.report (.invalidLiteral tag text)
        return (true, parser.setOpen (.value .null))
  | _ => throw .tagWithoutLiteral

/-- Reads the argument of a directive.  `file` names the file of the following lines, `line`
the number of the next one. -/
def stepDirective (parser : Parser) (name : String) (symbol : Symbol) :
    Except Fault (Bool × Parser) := do
  if name = "file" ∧ (symbol.kind = .literal ∨ symbol.kind = .text) then
    return (true, { parser with position.file := symbol.text })
  else if name = "line" ∧ symbol.kind = .number then
    match Text.readInt64? symbol.text with
    | some number =>
      let lineShift ← parser.shiftTo number
      return (true, { parser with lineShift })
    | none => return (true, parser)
  else return (false, parser.report (.mismatch (.argument name) symbol))

/-- Takes the end of a line, and reports anything else. -/
def stepEndOfLine (parser : Parser) (symbol : Symbol) : Except Fault (Bool × Parser) :=
  match symbol.kind with
  | .newline => .ok (true, parser)
  | .endOfData => .ok (false, parser)
  | _ => .ok (false, parser.skipLine (.mismatch .endOfLine symbol))

/-- Skips everything up to the end of the line. -/
def stepSkip (parser : Parser) (symbol : Symbol) : Except Fault (Bool × Parser) :=
  match symbol.kind with
  | .newline => .ok (true, parser)
  | .endOfData => .ok (false, parser)
  | _ => .ok (true, parser.push [.skip])

/-- The operand that a forward instruction ends up with, and what is wrong with the one it was
given. -/
def forwardOperand : Option Object → Object × Option Cause
  | some (.uuid id) => (.uuid id, none)
  | some (.string text) =>
    match Identifier.read? text with
    | some id => (.uuid id, none)
    | none => (.uuid 0, some (.invalidLiteral .uuid text))
  | some object => (.uuid 0, some (.invalidLiteral .uuid object.description))
  | none => (.uuid 0, some (.missingOperand .forward))

/-- The statement with its operand in place, and what was wrong with the operand. -/
def completed : Statement → Statement × Option Cause
  | .push none => (.push (some .null), some (.missingOperand .push))
  | .forward operand =>
    let (object, cause) := forwardOperand operand
    (.forward (some object), cause)
  | .invoke op name id =>
    (.invoke op name id, if name = "" then some (.missingOperand op) else none)
  | .jump op target =>
    (.jump op target, if target = "" then some (.missingOperand op) else none)
  | statement => (statement, none)

/-- Checks the operand of the open statement and closes it. -/
def stepReduce (parser : Parser) : Except Fault (Bool × Parser) := do
  let (statement, cause) := completed (← parser.draft.top)
  let parser := match cause with
    | some cause => parser.report cause
    | none => parser
  return (false, ← (parser.setOpen statement).close)

/-- Offers a symbol to a state that is already off the stack. -/
def step (parser : Parser) (state : State) (symbol : Symbol) : Except Fault (Bool × Parser) :=
  match state with
  | .body => parser.stepBody symbol
  | .lines => parser.stepLines symbol
  | .line => parser.stepLine symbol
  | .operand kind => parser.stepOperand kind symbol
  | .value => parser.stepValue symbol
  | .typeTag => parser.stepTypeTag symbol
  | .directive name => parser.stepDirective name symbol
  | .endOfLine => parser.stepEndOfLine symbol
  | .skip => parser.stepSkip symbol
  | .reduce => parser.stepReduce

/-- Offers a symbol once.  Line marks move the position and are always taken. -/
def put (symbol : Symbol) (parser : Parser) : Except Fault (Bool × Parser) :=
  match symbol.kind with
  | .lineMark =>
    match Text.readUInt64? symbol.text with
    | some textLine => do
      let line ← parser.shifted textLine.toNat
      return (true, { parser with textLine := textLine.toNat, position.line := line })
    | none => .ok (true, parser)
  | _ =>
    match parser.states with
    | [] =>
      if symbol.kind = .endOfData then .ok (true, parser)
      else .ok (true, parser.report (.afterEnd symbol))
    | state :: states => step { parser with states } state symbol

/-- Offers a symbol until it is taken, and gives up on the input at the retry limit. -/
def feed (symbol : Symbol) (parser : Parser) : Except Fault Parser := do
  if parser.abandoned then return parser
  let (taken, parser) ← offer parser.retryLimit (put symbol) parser
  if taken then return parser
  return { parser.report (.retryLimit parser.retryLimit) with abandoned := true }

/-- The declarations and the diagnostics.  Statements that are still open are dropped unless
the end of the data was reached. -/
def finish (parser : Parser) : Except Fault (List (Decl Statement) × List Diagnostic) := do
  if parser.finished && !parser.abandoned then
    return (← parser.draft.finish, parser.diagnostics.toList)
  else return (parser.draft.decls.toList, parser.diagnostics.toList)

/-- Feeds an item.  Assembly text has no requests to include a file. -/
def feedItem (parser : Parser) : Item → Except Fault Parser
  | .symbol symbol => parser.feed symbol
  | .inclusion _ => .ok parser

end Parser

/-- The statements of assembly text and what is wrong with it. -/
def parseItems (parser : Parser) (items : List Item) :
    Except Fault (List (Decl Statement) × List Diagnostic) := do
  (← items.foldlM Parser.feedItem parser).finish

end Docpress.Assembly
