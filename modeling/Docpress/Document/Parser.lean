import Docpress.Document.Tree
import Docpress.Lexer

/-!
# Parsing documents

A pushdown automaton over symbols.  The state on top of its stack takes the symbol, or goes
away, possibly leaving other states in its place, and asks for the same symbol again.  Calls
under construction live in a draft; the state `reduce` closes the innermost one.

Mistakes in the document are reported and repaired.  A symbol that cannot be placed within
the retry limit makes the parser ignore everything that follows.
-/

namespace Docpress.Document

/-- What ends a sequence of values. -/
inductive Enclosure where
  /-- a paragraph break, a block call or the end of the data -/
  | paragraph
  /-- a closing parenthesis -/
  | paren
  /-- a double quote -/
  | quote
deriving DecidableEq, Repr, Inhabited

/-- What the parser waits for. -/
inductive State where
  /-- the end of the data, or more blocks -/
  | body
  /-- a block -/
  | list
  /-- the arguments of the innermost call -/
  | params
  /-- values up to the end of the enclosure -/
  | vector (enclosure : Enclosure)
  /-- one value -/
  | value
  /-- a parameter -/
  | map
  /-- a comma before another parameter -/
  | tail
  /-- exactly this symbol -/
  | exactly (symbol : Symbol)
  /-- nothing, the innermost call is to be closed -/
  | reduce
deriving DecidableEq, Repr, Inhabited

/-- A parser of documents. -/
structure Parser where
  /-- the states, the topmost first -/
  states : List State := [.list, .body]
  draft : Draft Call := {}
  diagnostics : Array Diagnostic := #[]
  position : Position
  /-- how often a symbol may be offered -/
  retryLimit : Nat
  /-- the end of the data was taken -/
  finished : Bool := false
  /-- a symbol could not be placed, all further input is ignored -/
  abandoned : Bool := false

/-- Whether the symbol is the argument of a call without parentheses. -/
def startsValue (symbol : Symbol) : Bool :=
  match symbol.kind with
  | .text | .literal | .number | .signed | .float | .timestamp | .color | .bool => true
  | .directive => !isBlock symbol.text
  | _ => symbol.isPunct '"'

/-- Whether the symbol ends the enclosure. -/
def closes (enclosure : Enclosure) (symbol : Symbol) : Bool :=
  match enclosure, symbol.kind with
  | _, .endOfData => true
  | .paragraph, .newline => true
  | .paragraph, .directive => isBlock symbol.text
  | .paragraph, _ => false
  | .paren, _ => symbol.isPunct ')'
  | .quote, _ => symbol.isPunct '"'

namespace Parser

/-- A parser at the start of a file. -/
def start (file : String) (retryLimit : Nat) : Parser :=
  { position := .start file, retryLimit }

/-- Reports a cause at the current position. -/
def report (parser : Parser) (cause : Cause) : Parser :=
  { parser with diagnostics := parser.diagnostics.push ⟨parser.position, cause⟩ }

/-- Reports several causes at the current position. -/
def reportAll (parser : Parser) (causes : List Cause) : Parser :=
  causes.foldl report parser

/-- Puts states on the stack, the first one topmost. -/
def push (parser : Parser) (states : List State) : Parser :=
  { parser with states := states ++ parser.states }

/-- Opens a call. -/
def openCall (parser : Parser) (call : Call) : Parser :=
  { parser with draft := parser.draft.push call parser.position }

/-- Opens a call of the method, and reports a method that is not in the catalogue. -/
def openMethod (parser : Parser) (name : String) : Parser :=
  let entry := lookup? name
  let parser := if entry.isNone then parser.report (.unknownMethod name) else parser
  parser.openCall (.start name entry)

/-- Opens a paragraph, after which another block follows. -/
def openParagraph (parser : Parser) : Parser :=
  (parser.openCall (.ofName paragraph)).push [.vector .paragraph, .reduce, .list]

/-- Adds a value to the innermost call. -/
def append (parser : Parser) (value : Value) : Except Fault Parser := do
  let call ← (← parser.draft.top).append value
  return { parser with draft := parser.draft.setTop call }

/-! ## Steps

Each of these functions answers whether the symbol was taken.  The state they belong to is
already off the stack. -/

/-- Takes the end of the data, or goes on with blocks. -/
def stepBody (parser : Parser) (symbol : Symbol) : Except Fault (Bool × Parser) :=
  if symbol.kind = .endOfData then .ok (true, { parser with finished := true })
  else .ok (false, parser.push [.list, .body])

/-- Opens a block: a block call, or a paragraph. -/
def stepList (parser : Parser) (symbol : Symbol) : Except Fault (Bool × Parser) :=
  match symbol.kind with
  | .endOfData => .ok (false, parser)
  | .newline => .ok (true, parser.openParagraph)
  | .directive =>
    if isBlock symbol.text then
      .ok (true, (parser.openMethod symbol.text).push [.params, .list])
    else .ok (false, parser.openParagraph)
  | _ => .ok (false, parser.openParagraph)

/-- Starts the arguments of the innermost call.  Named parameters need parentheses; without
them a vector call takes at most one argument. -/
def stepParams (parser : Parser) (symbol : Symbol) : Except Fault (Bool × Parser) := do
  match ← parser.draft.top with
  | .map name _ _ =>
    if symbol.isPunct '(' then
      return (true, parser.push [.map, .exactly (.punct ')'), .reduce])
    else return (false, (parser.report (.expectedParameterList name)).push [.reduce])
  | .vector _ _ _ =>
    if symbol.isPunct '(' then
      return (true, parser.push [.vector .paren, .exactly (.punct ')'), .reduce])
    else if startsValue symbol then return (false, parser.push [.value, .reduce])
    else return (false, parser.push [.reduce])

/-- Reads values until the enclosure ends.  The symbol that ends it is left for the state
beneath; a paragraph break inside parentheses or quotes is a blank. -/
def stepVector (parser : Parser) (enclosure : Enclosure) (symbol : Symbol) :
    Except Fault (Bool × Parser) :=
  if closes enclosure symbol then .ok (false, parser)
  else if symbol.kind = .newline then .ok (true, parser.push [.vector enclosure])
  else .ok (false, parser.push [.value, .vector enclosure])

/-- Whether the innermost call takes named parameters. -/
def inMap (parser : Parser) : Except Fault Bool := do
  match ← parser.draft.top with
  | .map _ _ _ => return true
  | .vector _ _ _ => return false

/-- Reads a value that is not left out. -/
def stepPresentValue (parser : Parser) (symbol : Symbol) : Except Fault (Bool × Parser) := do
  match symbol.kind with
  | .directive => return (true, (parser.openMethod symbol.text).push [.params])
  | .punct =>
    if symbol.isPunct '"' then
      return (true, (parser.openCall (.ofName quote)).push
        [.vector .quote, .exactly (.punct '"'), .reduce])
    else return (true, ← parser.append (.constant (.ofSymbol symbol)))
  | .text | .literal | .number | .signed | .float | .timestamp | .color | .bool =>
    return (true, ← parser.append (.constant (.ofSymbol symbol)))
  | _ => return (false, parser.report (.mismatch .value symbol))

/-- Reads a value.  The value of a parameter may be left out. -/
def stepValue (parser : Parser) (symbol : Symbol) : Except Fault (Bool × Parser) := do
  if symbol.isPunct ')' || symbol.isPunct ',' then
    if ← parser.inMap then return (false, parser)
    else parser.stepPresentValue symbol
  else parser.stepPresentValue symbol

/-- Reads the name of a parameter.  Symbols that are no name are skipped. -/
def stepMap (parser : Parser) (symbol : Symbol) : Except Fault (Bool × Parser) := do
  match symbol.kind with
  | .text =>
    match ← parser.draft.top with
    | .map name entry params =>
      let call := .map name entry (params ++ [.pending symbol.text])
      let parser := { parser with draft := parser.draft.setTop call }
      return (true, parser.push [.exactly (.punct ':'), .value, .tail])
    | .vector name _ _ => throw (.parametersOfVector name)
  | .endOfData => return (false, parser)
  | _ =>
    if symbol.isPunct ')' then return (false, parser)
    else return (true, (parser.report (.mismatch .parameterName symbol)).push [.map])

/-- Goes on with another parameter after a comma. -/
def stepTail (parser : Parser) (symbol : Symbol) : Except Fault (Bool × Parser) :=
  if symbol.isPunct ',' then .ok (true, parser.push [.map]) else .ok (false, parser)

/-- Takes the expected symbol and reports any other one. -/
def stepExactly (parser : Parser) (expected symbol : Symbol) : Except Fault (Bool × Parser) :=
  if symbol = expected then .ok (true, parser)
  else .ok (false, parser.report (.mismatch (.symbol expected) symbol))

/-- Closes the innermost call: joins punctuation in a vector call, reports and fills missing
values in a map call. -/
def stepReduce (parser : Parser) : Except Fault (Bool × Parser) := do
  let parser ← match ← parser.draft.top with
    | .vector name entry args =>
      let call := .vector name entry (Value.coalesce args)
      pure { parser with draft := parser.draft.setTop call }
    | .map name entry params =>
      let call := .map name entry (Call.fillEmpty params)
      let parser := parser.reportAll ((Call.missing entry params).map (.missingParameter name))
      let parser := parser.reportAll ((Call.pendingKeys params).map (.emptyParameter name))
      pure { parser with draft := parser.draft.setTop call }
  return (false, { parser with draft := ← parser.draft.merged })

/-- Offers a symbol to a state that is already off the stack. -/
def step (parser : Parser) (state : State) (symbol : Symbol) : Except Fault (Bool × Parser) :=
  match state with
  | .body => parser.stepBody symbol
  | .list => parser.stepList symbol
  | .params => parser.stepParams symbol
  | .vector enclosure => parser.stepVector enclosure symbol
  | .value => parser.stepValue symbol
  | .map => parser.stepMap symbol
  | .tail => parser.stepTail symbol
  | .exactly expected => parser.stepExactly expected symbol
  | .reduce => parser.stepReduce

/-- Offers a symbol once.  Marks move the position and are always taken. -/
def put (symbol : Symbol) (parser : Parser) : Except Fault (Bool × Parser) :=
  match symbol.kind with
  | .fileMark => .ok (true, { parser with position.file := symbol.text })
  | .lineMark =>
    match Text.readUInt64? symbol.text with
    | some line => .ok (true, { parser with position.line := line.toNat })
    | none => .ok (true, parser)
  | _ =>
    match parser.states with
    | [] =>
      if symbol.kind = .endOfData then .ok (true, parser)
      else .ok (true, parser.report (.afterEnd symbol))
    | state :: states => step { parser with states } state symbol

/-- Offers a symbol until it is taken, and gives up on the input at the retry limit. -/
def feed (symbol : Symbol) (parser : Parser) : Except Fault Parser := do
  if parser.abandoned then return parser
  let (taken, parser) ← offer parser.retryLimit (put symbol) parser
  if taken then return parser
  return { parser.report (.retryLimit parser.retryLimit) with abandoned := true }

/-- The declarations and the diagnostics.  Calls that are still open are dropped unless the
end of the data was reached. -/
def finish (parser : Parser) : Except Fault (List (Decl Call) × List Diagnostic) := do
  if parser.finished && !parser.abandoned then
    return (← parser.draft.finish, parser.diagnostics.toList)
  else return (parser.draft.decls.toList, parser.diagnostics.toList)

/-- Feeds an item.  Requests to include a file are ignored. -/
def feedItem (parser : Parser) : Item → Except Fault Parser
  | .symbol symbol => parser.feed symbol
  | .inclusion _ => .ok parser

end Parser
end Docpress.Document
