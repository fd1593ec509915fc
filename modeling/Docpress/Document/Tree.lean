import Docpress.Document.Catalogue
import Docpress.Draft

/-!
# Document trees

A document is a list of calls.  A call has arguments in order or named parameters, and these
are constants or calls in turn.

Two transformations belong to closing a call: in a vector call, punctuation marks are joined
with the argument before them (`coalesce`), and in a map call, parameters without a value get
an empty text (`fillEmpty`).
-/

namespace Docpress.Document

/-! ## Constants -/

/-- The value of a constant. -/
inductive Payload where
  | string (text : String)
  | bool (value : Bool)
  | unsigned (value : UInt64)
  | signed (value : Int64)
  | float (value : Binary64)
  | timestamp (time : Timestamp)
  | color (color : Color)
deriving DecidableEq, Repr, Inhabited

/-- A constant with the text it was written as. -/
structure Constant where
  literal : String
  payload : Payload
deriving DecidableEq, Repr, Inhabited

namespace Constant

/-- A text. -/
def string (text : String) : Constant := ⟨text, .string text⟩

/-- The value that the text of a symbol has by the symbol's kind, if it has one. -/
def payload? (symbol : Symbol) : Option Payload :=
  match symbol.kind with
  | .number => (Text.readUInt64? symbol.text).map .unsigned
  | .signed => (Text.readInt64? symbol.text).map .signed
  | .float => (Binary64.read? symbol.text).map .float
  | .bool => (Text.readBool? symbol.text).map .bool
  | .timestamp => (Timestamp.read? symbol.text).map .timestamp
  | .color => (Color.read? symbol.text).map .color
  | _ => none

/-- The constant that a symbol stands for.  What cannot be read by its kind is a text. -/
def ofSymbol (symbol : Symbol) : Constant :=
  ⟨symbol.text, (payload? symbol).getD (.string symbol.text)⟩

/-- Whether the constant is a mark that joins the word before it. -/
def isPunctuation (constant : Constant) : Bool :=
  match constant.payload with
  | .string text => [".", ",", ";", "?", "!"].contains text
  | _ => false

/-- In a parameter the words `true` and `false` are truth values. -/
def asParameter (constant : Constant) : Constant :=
  match constant.payload, constant.literal with
  | .string _, "true" => { constant with payload := .bool true }
  | .string _, "false" => { constant with payload := .bool false }
  | _, _ => constant

end Constant

/-! ## Calls -/

mutual

/-- An argument, or the value of a parameter. -/
inductive Value where
  | constant (constant : Constant)
  | call (call : Call)

/-- A call of a method, with the entry that the catalogue has for it. -/
inductive Call where
  | vector (name : String) (entry : Option Entry) (args : List Value)
  | map (name : String) (entry : Option Entry) (params : List Param)

/-- A named parameter. -/
inductive Param where
  /-- the value is still to come -/
  | pending (key : String)
  | bound (key : String) (value : Value)

end

namespace Param

/-- The name of the parameter. -/
def key : Param → String
  | pending key => key
  | bound key _ => key

/-- Whether the parameter has its value. -/
def isBound : Param → Bool
  | pending _ => false
  | bound _ _ => true

/-- Gives an empty text to a parameter without a value. -/
def filled : Param → Param
  | pending key => bound key (.constant (.string ""))
  | param => param

end Param

namespace Value

/-- Whether the value is a mark that joins the word before it. -/
def isPunctuation : Value → Bool
  | constant c => c.isPunctuation
  | call _ => false

/-- The value as a parameter holds it: quoted text becomes a range, and the words `true` and
`false` become truth values. -/
def asParameter : Value → Value
  | constant c => constant c.asParameter
  | call (.vector name entry args) =>
    if name = quote then call (.vector range (lookup? range) args)
    else call (.vector name entry args)
  | call (.map name entry params) => call (.map name entry params)

/-- Two values joined without a gap. -/
def join (left right : Value) : Value :=
  call (.vector cat (lookup? cat) [left, right])

/-- The arguments that follow `current`, with every mark joined to what stands before it. -/
def coalesceAfter (current : Value) : List Value → List Value
  | [] => [current]
  | arg :: rest =>
    if arg.isPunctuation then coalesceAfter (join current arg) rest
    else current :: coalesceAfter arg rest

/-- Joins every punctuation mark that is not the first argument to the argument before it. -/
def coalesce : List Value → List Value
  | [] => []
  | first :: rest => coalesceAfter first rest

end Value

namespace Call

/-- A call without arguments, in the style of the entry.  Methods without an entry take a
vector. -/
def start (name : String) (entry : Option Entry) : Call :=
  match entry with
  | some ⟨_, .map, _, _⟩ => .map name entry []
  | _ => .vector name entry []

/-- A call of a method, without arguments. -/
def ofName (name : String) : Call :=
  start name (lookup? name)

/-- The name of the method. -/
def name : Call → String
  | vector name _ _ => name
  | map name _ _ => name

/-- Binds the value to the last parameter, unless there is none that waits for it. -/
def bindLast? : List Param → Value → Option (List Param)
  | [], _ => none
  | [.pending key], value => some [.bound key value]
  | [.bound _ _], _ => none
  | param :: rest, value => (bindLast? rest value).map (param :: ·)

/-- Adds an argument, or the value of the parameter that was named last. -/
def append (call : Call) (value : Value) : Except Fault Call :=
  match call with
  | vector name entry args => .ok (vector name entry (args ++ [value]))
  | map name entry params =>
    match bindLast? params value.asParameter with
    | some params => .ok (map name entry params)
    | none => .error (.valueWithoutKey name)

/-- The required parameters that are not named. -/
def missing (entry : Option Entry) (params : List Param) : List String :=
  match entry with
  | some entry => entry.required.filter fun name => !params.any (·.key = name)
  | none => []

/-- The names of the parameters without a value. -/
def pendingKeys (params : List Param) : List String :=
  (params.filter (!·.isBound)).map Param.key

/-- Gives an empty text to all parameters without a value. -/
def fillEmpty (params : List Param) : List Param :=
  params.map Param.filled

/-- Whether all parameters have their values. -/
def isComplete (params : List Param) : Bool :=
  params.all Param.isBound

/-- Whether the call is a paragraph with nothing in it. -/
def isVacuous (name : String) (args : List Value) : Bool :=
  name = paragraph && args.isEmpty

instance : Construct Call where
  attach parent child := parent.append (.call child)

end Call

/-! ## Sizes -/

mutual

/-- The number of instructions that push the value. -/
def Value.size : Value → Nat
  | .constant _ => 1
  | .call call => call.size

/-- The number of instructions that make up the call. -/
def Call.size : Call → Nat
  | .vector name _ args => if Call.isVacuous name args then 0 else 6 + Value.totalSize args
  | .map _ _ params => 4 + Param.totalSize params

/-- The number of instructions that bind the parameter. -/
def Param.size : Param → Nat
  | .pending _ => 3
  | .bound _ value => 2 + value.size

/-- The number of instructions that push the values. -/
def Value.totalSize : List Value → Nat
  | [] => 0
  | value :: rest => value.size + Value.totalSize rest

/-- The number of instructions that bind the parameters. -/
def Param.totalSize : List Param → Nat
  | [] => 0
  | param :: rest => param.size + Param.totalSize rest

end

end Docpress.Document
