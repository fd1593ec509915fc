import Docpress.Object.Literal
import Docpress.Symbol

/-!
# Diagnostics

What the author of a document or of assembly text got wrong, and where.  A diagnostic never
stops the work; one of severity `error` only makes the command line fail in the end.
-/

namespace Docpress

/-- A line of a file. -/
structure Position where
  file : String
  line : Nat
deriving DecidableEq, Repr, Inhabited

namespace Position

/-- The first line of a file. -/
def start (file : String) : Position := ⟨file, 1⟩

/-- The file with the line in parentheses. -/
def text (position : Position) : String :=
  position.file ++ "(" ++ Text.decimal position.line ++ ")"

end Position

/-- How bad a diagnostic is. -/
inductive Severity where
  | warning
  | error
deriving DecidableEq, Repr, Inhabited

/-- The name of the severity. -/
def Severity.name : Severity → String
  | warning => "warning"
  | error => "error"

/-- What a parser was waiting for. -/
inductive Expectation where
  | value
  | parameterName
  | symbol (symbol : Symbol)
  | statement
  | argument (directive : String)
  | endOfLine
deriving DecidableEq, Repr, Inhabited

/-- The expectation in words. -/
def Expectation.text : Expectation → String
  | value => "a value"
  | parameterName => "a parameter name"
  | symbol s => s.display
  | statement => "an instruction or a label"
  | argument directive => "an argument for ." ++ directive
  | endOfLine => "the end of the line"

/-- What was wrong. -/
inductive Cause where
  | mismatch (expected : Expectation) (found : Symbol)
  | unknownMethod (name : String)
  | expectedParameterList (method : String)
  | missingParameter (method param : String)
  | emptyParameter (method param : String)
  | unknownInstruction (name : String)
  | unknownDirective (name : String)
  | missingOperand (op : Opcode)
  | invalidLiteral (tag : TypeTag) (text : String)
  | duplicateLabel (name : String)
  | unresolvedLabel (name : String)
  | retryLimit (limit : Nat)
  | includeFailed (path : String)
  | includeDepth (limit : Nat)
  | afterEnd (symbol : Symbol)
deriving DecidableEq, Repr, Inhabited

namespace Cause

/-- The severity of the cause. -/
def severity : Cause → Severity
  | unknownMethod _ | missingParameter _ _ | emptyParameter _ _ | duplicateLabel _
  | afterEnd _ => .warning
  | _ => .error

/-- The cause in words. -/
def message : Cause → String
  | mismatch expected found => s!"expected {expected.text}, found {found.display}"
  | unknownMethod name => s!"unknown method '{name}', treated as an inline vector"
  | expectedParameterList method => s!"method '{method}' takes named parameters in parentheses"
  | missingParameter method param =>
    s!"method '{method}' is missing the required parameter '{param}'"
  | emptyParameter method param =>
    s!"parameter '{param}' of method '{method}' has no value, using an empty string"
  | unknownInstruction name => s!"unknown instruction '{name}'"
  | unknownDirective name => s!"unknown directive '.{name}'"
  | missingOperand op => s!"'{op.mnemonic}' needs an operand"
  | invalidLiteral tag text => s!"'{text}' is not a valid {tag.name}"
  | duplicateLabel name => s!"label '{name}' is already defined, keeping the first definition"
  | unresolvedLabel name => s!"label '{name}' is never defined, using offset 0"
  | retryLimit limit =>
    s!"gave up on the input after {limit} attempts to place the same symbol"
  | includeFailed path => s!"cannot include '{path}'"
  | includeDepth limit => s!"includes are nested deeper than {limit} levels"
  | afterEnd symbol => s!"{symbol.display} after the end of data is ignored"

end Cause

/-- A cause and the place where it was noticed. -/
structure Diagnostic where
  position : Position
  cause : Cause
deriving DecidableEq, Repr, Inhabited

namespace Diagnostic

/-- The severity of the cause. -/
def severity (diagnostic : Diagnostic) : Severity :=
  diagnostic.cause.severity

/-- The line that reports the diagnostic. -/
def text (diagnostic : Diagnostic) : String :=
  s!"{diagnostic.position.text}: {diagnostic.severity.name}: {diagnostic.cause.message}"

/-- Whether some of the diagnostics are errors. -/
def anyError (diagnostics : List Diagnostic) : Bool :=
  diagnostics.any (·.severity = .error)

end Diagnostic
end Docpress
