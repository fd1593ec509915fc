import Docpress.Assembly.Layout
import Docpress.Assembly.Parser
import Docpress.Assembly.Scanner
import Docpress.Object.Stream

/-!
# Assembling

From assembly text to an object stream.
-/

namespace Docpress.Assembly

/-- An assembled program. -/
structure Program where
  decls : List (Decl Statement)
  labels : Labels
  objects : List Object
  /-- the bytes of the object stream -/
  bytecode : List UInt8
  diagnostics : List Diagnostic

/-- The statements of assembly text and what is wrong with it. -/
def parse (file text : String) (retryLimit : Nat) (functions : FunctionTable) :
    Except Fault (List (Decl Statement) × List Diagnostic) := do
  parseItems (.start file retryLimit functions) (← lex text)

/-- Lays out statements and writes their objects. -/
def Program.ofStatements (decls : List (Decl Statement)) (diagnostics : List Diagnostic) :
    Program :=
  let (labels, duplicates) := labelsOf decls
  let (objects, unresolved) := objectsOf labels decls
  { decls, labels, objects
    bytecode := Object.encodeAll objects
    diagnostics := diagnostics ++ duplicates ++ unresolved }

/-- Assembles a text.  The file is the one that positions name. -/
def assemble (file text : String) (retryLimit : Nat) (functions : FunctionTable) :
    Except Fault Program := do
  let (decls, diagnostics) ← parse file text retryLimit functions
  return .ofStatements decls diagnostics

end Docpress.Assembly
