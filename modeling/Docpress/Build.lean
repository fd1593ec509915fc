import Docpress.Assembly.Program
import Docpress.Document.Compile

/-!
# Building

From a document straight to an object stream.
-/

namespace Docpress

/-- A document compiled and assembled. -/
structure Build where
  document : Document.Compilation
  /-- the assembled program, with the diagnostics of both stages -/
  program : Assembly.Program

variable {m : Type → Type} [Monad m]

/-- Compiles a document and assembles the result.  The diagnostics of the assembler follow
those of the document. -/
def build (find : Document.SourceFinder m) (options : Document.Options)
    (functions : Assembly.FunctionTable) (file text : String) : ExceptT Fault m Build := do
  let document ← Document.compile find options file text
  let program ← Document.liftFault
    (Assembly.assemble (file ++ ".asm") document.assembly options.retryLimit functions)
  let diagnostics := document.diagnostics ++ program.diagnostics
  return { document, program := { program with diagnostics } }

end Docpress
