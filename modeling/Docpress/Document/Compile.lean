import Docpress.Document.Code
import Docpress.Document.Parser
import Docpress.Document.Scanner

/-!
# Compiling documents

From the text of a document to assembly text, with included files spliced in.  Where the
content of an included file comes from is left to a finder, which may have effects of its
own: it may read a disk or remember what it was asked.
-/

namespace Docpress.Document

/-- The name and the content of a file. -/
structure Source where
  name : String
  text : String
deriving DecidableEq, Repr, Inhabited

/-- Finds the file for a path that a document includes at a position. -/
abbrev SourceFinder (m : Type → Type) := String → Position → m (Option Source)

/-- A compiled document. -/
structure Compilation where
  decls : List (Decl Call)
  assembly : String
  diagnostics : List Diagnostic

/-- How a document is compiled. -/
structure Options where
  /-- how often a symbol may be offered to the parser -/
  retryLimit : Nat := 1024
  /-- name the place of every declaration in a comment -/
  annotate : Bool := false
  /-- how deep includes may be nested -/
  maxIncludeDepth : Nat := 16
deriving DecidableEq, Repr, Inhabited

variable {m : Type → Type} [Monad m]

/-- A result that needs no effects. -/
def liftFault {α : Type} (result : Except Fault α) : ExceptT Fault m α :=
  ExceptT.mk (pure result)

/-- Feeds the symbols of a file.  Only the outermost file ends the document. -/
def feedFile (splice : String → Parser → ExceptT Fault m Parser) (outermost : Bool)
    (items : List Item) (parser : Parser) : ExceptT Fault m Parser :=
  items.foldlM (fun parser item =>
    match item with
    | .inclusion path => splice path parser
    | .symbol symbol =>
      if !outermost && symbol.kind = .endOfData then pure parser
      else liftFault (parser.feed symbol)) parser

/-- Splices in the file for a path, where `levels` more levels of includes are allowed.  Marks
around it tell the parser which file and line the symbols come from. -/
def splice (find : SourceFinder m) (maxIncludeDepth : Nat) :
    (levels : Nat) → String → Parser → ExceptT Fault m Parser
  | 0, _, parser => pure (parser.report (.includeDepth maxIncludeDepth))
  | levels + 1, path, parser => do
    let origin := parser.position
    match ← (find path origin : m (Option Source)) with
    | none => pure (parser.report (.includeFailed path))
    | some source =>
      let parser ← liftFault (parser.feed (.fileMark source.name))
      let items ← liftFault (lexContinuation source.text)
      let parser ← feedFile (splice find maxIncludeDepth levels) false items parser
      let parser ← liftFault (parser.feed (.fileMark origin.file))
      liftFault (parser.feed (.lineMark origin.line))

/-- The declarations of a document and what is wrong with it. -/
def parse (find : SourceFinder m) (options : Options) (file text : String) :
    ExceptT Fault m (List (Decl Call) × List Diagnostic) := do
  let items ← liftFault (lex text)
  let depth := options.maxIncludeDepth
  let parser ← feedFile (splice find depth depth) true items
    (.start file options.retryLimit)
  liftFault parser.finish

/-- Compiles a document.  The file is the one that positions name. -/
def compile (find : SourceFinder m) (options : Options) (file text : String) :
    ExceptT Fault m Compilation := do
  let (decls, diagnostics) ← parse find options file text
  let assembly ← liftFault (generate options.annotate decls)
  return { decls, assembly, diagnostics }

end Docpress.Document
