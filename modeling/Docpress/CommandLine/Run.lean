import Docpress.Build
import Docpress.CommandLine.Arguments
import Docpress.CommandLine.Path

/-!
# Running commands

A command reads its input, writes its result, and reports what was wrong.  It reaches files
only through a `FileAccess`, so it runs on a disk as well as in memory.
-/

namespace Docpress.CommandLine

/-- Why a file cannot be read or written. -/
inductive FileError where
  | notFound
  | permissionDenied
  | notADirectory
  | isADirectory
  | nameTooLong
  /-- the content is no text -/
  | notText
  | other (reason : String)
deriving DecidableEq, Repr, Inhabited

/-- The reason in words. -/
def FileError.message : FileError → String
  | notFound => "No such file or directory (os error 2)"
  | permissionDenied => "Permission denied (os error 13)"
  | notADirectory => "Not a directory (os error 20)"
  | isADirectory => "Is a directory (os error 21)"
  | nameTooLong => "File name too long (os error 36)"
  | notText => "stream did not contain valid UTF-8"
  | other reason => reason

/-- Reading and writing files. -/
structure FileAccess (m : Type → Type) where
  read : String → m (Except FileError (List UInt8))
  write : String → List UInt8 → m (Except FileError Unit)

/-- What a command leaves behind, besides files. -/
structure Outcome where
  code : Nat
  output : String := ""
  errors : String := ""
deriving DecidableEq, Repr, Inhabited

namespace Outcome

/-- A command that could not do its work. -/
def failure (output : String) (message : String) : Outcome :=
  { code := 1, output, errors := "Error: " ++ message ++ "\n" }

/-- A command that met with a fault.  An overflow aborts the whole program. -/
def stopped : Fault → Outcome
  | .overflow operation => { code := 101, errors := (Fault.overflow operation).message ++ "\n" }
  | fault => failure "" fault.message

/-- A command that could not use a file. -/
def fileFailure (output action path : String) (error : FileError) : Outcome :=
  failure output s!"cannot {action} {path}\n\nCaused by:\n    {error.message}"

/-- A command that did its work.  It fails if an error is among the diagnostics. -/
def reported (output : String) (diagnostics : List Diagnostic) : Outcome :=
  { code := if Diagnostic.anyError diagnostics then 1 else 0
    output
    errors := String.join (diagnostics.map fun diagnostic => diagnostic.text ++ "\n") }

end Outcome

variable {m : Type → Type} [Monad m] (files : FileAccess m)

/-- Reads a file that holds text. -/
def readText (path : String) : m (Except FileError String) := do
  match ← files.read path with
  | .error error => return .error error
  | .ok content =>
    match String.fromUTF8? ⟨content.toArray⟩ with
    | some text => return .ok text
    | none => return .error .notText

/-! ## Includes -/

/-- The places where an included file is looked for: beside the file that includes it, then in
the given directories. -/
def includeCandidates (directories : List String) (path : String) (origin : Position) :
    List String :=
  if Path.isAbsolute path then [path]
  else
    let beside := match Path.parent? origin.file with
      | some directory => Path.join directory path
      | none => path
    beside :: directories.map (Path.join · path)

/-- The first of the files that can be read. -/
def firstReadable : List String → m (Option Document.Source)
  | [] => return none
  | path :: rest => do
    match ← readText files path with
    | .ok text => return some { name := path, text }
    | .error _ => firstReadable rest

/-- Finds included files by path. -/
def includeFinder (directories : List String) : Document.SourceFinder m := fun path origin =>
  firstReadable files (includeCandidates directories path origin)

/-! ## Commands -/

/-- Writes a file and then reports. -/
def writeAndReport (path : String) (content : List UInt8) (output : String)
    (diagnostics : List Diagnostic) : m Outcome := do
  match ← files.write path content with
  | .ok () => return .reported output diagnostics
  | .error error => return .fileFailure output "write" path error

/-- Writes the object stream, by default beside the input. -/
def writeProgram (request : Request) (input : String) (program : Assembly.Program) :
    m Outcome := do
  let output := if request.listing then Assembly.listing program.decls program.labels else ""
  let path := request.output.getD (Path.withExtension input "dco")
  writeAndReport files path program.bytecode output program.diagnostics

/-- Makes the target of an input that was read. -/
def make (target : Target) (request : Request) (input text : String) : m Outcome := do
  let standard : Document.Options := {}
  let retryLimit := request.retryLimit.getD standard.retryLimit
  let options : Document.Options := { retryLimit, annotate := request.annotate }
  let find := includeFinder files request.includeDirs
  match target with
  | .script =>
    match ← (Document.compile find options input text).run with
    | .error fault => return .stopped fault
    | .ok document =>
      match request.output with
      | none => return .reported document.assembly document.diagnostics
      | some path =>
        writeAndReport files path document.assembly.toUTF8.data.toList "" document.diagnostics
  | .asm =>
    match Assembly.assemble input text retryLimit request.functions with
    | .error fault => return .stopped fault
    | .ok program => writeProgram files request input program
  | .build =>
    match ← (build find options request.functions input text).run with
    | .error fault => return .stopped fault
    | .ok result => writeProgram files request input result.program

/-- The name and the version of the program. -/
def versionText : String := "docc 0.1.0\n"

/-- How the program is used. -/
def helpText : String :=
  "Usage: docc [-v] [--retry-limit N] script|asm|build INPUT [OPTIONS]\n\n" ++
  "  -o, --output PATH       where the result is written\n" ++
  "  -I, --include DIR       search a directory for included files (script, build)\n" ++
  "      --annotate          name the source of every construct (script, build)\n" ++
  "  -l, --listing           print the offset of every object (asm, build)\n" ++
  "  -f, --function NAME=ID  give a number to a function (asm, build)\n"

/-- Runs the command that the arguments make. -/
def run (arguments : List String) : m Outcome := do
  match Command.ofArguments arguments with
  | .error error => return { code := 2, errors := "error: " ++ error.message ++ "\n" }
  | .ok .version => return { code := 0, output := versionText }
  | .ok .help => return { code := 0, output := helpText }
  | .ok (.run target request) =>
    let input := request.input.getD ""
    match ← readText files input with
    | .error error => return .fileFailure "" "read" input error
    | .ok text => make files target request input text

end Docpress.CommandLine
