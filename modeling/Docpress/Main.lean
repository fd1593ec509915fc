import Docpress.CommandLine.Run

/-!
# The program

Runs the command line on the disk.
-/

namespace Docpress

open CommandLine

/-- The reason for which the operating system refused a file. -/
def fileErrorOf (error : IO.Error) : FileError :=
  match error with
  | .noFileOrDirectory _ _ _ => .notFound
  | .noSuchThing _ _ _ => .notFound
  | .inappropriateType _ _ details =>
    if details.toLower.startsWith "not" then .notADirectory else .isADirectory
  | .invalidArgument _ _ details =>
    if details.endsWith "name too long" then .nameTooLong else .other (toString error)
  | .permissionDenied _ _ _ => .permissionDenied
  | error => .other (toString error)

/-- Access to the files of the disk. -/
def diskAccess : FileAccess IO where
  read path := do
    try
      return .ok (← IO.FS.readBinFile path).data.toList
    catch error => return .error (fileErrorOf error)
  write path content := do
    try
      IO.FS.writeBinFile path ⟨content.toArray⟩
      return .ok ()
    catch error => return .error (fileErrorOf error)

end Docpress

/-- Runs the command that the arguments make, prints its output, and exits with its code. -/
def main (arguments : List String) : IO UInt32 := do
  let outcome ← Docpress.CommandLine.run Docpress.diskAccess arguments
  (← IO.getStdout).putStr outcome.output
  (← IO.getStderr).putStr outcome.errors
  return .ofNat outcome.code
