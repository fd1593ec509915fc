/-!
# Paths

Paths are texts with slashes.  They are combined as texts, so that messages show them the way
they were put together.
-/

namespace Docpress.CommandLine.Path

/-- Whether the path starts at the root. -/
def isAbsolute (path : String) : Bool :=
  path.startsWith "/"

/-- The parts between the slashes, without the root. -/
def segments (path : String) : List String :=
  if isAbsolute path then ((path.drop 1).toString.splitOn "/") else path.splitOn "/"

/-- Whether a segment leads anywhere.  Empty ones and dots do not, except for a dot at the start
of a relative path. -/
def isStep (absolute : Bool) (segment : Nat × String) : Bool :=
  segment.2 ≠ "" && (segment.2 ≠ "." || (segment.1 = 0 && !absolute))

/-- The directory that a path is in.  The root and the empty path are in none. -/
def parent? (path : String) : Option String :=
  let absolute := isAbsolute path
  let parts := (List.range (segments path).length).zip (segments path)
  let skipIdle := fun (parts : List (Nat × String)) => parts.dropWhile (!isStep absolute ·)
  match skipIdle parts.reverse with
  | [] => none
  | _ :: rest =>
    let directory := "/".intercalate ((skipIdle rest).reverse.map (·.2))
    some (if absolute then "/" ++ directory else directory)

/-- The path as seen from the directory. -/
def join (directory path : String) : String :=
  if isAbsolute path || directory = "" then path
  else if directory.endsWith "/" then directory ++ path
  else directory ++ "/" ++ path

/-- The name of a file up to the last dot and without it.  A dot at the start of the name does
not count. -/
def stem (name : List Char) : List Char :=
  match name.reverse.dropWhile (· ≠ '.') with
  | [] => name
  | [_] => name
  | _ :: rest => rest.reverse

/-- The name of a file with another extension.  What is left of a name such as `..x` without
its extension are two dots; they name a directory and get none. -/
def renamed (name : List Char) (extension : String) : List Char :=
  if stem name = ['.'] then name.take 2 else stem name ++ '.' :: extension.toList

/-- The path of a file with another extension. -/
def withExtension (path extension : String) : String :=
  let reversed := path.toList.reverse
  let name := (reversed.takeWhile (· ≠ '/')).reverse
  let directory := (reversed.dropWhile (· ≠ '/')).reverse
  String.ofList (directory ++ renamed name extension)

end Docpress.CommandLine.Path
