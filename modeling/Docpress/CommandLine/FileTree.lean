import Docpress.CommandLine.Run

/-!
# Files in memory

A directory tree that commands can run in without a disk.  Relative paths start at its top; a
directory exists if a file is in it.  Of what lies outside of the tree only the directories
are known that `..` and the root lead to.

Paths are followed the way a disk does it.  A name is looked up only in a directory, and its
length counts only when it is looked up.  A slash at the end asks for a directory, which can
never be written.
-/

namespace Docpress.CommandLine

/-- Files by the names that lead to them. -/
structure FileTree where
  files : List (List String × List UInt8) := []
deriving DecidableEq, Repr, Inhabited

/-- Where a path leads. -/
inductive Place where
  /-- the names lead there from the top of the tree -/
  | inside (names : List String)
  /-- a directory outside of the tree -/
  | above
  /-- a name in a directory outside of the tree -/
  | beside (name : String)
deriving DecidableEq, Repr, Inhabited

namespace Place

/-- Where the segments of a path start. -/
def start (path : String) : Place :=
  if Path.isAbsolute path then above else inside []

/-- The directory that the place is in. -/
def parent : Place → Place
  | inside [] => above
  | inside names => inside names.dropLast
  | above => above
  | beside _ => above

/-- A name in the place. -/
def child (place : Place) (name : String) : Place :=
  match place with
  | inside names => inside (names ++ [name])
  | above | beside _ => beside name

/-- The name of the place in its directory. -/
def name? : Place → Option String
  | inside names => names.getLast?
  | above => none
  | beside name => some name

/-- The greatest number of bytes in a name. -/
def nameLimit : Nat := 255

/-- Whether the name of the place is too long for a disk. -/
def isTooLong (place : Place) : Bool :=
  place.name?.any (nameLimit < ·.utf8ByteSize)

end Place

namespace FileTree

/-- The tree of files that are given by their paths. -/
def ofFiles (files : List (String × List UInt8)) : FileTree :=
  ⟨files.map fun (path, content) => (path.splitOn "/", content)⟩

/-- The content of a file. -/
def content? (tree : FileTree) : Place → Option (List UInt8)
  | .inside names => tree.files.lookup names
  | _ => none

/-- Whether a place is a directory. -/
def isDirectory (tree : FileTree) : Place → Bool
  | .inside names =>
    names.isEmpty || tree.files.any fun (file, _) => names.isPrefixOf file && names ≠ file
  | .above => true
  | .beside _ => false

/-- Why a place that is no directory cannot be used as one. -/
def refusal (tree : FileTree) (place : Place) : FileError :=
  if (tree.content? place).isSome then .notADirectory
  else if place.isTooLong then .nameTooLong
  else .notFound

/-- Follows the segments of a path from a place. -/
def follow (tree : FileTree) (place : Place) : List String → Except FileError Place
  | [] => .ok place
  | segment :: rest =>
    if !tree.isDirectory place then .error (tree.refusal place)
    else if segment = "" ∨ segment = "." then tree.follow place rest
    else if segment = ".." then tree.follow place.parent rest
    else tree.follow (place.child segment) rest

/-- The number of bytes that a path stays below. -/
def pathLimit : Nat := 4096

/-- The place that the segments of a path lead to. -/
def locate (tree : FileTree) (path : String) (segments : List String) :
    Except FileError Place :=
  if path = "" then .error .notFound
  else if pathLimit ≤ path.utf8ByteSize then .error .nameTooLong
  else tree.follow (.start path) segments

/-- Reads a file. -/
def read (tree : FileTree) (path : String) : Except FileError (List UInt8) := do
  let place ← tree.locate path (path.splitOn "/")
  if tree.isDirectory place then throw .isADirectory
  match tree.content? place with
  | some content => return content
  | none => throw (tree.refusal place)

/-- The tree with a file, in place of one that may be there.  Outside of the tree nothing is
kept. -/
def insert (tree : FileTree) (place : Place) (content : List UInt8) : FileTree :=
  match place with
  | .inside names => ⟨(names, content) :: tree.files.filter (·.1 ≠ names)⟩
  | _ => tree

/-- Writes a file. -/
def write (tree : FileTree) (path : String) (content : List UInt8) :
    Except FileError FileTree := do
  let segments := ((path.splitOn "/").reverse.dropWhile (· = "")).reverse
  let place ← tree.locate path segments
  if path.endsWith "/" || tree.isDirectory place then throw .isADirectory
  if place.isTooLong then throw .nameTooLong
  return tree.insert place content

/-- Access to the files of a tree. -/
def access : FileAccess (StateM FileTree) where
  read path := return (← get).read path
  write path content := do
    match (← get).write path content with
    | .error error => return .error error
    | .ok tree =>
      set tree
      return .ok ()

/-- The files that are new or have other content than before, by their paths. -/
def changedSince (tree before : FileTree) : List (String × List UInt8) :=
  (tree.files.filter fun (names, content) => before.files.lookup names ≠ some content).map
    fun (names, content) => ("/".intercalate names, content)

end FileTree
end Docpress.CommandLine
