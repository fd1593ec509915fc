/-!
# The catalogue of methods

The methods that documents can call.  A method takes its arguments in a vector or as named
parameters; a call of a block method ends the running paragraph.
-/

namespace Docpress.Document

/-- How a method takes its arguments. -/
inductive Style where
  /-- arguments in order -/
  | vector
  /-- named parameters -/
  | map
deriving DecidableEq, Repr, Inhabited

/-- What the catalogue says about a method. -/
structure Entry where
  name : String
  style : Style
  /-- a call ends the running paragraph -/
  block : Bool
  /-- the parameters that a call has to name -/
  required : List String
deriving DecidableEq, Repr, Inhabited

/-- The method that a run of text stands for. -/
def paragraph : String := "paragraph"

/-- The method that text in double quotes stands for. -/
def quote : String := "quote"

/-- The method that text in double quotes stands for as the value of a parameter. -/
def range : String := "range"

/-- The method that joins two arguments without a gap. -/
def cat : String := "cat"

/-- All methods. -/
def catalogue : List Entry :=
  [⟨paragraph, .vector, true, []⟩,
   ⟨quote, .vector, false, []⟩,
   ⟨range, .vector, false, []⟩,
   ⟨cat, .vector, false, []⟩,
   ⟨"h1", .vector, true, []⟩,
   ⟨"h2", .vector, true, []⟩,
   ⟨"h3", .vector, true, []⟩,
   ⟨"h4", .vector, true, []⟩,
   ⟨"h5", .vector, true, []⟩,
   ⟨"h6", .vector, true, []⟩,
   ⟨"toc", .vector, true, []⟩,
   ⟨"note", .vector, true, []⟩,
   ⟨"itemize", .vector, true, []⟩,
   ⟨"enumerate", .vector, true, []⟩,
   ⟨"blockquote", .vector, true, []⟩,
   ⟨"b", .vector, false, []⟩,
   ⟨"bold", .vector, false, []⟩,
   ⟨"i", .vector, false, []⟩,
   ⟨"italic", .vector, false, []⟩,
   ⟨"tt", .vector, false, []⟩,
   ⟨"mono", .vector, false, []⟩,
   ⟨"em", .vector, false, []⟩,
   ⟨"sub", .vector, false, []⟩,
   ⟨"sup", .vector, false, []⟩,
   ⟨"strike", .vector, false, []⟩,
   ⟨"mark", .vector, false, []⟩,
   ⟨"kbd", .vector, false, []⟩,
   ⟨"fn", .vector, false, []⟩,
   ⟨"now", .vector, false, []⟩,
   ⟨"header", .map, true, ["title", "level", "tag"]⟩,
   ⟨"figure", .map, true, ["caption", "source"]⟩,
   ⟨"code", .map, true, ["source"]⟩,
   ⟨"table", .map, true, ["source"]⟩,
   ⟨"alert", .map, true, ["level"]⟩,
   ⟨"meta", .map, true, []⟩,
   ⟨"def", .map, true, []⟩,
   ⟨"link", .map, false, ["text", "url"]⟩,
   ⟨"ref", .map, false, ["id"]⟩,
   ⟨"color", .map, false, ["value"]⟩]

/-- The entry of a method. -/
def lookup? (name : String) : Option Entry :=
  catalogue.find? (·.name = name)

/-- Whether a call of the method ends the running paragraph.  Methods that are not in the
catalogue do not. -/
def isBlock (name : String) : Bool :=
  match lookup? name with
  | some entry => entry.block
  | none => false

end Docpress.Document
