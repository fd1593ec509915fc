import Docpress.Binary64.Reading
import Docpress.Object

/-!
# Tagged literals

Assembly text may name the type of a literal, as in `'u64:12'`.  The tags are the types of
objects that have a literal.
-/

namespace Docpress

/-- The type that a literal is given. -/
inductive TypeTag where
  | null
  | string
  | timestamp
  | color
  | bool
  | u64
  | i64
  | f64
  | uuid
deriving DecidableEq, Repr, Inhabited

namespace TypeTag

/-- The word that stands before the colon. -/
def name : TypeTag → String
  | null => "null"
  | string => "string"
  | timestamp => "timestamp"
  | color => "color"
  | bool => "bool"
  | u64 => "u64"
  | i64 => "i64"
  | f64 => "f64"
  | uuid => "uuid"

/-- All tags. -/
def all : List TypeTag :=
  [null, string, timestamp, color, bool, u64, i64, f64, uuid]

/-- The tag with the given name. -/
def ofName? (name : String) : Option TypeTag :=
  all.find? (·.name = name)

end TypeTag

/-- The object that a literal stands for under a tag. -/
def Object.ofLiteral? (tag : TypeTag) (text : String) : Option Object :=
  match tag with
  | .null => if text = "" ∨ text = "null" then some .null else none
  | .string => some (.string text)
  | .timestamp => (Timestamp.read? text).map .timestamp
  | .color => (Color.read? text).map .color
  | .bool => (Text.readBool? text).map .bool
  | .u64 => (Text.readUInt64? text).map .u64
  | .i64 => (Text.readInt64? text).map .i64
  | .f64 => (Binary64.read? text).map .f64
  | .uuid => (Identifier.read? text).map .uuid

end Docpress
