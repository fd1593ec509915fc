/-!
# Descriptions of structured values

Messages describe a value by naming its variant and listing what it holds.  A variant holds
unnamed parts in parentheses, a record named fields in braces.
-/

namespace Docpress.Text

/-- A variant with its parts. -/
def variant (name : String) (parts : List String) : String :=
  name ++ "(" ++ ", ".intercalate parts ++ ")"

/-- A record with its fields. -/
def record (name : String) (fields : List (String × String)) : String :=
  let shown := fields.map fun (field, value) => field ++ ": " ++ value
  name ++ " \x7b " ++ ", ".intercalate shown ++ " \x7d"

/-- A value that may be missing. -/
def optional (value : Option String) : String :=
  match value with
  | some value => variant "Some" [value]
  | none => "None"

end Docpress.Text
