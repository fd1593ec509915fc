import Docpress.Binary64.Shortest
import Docpress.Color
import Docpress.Identifier
import Docpress.Opcode
import Docpress.Text.Quoted
import Docpress.Text.Structure
import Docpress.Timestamp

/-!
# Objects

An assembled program is a flat stream of objects: instructions, each followed by its operand
if it takes one.
-/

namespace Docpress

/-- A member of the object stream. -/
inductive Object where
  | op (op : Opcode)
  | null
  | string (text : String)
  | timestamp (time : Timestamp)
  | color (color : Color)
  | bool (value : Bool)
  | u64 (value : UInt64)
  | i64 (value : Int64)
  | f64 (value : Binary64)
  | uuid (id : Identifier)
deriving DecidableEq, Repr, Inhabited

namespace Object

/-- The form in which listings show an object. -/
def text : Object → String
  | op o => o.mnemonic
  | null => "null"
  | string s => Text.quoted s
  | timestamp t => "@" ++ t.text
  | color c => c.text
  | bool b => if b then "true" else "false"
  | u64 n => Text.decimal n.toNat ++ "u64"
  | i64 n => Text.signedDecimal n.toInt ++ "i64"
  | f64 x => x.text
  | uuid id => id.text

/-- The form in which messages describe an object, with all its fields. -/
def description : Object → String
  | op o => Text.variant "Op" [o.title]
  | null => "Null"
  | string s => Text.variant "String" [Text.quoted s]
  | timestamp t =>
    let number := Text.decimal
    Text.variant "Timestamp" [Text.record "Timestamp"
      [("year", number t.year.toNat), ("month", number t.month.toNat),
       ("day", number t.day.toNat), ("hour", number t.hour.toNat),
       ("minute", number t.minute.toNat), ("second", number t.second.toNat),
       ("nanos", number t.nanos.toNat)]]
  | color c =>
    let number := Text.decimal
    Text.variant "Color" [Text.record "Color"
      [("r", number c.red.toNat), ("g", number c.green.toNat),
       ("b", number c.blue.toNat), ("a", number c.alpha.toNat)]]
  | bool b => Text.variant "Bool" [if b then "true" else "false"]
  | u64 n => Text.variant "U64" [Text.decimal n.toNat]
  | i64 n => Text.variant "I64" [Text.signedDecimal n.toInt]
  | f64 x => Text.variant "F64" [Text.variant "OrderedFloat" [x.text]]
  | uuid id => Text.variant "Uuid" [Text.decimal id.toNat]

end Object
end Docpress
