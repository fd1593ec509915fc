import Docpress.Text.Numeral

/-!
# Timestamps

The literal `YYYY-MM-DDThh:mm:ss[.fraction][Z]`, or a date alone, which means midnight.

`Timestamp.shape` says how far a text is from being a timestamp, so that a scanner can decide
after every character whether to go on.  `Timestamp.read?` also checks that every field is in
range.
-/

namespace Docpress

/-- A point in time, to the nanosecond.  The fields are not tied to the calendar; those that
`Timestamp.read?` returns are. -/
structure Timestamp where
  year : UInt16
  month : UInt8
  day : UInt8
  hour : UInt8
  minute : UInt8
  second : UInt8
  nanos : UInt32
deriving DecidableEq, Repr, Inhabited

namespace Timestamp

/-! ## Shapes -/

/-- How far a text is from being a timestamp. -/
inductive Shape where
  /-- no continuation makes this a timestamp -/
  | hopeless
  /-- some continuation does -/
  | unfinished
  /-- a timestamp as it stands, which may still be continued -/
  | whole
deriving DecidableEq, Repr, Inhabited

/-- A date and a time, `d` standing for a digit. -/
def template : List Char :=
  "dddd-dd-ddTdd:dd:dd".toList

/-- The length of a date. -/
def dateLength : Nat := 10

/-- The greatest number of fraction digits. -/
def maxFractionDigits : Nat := 9

/-- Whether a character may stand at a place of the template. -/
def fits (place c : Char) : Bool :=
  if place = 'd' then c.isDigit else c == place

/-- The shape of what follows a date and a time. -/
def tailShape : List Char → Shape
  | [] => .whole
  | ['Z'] => .whole
  | '.' :: rest =>
    let digits := rest.takeWhile Char.isDigit
    if maxFractionDigits < digits.length then .hopeless
    else
      match rest.dropWhile Char.isDigit, digits.isEmpty with
      | [], true => .unfinished
      | [], false => .whole
      | ['Z'], false => .whole
      | _, _ => .hopeless
  | _ => .hopeless

/-- The shape of a text. -/
def shape (text : List Char) : Shape :=
  if !(template.zipWith fits text).all id then .hopeless
  else if text.length < template.length then
    if text.length = dateLength then .whole else .unfinished
  else tailShape (text.drop template.length)

/-! ## Reading -/

/-- The number of days of a month in the proleptic Gregorian calendar. -/
def daysInMonth (year month : Nat) : Nat :=
  if month = 2 then
    if year % 4 = 0 ∧ (year % 100 ≠ 0 ∨ year % 400 = 0) then 29 else 28
  else if month = 4 ∨ month = 6 ∨ month = 9 ∨ month = 11 then 30
  else 31

/-- Reads a timestamp whose fields are in range. -/
def readChars? (text : List Char) : Option Timestamp :=
  if shape text ≠ .whole then none
  else
    let field (start length : Nat) := Text.ofDigits 10 ((text.drop start).take length)
    let year := field 0 4
    let month := field 5 2
    let day := field 8 2
    let hour := field 11 2
    let minute := field 14 2
    let second := field 17 2
    let fraction := (text.drop 20).takeWhile Char.isDigit
    let nanos :=
      Text.ofDigits 10 fraction * Nat.pow 10 (maxFractionDigits - fraction.length)
    if 1 ≤ month ∧ month ≤ 12 ∧ 1 ≤ day ∧ day ≤ daysInMonth year month ∧
        hour < 24 ∧ minute < 60 ∧ second < 60 then
      some {
        year := .ofNat year, month := .ofNat month, day := .ofNat day,
        hour := .ofNat hour, minute := .ofNat minute, second := .ofNat second,
        nanos := .ofNat nanos }
    else none

/-- Reads a timestamp whose fields are in range. -/
def read? (text : String) : Option Timestamp :=
  readChars? text.toList

/-! ## Writing -/

/-- The fraction of a second without trailing zeros, and nothing for a whole second. -/
def fractionText (nanos : Nat) : String :=
  if nanos = 0 then ""
  else
    let digits := Text.padZeros maxFractionDigits (Text.decimalDigits nanos)
    String.ofList ('.' :: (digits.reverse.dropWhile (· == '0')).reverse)

/-- The written form, always with a time and never with a `Z`. -/
def text (t : Timestamp) : String :=
  Text.paddedDecimal 4 t.year.toNat ++ "-" ++ Text.paddedDecimal 2 t.month.toNat ++ "-" ++
    Text.paddedDecimal 2 t.day.toNat ++ "T" ++ Text.paddedDecimal 2 t.hour.toNat ++ ":" ++
    Text.paddedDecimal 2 t.minute.toNat ++ ":" ++ Text.paddedDecimal 2 t.second.toNat ++
    fractionText t.nanos.toNat

end Timestamp
end Docpress
