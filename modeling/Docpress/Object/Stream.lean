import Docpress.Object
import Docpress.Object.Varint

/-!
# The bytes of an object stream

Every object is one record: the number of its variant, then its content.  Numbers of 16 bits
and more have variable length, signed ones are folded first so that small magnitudes stay
short, floating point numbers take eight bytes with the lowest first, and a text is preceded
by its length in bytes.  Records carry no frame, so a stream is their concatenation, and
reading goes on until no byte is left.

`Object.decode` takes at least one byte, which is why reading a stream ends.
-/

namespace Docpress

/-! ## Writing -/

/-- A signed number as an unsigned one: 0, -1, 1, -2, 2, ... become 0, 1, 2, 3, 4, ... -/
def zigzag (n : Int) : Nat :=
  if n < 0 then 2 * n.natAbs - 1 else 2 * n.natAbs

/-- The signed number that `zigzag` folds to `n`. -/
def unzigzag (n : Nat) : Int :=
  if n % 2 = 0 then (n / 2 : Nat) else -(n / 2 + 1 : Nat)

/-- The lowest `count` bytes of a number, the lowest first. -/
def littleEndian : Nat → Nat → List UInt8
  | 0, _ => []
  | count + 1, n => .ofNat (n % 256) :: littleEndian count (n / 256)

/-- The number whose bytes, the lowest first, are given. -/
def ofLittleEndian : List UInt8 → Nat
  | [] => 0
  | byte :: rest => byte.toNat + 256 * ofLittleEndian rest

namespace Object

/-- The record of an object. -/
def encode : Object → List UInt8
  | op o => Varint.encode 0 ++ Varint.encode o.code
  | null => Varint.encode 1
  | string s => Varint.encode 2 ++ Varint.encode s.utf8ByteSize ++ s.toUTF8.data.toList
  | timestamp t =>
    Varint.encode 3 ++ Varint.encode t.year.toNat ++
      [t.month, t.day, t.hour, t.minute, t.second] ++ Varint.encode t.nanos.toNat
  | color c => Varint.encode 4 ++ [c.red, c.green, c.blue, c.alpha]
  | bool b => Varint.encode 5 ++ [if b then 1 else 0]
  | u64 n => Varint.encode 6 ++ Varint.encode n.toNat
  | i64 n => Varint.encode 7 ++ Varint.encode (zigzag n.toInt)
  | f64 x => Varint.encode 8 ++ littleEndian 8 x.bits.toNat
  | uuid id => Varint.encode 9 ++ Varint.encode id.toNat

/-- The bytes of a stream. -/
def encodeAll (objects : List Object) : List UInt8 :=
  objects.flatMap encode

end Object

/-! ## Reading -/

/-- Reads something off the front of the bytes. -/
abbrev Decoder := StateT (List UInt8) (Except DecodeError)

namespace Decoder

/-- One byte. -/
def byte : Decoder UInt8
  | [] => .error .endOfData
  | first :: rest => .ok (first, rest)

/-- The next `count` bytes. -/
def bytes (count : Nat) : Decoder (List UInt8) := fun input =>
  if input.length < count then .error .endOfData
  else .ok (input.take count, input.drop count)

/-- A number of variable length. -/
def number (width : Varint.Width) : Decoder Nat := fun input =>
  Varint.decode width input

/-- A text behind its length in bytes. -/
def text : Decoder String := do
  let length ← number .long
  let content ← bytes length
  match String.fromUTF8? ⟨content.toArray⟩ with
  | some text => pure text
  | none => throw .badText

/-- A byte that is 0 or 1. -/
def bool : Decoder Bool := do
  match ← byte with
  | 0 => pure false
  | 1 => pure true
  | _ => throw .badBool

/-- An instruction. -/
def opcode : Decoder Opcode := do
  match Opcode.ofCode? (← number .word) with
  | some op => pure op
  | none => throw .badTag

/-- The fields of a timestamp. -/
def timestamp : Decoder Timestamp := do
  let year ← number .short
  let month ← byte
  let day ← byte
  let hour ← byte
  let minute ← byte
  let second ← byte
  let nanos ← number .word
  pure { year := .ofNat year, month, day, hour, minute, second, nanos := .ofNat nanos }

/-- The channels of a color. -/
def color : Decoder Color := do
  let red ← byte
  let green ← byte
  let blue ← byte
  let alpha ← byte
  pure { red, green, blue, alpha }

/-- The content of the variant with the given number. -/
def content : Nat → Decoder Object
  | 0 => return .op (← opcode)
  | 1 => return .null
  | 2 => return .string (← text)
  | 3 => return .timestamp (← timestamp)
  | 4 => return .color (← color)
  | 5 => return .bool (← bool)
  | 6 => return .u64 (.ofNat (← number .long))
  | 7 => return .i64 (.ofInt (unzigzag (← number .long)))
  | 8 => return .f64 ⟨.ofNat (ofLittleEndian (← bytes 8))⟩
  | 9 => return .uuid (.ofNat 128 (← number .wide))
  | _ => throw .badTag

/-! ## Progress -/

/-- The decoder never returns more bytes than it was given. -/
def Shrinks {α : Type} (decoder : Decoder α) : Prop :=
  ∀ input value rest, decoder input = .ok (value, rest) → rest.length ≤ input.length

theorem shrinks_pure {α : Type} (a : α) : Shrinks (pure a : Decoder α) := by
  intro input value rest h
  cases h
  exact Nat.le_refl _

theorem shrinks_throw {α : Type} (e : DecodeError) : Shrinks (throw e : Decoder α) := by
  intro input value rest h
  cases h

theorem Shrinks.bind {α β : Type} {decoder : Decoder α} {next : α → Decoder β}
    (hdecoder : Shrinks decoder) (hnext : ∀ a, Shrinks (next a)) :
    Shrinks (decoder >>= next) := by
  intro input value rest h
  change (decoder input >>= fun result => next result.1 result.2) = .ok (value, rest) at h
  cases hfirst : decoder input with
  | error e =>
    rw [hfirst] at h
    cases h
  | ok result =>
    rw [hfirst] at h
    exact Nat.le_trans (hnext _ _ _ _ h) (hdecoder _ _ _ hfirst)

theorem shrinks_byte : Shrinks byte := by
  intro input value rest h
  cases input with
  | nil => cases h
  | cons first tail =>
    cases h
    simp

theorem shrinks_bytes (count : Nat) : Shrinks (bytes count) := by
  intro input value rest h
  unfold bytes at h
  split at h
  · cases h
  · cases h
    simp

theorem shrinks_number (width : Varint.Width) : Shrinks (number width) := by
  intro input value rest h
  exact Nat.le_of_lt (Varint.length_lt_of_decodeWithin h)

theorem shrinks_text : Shrinks text := by
  refine (shrinks_number _).bind fun length => (shrinks_bytes _).bind fun content => ?_
  split
  · exact shrinks_pure _
  · exact shrinks_throw _

theorem shrinks_bool : Shrinks bool := by
  refine shrinks_byte.bind fun b => ?_
  split
  · exact shrinks_pure _
  · exact shrinks_pure _
  · exact shrinks_throw _

theorem shrinks_opcode : Shrinks opcode := by
  refine (shrinks_number _).bind fun code => ?_
  split
  · exact shrinks_pure _
  · exact shrinks_throw _

theorem shrinks_timestamp : Shrinks timestamp :=
  (shrinks_number _).bind fun _ => shrinks_byte.bind fun _ => shrinks_byte.bind fun _ =>
    shrinks_byte.bind fun _ => shrinks_byte.bind fun _ => shrinks_byte.bind fun _ =>
      (shrinks_number _).bind fun _ => shrinks_pure _

theorem shrinks_color : Shrinks color :=
  shrinks_byte.bind fun _ => shrinks_byte.bind fun _ => shrinks_byte.bind fun _ =>
    shrinks_byte.bind fun _ => shrinks_pure _

theorem shrinks_content (variant : Nat) : Shrinks (content variant) := by
  unfold content
  split
  · exact shrinks_opcode.bind fun _ => shrinks_pure _
  · exact shrinks_pure _
  · exact shrinks_text.bind fun _ => shrinks_pure _
  · exact shrinks_timestamp.bind fun _ => shrinks_pure _
  · exact shrinks_color.bind fun _ => shrinks_pure _
  · exact shrinks_bool.bind fun _ => shrinks_pure _
  · exact (shrinks_number _).bind fun _ => shrinks_pure _
  · exact (shrinks_number _).bind fun _ => shrinks_pure _
  · exact (shrinks_bytes _).bind fun _ => shrinks_pure _
  · exact (shrinks_number _).bind fun _ => shrinks_pure _
  · exact shrinks_throw _

end Decoder

namespace Object

/-- Reads one record and returns its object with the bytes that follow. -/
def decode (input : List UInt8) : Except DecodeError (Object × List UInt8) :=
  match Varint.decode .word input with
  | .error e => .error e
  | .ok (variant, rest) => Decoder.content variant rest

/-- A record takes at least one byte. -/
theorem length_lt_of_decode {input rest : List UInt8} {object : Object}
    (h : decode input = .ok (object, rest)) : rest.length < input.length := by
  unfold decode at h
  split at h
  · cases h
  · next variant tail hvariant =>
    exact Nat.lt_of_le_of_lt (Decoder.shrinks_content variant _ _ _ h)
      (Varint.length_lt_of_decodeWithin hvariant)

/-- Reads records until no byte is left.  One bad record spoils the stream. -/
def decodeAll (input : List UInt8) : Except DecodeError (List Object) :=
  if input.isEmpty then .ok []
  else
    match h : decode input with
    | .error e => .error e
    | .ok (object, rest) =>
      have : rest.length < input.length := length_lt_of_decode h
      match decodeAll rest with
      | .error e => .error e
      | .ok objects => .ok (object :: objects)
termination_by input.length

end Object
end Docpress
