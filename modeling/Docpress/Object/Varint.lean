/-!
# Numbers of variable length

A number is written in groups of seven bits, the lowest first, one group a byte; the top bit
of a byte says that another one follows.  A reader knows how many bytes the type at hand may
take and how large the last of them may be.  Within these bounds it also accepts numbers that
are longer than they need to be.
-/

namespace Docpress

/-- Why bytes cannot be read as objects. -/
inductive DecodeError where
  | endOfData
  | badVarint
  | badBool
  | badText
  | badTag
deriving DecidableEq, Repr, Inhabited

/-- The text of the cause. -/
def DecodeError.message : DecodeError → String
  | endOfData => "Hit the end of buffer, expected more data"
  | badVarint => "Found a varint that didn't terminate. Is the usize too big for this platform?"
  | badBool => "Found a bool that wasn't 0 or 1"
  | badText => "Tried to parse invalid utf-8"
  | badTag => "Serde Deserialization Error"

namespace Varint

/-- The bytes of a number. -/
def encode (n : Nat) : List UInt8 :=
  if n < 128 then [.ofNat n] else .ofNat (128 + n % 128) :: encode (n / 128)

/-- The space that a type gives to a number. -/
structure Width where
  /-- the greatest number of bytes -/
  bytes : Nat
  /-- the greatest value of the last byte, if all of them are used -/
  last : Nat
deriving DecidableEq, Repr, Inhabited

/-- Numbers of 16 bits. -/
def Width.short : Width := ⟨3, 0x03⟩

/-- Numbers of 32 bits. -/
def Width.word : Width := ⟨5, 0x0F⟩

/-- Numbers of 64 bits. -/
def Width.long : Width := ⟨10, 0x01⟩

/-- Numbers of 128 bits. -/
def Width.wide : Width := ⟨19, 0x03⟩

/-- Reads a number of at most `left` bytes and returns it with the bytes that follow. -/
def decodeWithin (last : Nat) : Nat → List UInt8 → Except DecodeError (Nat × List UInt8)
  | 0, _ => .error .badVarint
  | _ + 1, [] => .error .endOfData
  | left + 1, byte :: rest =>
    if byte < 128 then
      if left = 0 ∧ last < byte.toNat then .error .badVarint else .ok (byte.toNat, rest)
    else
      match decodeWithin last left rest with
      | .error e => .error e
      | .ok (n, rest) => .ok (byte.toNat - 128 + 128 * n, rest)

/-- Reads a number of the given width and returns it with the bytes that follow. -/
def decode (width : Width) (bytes : List UInt8) : Except DecodeError (Nat × List UInt8) :=
  decodeWithin width.last width.bytes bytes

/-- A number takes at least one byte. -/
theorem length_lt_of_decodeWithin {last left n : Nat} {bytes rest : List UInt8}
    (h : decodeWithin last left bytes = .ok (n, rest)) : rest.length < bytes.length := by
  fun_induction decodeWithin last left bytes generalizing n rest with
  | case1 => cases h
  | case2 => cases h
  | case3 => cases h
  | case4 left byte tail hbyte hlast =>
    cases h
    simp
  | case5 => cases h
  | case6 left byte tail hbyte m tail' hdecode ih =>
    cases h
    have := ih hdecode
    simp only [List.length_cons]
    omega

end Varint
end Docpress
