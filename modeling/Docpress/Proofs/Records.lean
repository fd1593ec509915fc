import Docpress.Object.Stream
import Mathlib.Algebra.Group.Nat.Defs
import Mathlib.Data.List.Infix

/-!
# The records of an object stream

Records follow each other without a frame, and still a reader that is given the first bytes of a
stream knows whether the last record is whole: it reads the objects of the whole records, and if
some bytes of another one follow, it asks for the rest of that.

* `Decoder.Reads decoder bytes value`: the decoder takes exactly these bytes for the value.  It
  leaves what follows them, and it reports the end of the data while some of them are missing.
  Decoders that are run one after the other do so with the bytes of both (`Reads.bind`).
* `reads_number`, `reads_text` and so on: each part of a record is read that way, and so is each
  record (`Object.reads_decode`).
* `Object.decodeAll_take`: what is read from the first bytes of a stream.

A text is preceded by its length in 64 bits, so all of this is about texts that are not longer.
-/

namespace Docpress

/-! ## Decoders -/

namespace Decoder

variable {α β : Type}

/-- The decoder reads the value from exactly these bytes. -/
structure Reads (decoder : Decoder α) (bytes : List UInt8) (value : α) : Prop where
  /-- what follows the bytes is left -/
  whole (rest : List UInt8) : decoder (bytes ++ rest) = .ok (value, rest)
  /-- some of the bytes are not enough -/
  part {first missing : List UInt8} (hsplit : first ++ missing = bytes) (hmissing : missing ≠ []) :
    decoder first = .error .endOfData

theorem reads_pure (a : α) : Reads (pure a) [] a where
  whole _ := rfl
  part hsplit hmissing := absurd (List.append_eq_nil_iff.1 hsplit).2 hmissing

theorem bind_of_ok {decoder : Decoder α} {next : α → Decoder β} {input rest : List UInt8} {a : α}
    (hfirst : decoder input = .ok (a, rest)) : (decoder >>= next) input = next a rest := by
  show (decoder input >>= fun result => next result.1 result.2) = _
  rw [hfirst]
  rfl

theorem bind_of_error {decoder : Decoder α} {next : α → Decoder β} {input : List UInt8}
    {e : DecodeError} (hfirst : decoder input = .error e) :
    (decoder >>= next) input = .error e := by
  show (decoder input >>= fun result => next result.1 result.2) = _
  rw [hfirst]
  rfl

/-- What is read one after the other is read from the bytes of both. -/
theorem Reads.bind {decoder : Decoder α} {next : α → Decoder β} {bytes more : List UInt8} {a : α}
    {b : β} (hfirst : Reads decoder bytes a) (hnext : Reads (next a) more b) :
    Reads (decoder >>= next) (bytes ++ more) b where
  whole rest := by
    rw [List.append_assoc, bind_of_ok (hfirst.whole _)]
    exact hnext.whole rest
  part {first missing} hsplit hmissing := by
    -- the bytes that are there end among those of the first decoder, or behind them
    rcases List.append_eq_append_iff.1 hsplit with ⟨lacking, hbytes, hlacking⟩ | ⟨extra, rfl, hmore⟩
    · by_cases hempty : lacking = []
      · subst hempty
        obtain rfl : bytes = first := by simpa using hbytes
        have hall := hfirst.whole []
        rw [List.append_nil] at hall
        rw [bind_of_ok hall]
        obtain rfl : missing = more := by simpa using hlacking
        exact hnext.part (List.nil_append missing) hmissing
      · exact bind_of_error (hfirst.part hbytes.symm hempty)
    · rw [bind_of_ok (hfirst.whole extra)]
      exact hnext.part hmore.symm hmissing

/-- What is made of the value takes no bytes. -/
theorem Reads.map {decoder : Decoder α} {bytes : List UInt8} {a : α}
    (hreads : Reads decoder bytes a) (f : α → β) :
    Reads (decoder >>= fun a => pure (f a)) bytes (f a) := by
  rw [← List.append_nil bytes]
  exact hreads.bind (reads_pure (f a))

/-- A value of one byte. -/
theorem reads_single {decoder : Decoder α} {b : UInt8} {a : α}
    (hempty : decoder [] = .error .endOfData)
    (hbyte : ∀ rest, decoder (b :: rest) = .ok (a, rest)) : Reads decoder [b] a where
  whole rest := hbyte rest
  part {first missing} hsplit hmissing := by
    cases first with
    | nil => exact hempty
    | cons c first =>
      simp only [List.cons_append, List.cons.injEq, List.append_eq_nil_iff] at hsplit
      exact absurd hsplit.2.2 hmissing

theorem reads_byte (b : UInt8) : Reads byte [b] b :=
  reads_single rfl fun _ => rfl

theorem reads_bytes (content : List UInt8) : Reads (bytes content.length) content content where
  whole rest := by
    have hlength : ¬(content ++ rest).length < content.length := by
      rw [List.length_append]
      omega
    rw [bytes, if_neg hlength, List.take_left, List.drop_left]
  part {first missing} hsplit hmissing := by
    have hlength : first.length < content.length := by
      have := List.length_pos_of_ne_nil hmissing
      rw [← hsplit, List.length_append]
      omega
    rw [bytes, if_pos hlength]

end Decoder

/-! ## Numbers -/

namespace Varint

/-- How many numbers have the width. -/
def Width.bound (width : Width) : Nat := (width.last + 1) * 128 ^ (width.bytes - 1)

/-- A number of one byte. -/
theorem reads_small {last left n : Nat} (hn : n < 128) (hlast : left = 0 → n ≤ last) :
    Decoder.Reads (decodeWithin last (left + 1)) (encode n) n := by
  have hbyte : (UInt8.ofNat n).toNat = n := UInt8.toNat_ofNat_of_lt' (Nat.lt_trans hn (by decide))
  have hlow : UInt8.ofNat n < 128 := by
    rw [UInt8.lt_iff_toNat_lt, hbyte]
    exact hn
  rw [encode, if_pos hn]
  refine Decoder.reads_single rfl fun rest => ?_
  have hfits : ¬(left = 0 ∧ last < (UInt8.ofNat n).toNat) := by omega
  rw [decodeWithin, if_pos hlow, if_neg hfits, hbyte]

/-- A number is read back if it fits into the bytes, the last of which has its own bound. -/
theorem reads_decodeWithin {last left n : Nat} (hlast : last < 128)
    (hn : n < (last + 1) * 128 ^ left) :
    Decoder.Reads (decodeWithin last (left + 1)) (encode n) n := by
  induction left generalizing n with
  | zero => exact reads_small (by omega) (by omega)
  | succ left ih =>
    by_cases hsmall : n < 128
    · exact reads_small hsmall (by omega)
    · have hrest : Decoder.Reads (decodeWithin last (left + 1)) (encode (n / 128)) (n / 128) := by
        apply ih
        rw [Nat.pow_succ, ← Nat.mul_assoc, Nat.mul_comm] at hn
        exact Nat.div_lt_of_lt_mul hn
      have hbyte : (UInt8.ofNat (128 + n % 128)).toNat = 128 + n % 128 :=
        UInt8.toNat_ofNat_of_lt' (Nat.add_lt_add_left (Nat.mod_lt n (by decide)) 128)
      have hhigh : ¬UInt8.ofNat (128 + n % 128) < 128 := by
        rw [UInt8.lt_iff_toNat_lt, hbyte]
        exact Nat.not_lt.2 (Nat.le_add_right _ _)
      rw [encode, if_neg hsmall]
      refine ⟨fun rest => ?_, fun {first missing} hsplit hmissing => ?_⟩
      · rw [List.cons_append, decodeWithin, if_neg hhigh, hrest.whole rest, hbyte]
        simp only [Except.ok.injEq, Prod.mk.injEq, and_true]
        omega
      · cases first with
        | nil => rfl
        | cons c first =>
          simp only [List.cons_append, List.cons.injEq] at hsplit
          obtain ⟨rfl, hsplit⟩ := hsplit
          rw [decodeWithin, if_neg hhigh, hrest.part hsplit hmissing]

end Varint

/-- A number below the bound of its width is read back. -/
theorem Decoder.reads_number (width : Varint.Width) (hwidth : 0 < width.bytes ∧ width.last < 128)
    {n : Nat} (hn : n < width.bound) : Reads (number width) (Varint.encode n) n := by
  have hreads := Varint.reads_decodeWithin hwidth.2 hn
  rw [Nat.sub_add_cancel hwidth.1] at hreads
  exact hreads

/-- Folding a signed number can be undone. -/
theorem unzigzag_zigzag (n : Int) : unzigzag (zigzag n) = n := by
  unfold unzigzag zigzag
  split <;> split <;> omega

theorem zigzag_lt {n : Int} {bound : Nat} (hlow : -bound ≤ n) (hhigh : n < bound) :
    zigzag n < 2 * bound := by
  unfold zigzag
  split <;> omega

theorem length_littleEndian (count n : Nat) : (littleEndian count n).length = count := by
  induction count generalizing n with
  | zero => rfl
  | succ count ih => rw [littleEndian, List.length_cons, ih]

/-- A number that fits into the bytes can be read from them. -/
theorem ofLittleEndian_littleEndian {count n : Nat} (hn : n < 256 ^ count) :
    ofLittleEndian (littleEndian count n) = n := by
  induction count generalizing n with
  | zero =>
    have hzero : n = 0 := by simpa using hn
    rw [hzero]
    rfl
  | succ count ih =>
    have hrest : n / 256 < 256 ^ count := by
      rw [Nat.pow_succ, Nat.mul_comm] at hn
      exact Nat.div_lt_of_lt_mul hn
    have hbyte : (UInt8.ofNat (n % 256)).toNat = n % 256 :=
      UInt8.toNat_ofNat_of_lt' (Nat.mod_lt n (by decide))
    rw [littleEndian, ofLittleEndian, ih hrest, hbyte]
    omega

/-! ## Contents of records -/

theorem Opcode.ofCode?_code (op : Opcode) : ofCode? op.code = some op := by
  cases op <;> rfl

theorem Opcode.code_lt (op : Opcode) : op.code < 128 := by
  cases op <;> decide

theorem fromUTF8?_toUTF8 (text : String) : String.fromUTF8? text.toUTF8 = some text := by
  have hvalid : text.toUTF8.IsValidUTF8 := text.isValidUTF8
  rw [String.fromUTF8?, dif_pos hvalid]
  rfl

namespace Decoder

theorem reads_opcode (op : Opcode) : Reads opcode (Varint.encode op.code) op := by
  have hcode : op.code < Varint.Width.word.bound := Nat.lt_trans op.code_lt (by decide)
  rw [← List.append_nil (Varint.encode op.code)]
  refine (reads_number .word (by decide) hcode).bind ?_
  rw [Opcode.ofCode?_code]
  exact reads_pure op

theorem reads_text {text : String} (hsize : text.utf8ByteSize < 2 ^ 64) :
    Reads Decoder.text (Varint.encode text.utf8ByteSize ++ text.toUTF8.data.toList) text := by
  rw [← List.append_nil (Varint.encode text.utf8ByteSize ++ _), List.append_assoc]
  refine (reads_number .long (by decide) hsize).bind ?_
  have hlength : text.utf8ByteSize = text.toUTF8.data.toList.length := rfl
  rw [hlength]
  refine (reads_bytes text.toUTF8.data.toList).bind ?_
  rw [Array.toArray_toList, fromUTF8?_toUTF8]
  exact reads_pure text

theorem reads_bool (b : Bool) : Reads bool [if b then 1 else 0] b := by
  rw [← List.append_nil [if b then 1 else 0]]
  cases b <;> exact (reads_byte _).bind (reads_pure _)

theorem reads_timestamp (time : Timestamp) :
    Reads timestamp (Varint.encode time.year.toNat ++
      ([time.month, time.day, time.hour, time.minute, time.second] ++
        Varint.encode time.nanos.toNat)) time := by
  refine (reads_number .short (by decide) time.year.toNat_lt).bind ?_
  refine (reads_byte _).bind ((reads_byte _).bind ((reads_byte _).bind ((reads_byte _).bind
    ((reads_byte _).bind ?_))))
  have hnanos := (reads_number .word (by decide) time.nanos.toNat_lt).map
    fun nanos : Nat => ({ time with nanos := .ofNat nanos } : Timestamp)
  rw [UInt32.ofNat_toNat] at hnanos
  rw [UInt16.ofNat_toNat]
  exact hnanos

theorem reads_color (color : Color) :
    Reads Decoder.color [color.red, color.green, color.blue, color.alpha] color :=
  (reads_byte color.red).bind ((reads_byte color.green).bind ((reads_byte color.blue).bind
    ((reads_byte color.alpha).map fun alpha => ({ color with alpha } : Color))))

end Decoder

/-! ## Records -/

namespace Object

/-- The length of a text can be written in 64 bits. -/
def Fits : Object → Prop
  | string text => text.utf8ByteSize < 2 ^ 64
  | _ => True

theorem decode_eq : decode = (Decoder.number .word >>= Decoder.content) := by
  funext input
  unfold decode
  split
  · rename_i e hvariant
    exact (Decoder.bind_of_error hvariant).symm
  · rename_i variant rest hvariant
    exact (Decoder.bind_of_ok hvariant).symm

theorem reads_variant {variant : Nat} (hvariant : variant < 10) {bytes : List UInt8}
    {object : Object} (hcontent : Decoder.Reads (Decoder.content variant) bytes object) :
    Decoder.Reads decode (Varint.encode variant ++ bytes) object := by
  rw [decode_eq]
  have hbound : variant < Varint.Width.word.bound := Nat.lt_trans hvariant (by decide)
  exact (Decoder.reads_number .word (by decide) hbound).bind hcontent

/-- Every record is read back, and no part of it is a record. -/
theorem reads_decode {object : Object} (hfits : object.Fits) :
    Decoder.Reads decode object.encode object := by
  cases object with
  | op o => exact reads_variant (by decide) ((Decoder.reads_opcode o).map op)
  | null =>
    rw [encode, ← List.append_nil (Varint.encode 1)]
    exact reads_variant (by decide) (Decoder.reads_pure null)
  | string s =>
    rw [encode, List.append_assoc]
    exact reads_variant (by decide) ((Decoder.reads_text hfits).map string)
  | timestamp t =>
    rw [encode, List.append_assoc, List.append_assoc]
    exact reads_variant (by decide) ((Decoder.reads_timestamp t).map timestamp)
  | color c => exact reads_variant (by decide) ((Decoder.reads_color c).map color)
  | bool b => exact reads_variant (by decide) ((Decoder.reads_bool b).map bool)
  | u64 n =>
    have hcontent := (Decoder.reads_number .long (by decide) n.toNat_lt).map
      fun n => u64 (.ofNat n)
    rw [UInt64.ofNat_toNat] at hcontent
    exact reads_variant (by decide) hcontent
  | i64 n =>
    have hbound : zigzag n.toInt < Varint.Width.long.bound :=
      zigzag_lt n.le_toInt n.toInt_lt
    have hcontent := (Decoder.reads_number .long (by decide) hbound).map
      fun n => i64 (.ofInt (unzigzag n))
    rw [unzigzag_zigzag, Int64.ofInt_toInt] at hcontent
    exact reads_variant (by decide) hcontent
  | f64 x =>
    have hbytes := Decoder.reads_bytes (littleEndian 8 x.bits.toNat)
    rw [length_littleEndian] at hbytes
    have hcontent := hbytes.map fun bytes => f64 ⟨.ofNat (ofLittleEndian bytes)⟩
    rw [ofLittleEndian_littleEndian x.bits.toNat_lt, UInt64.ofNat_toNat] at hcontent
    exact reads_variant (by decide) hcontent
  | uuid id =>
    have hcontent := (Decoder.reads_number .wide (by decide) id.isLt).map
      fun n => uuid (.ofNat 128 n)
    rw [BitVec.ofNat_toNat, BitVec.setWidth_eq] at hcontent
    exact reads_variant (by decide) hcontent

theorem encode_ne_nil (object : Object) : object.encode ≠ [] := by
  have hvarint (n : Nat) : Varint.encode n ≠ [] := by
    rw [Varint.encode]
    split <;> simp
  cases object <;> simp [encode, hvarint]

/-! ## Streams -/

/-- The lengths of the stream after each of the objects. -/
def ends (objects : List Object) : List Nat :=
  objects.inits.tail.map fun written => (encodeAll written).length

/-- The objects whose records end within the first `length` bytes of the stream. -/
def endedBy (length : Nat) (objects : List Object) : List Object :=
  ((objects.zip (ends objects)).filter fun (_, stop) => stop ≤ length).map Prod.fst

theorem encodeAll_cons (object : Object) (objects : List Object) :
    encodeAll (object :: objects) = object.encode ++ encodeAll objects := rfl

theorem ends_cons (object : Object) (objects : List Object) :
    ends (object :: objects) =
      object.encode.length :: (ends objects).map (object.encode.length + ·) := by
  cases objects with
  | nil => simp [ends, encodeAll]
  | cons other rest => simp [ends, encodeAll, Function.comp_def]

/-- A record that is cut off ends no object. -/
theorem endedBy_cons_of_lt {object : Object} {length : Nat}
    (hlength : length < object.encode.length) (objects : List Object) :
    endedBy length (object :: objects) = [] := by
  rw [endedBy, List.map_eq_nil_iff, List.filter_eq_nil_iff]
  rintro ⟨other, stop⟩ hmem
  have hstop := (List.of_mem_zip hmem).2
  rw [ends_cons, List.mem_cons, List.mem_map] at hstop
  rw [decide_eq_true_iff]
  omega

/-- A whole record ends its object, and the others follow. -/
theorem endedBy_cons_of_le {object : Object} {length : Nat}
    (hlength : object.encode.length ≤ length) (objects : List Object) :
    endedBy length (object :: objects) =
      object :: endedBy (length - object.encode.length) objects := by
  simp only [endedBy, ends_cons, List.zip_cons_cons]
  rw [List.filter_cons_of_pos (by simpa using hlength), List.map_cons, List.zip_map_right,
    List.filter_map, List.map_map]
  congr 2
  apply List.filter_congr
  rintro ⟨other, stop⟩ _
  simp only [Function.comp_apply, Prod.map_apply, id_eq, decide_eq_decide]
  omega

theorem mem_ends_cons {object : Object} {objects : List Object} {length : Nat} :
    length ∈ ends (object :: objects) ↔ object.encode.length ≤ length ∧
      (length - object.encode.length = 0 ∨ length - object.encode.length ∈ ends objects) := by
  rw [ends_cons, List.mem_cons, List.mem_map]
  constructor
  · rintro (rfl | ⟨stop, hstop, rfl⟩)
    · exact ⟨Nat.le_refl _, .inl (Nat.sub_self _)⟩
    · rw [Nat.add_sub_cancel_left]
      exact ⟨Nat.le_add_right _ _, .inr hstop⟩
  · rintro ⟨hle, hzero | hmem⟩
    · exact .inl (by omega)
    · exact .inr ⟨_, hmem, by omega⟩

theorem decodeAll_nil : decodeAll [] = .ok [] := by
  rw [decodeAll]
  rfl

theorem decodeAll_of_error {input : List UInt8} {e : DecodeError} (hinput : input ≠ [])
    (hdecode : decode input = .error e) : decodeAll input = .error e := by
  rw [decodeAll, if_neg (by simpa using hinput)]
  split
  · rename_i hother
    rw [hdecode] at hother
    cases hother
    rfl
  · rename_i hother
    rw [hdecode] at hother
    cases hother

theorem decodeAll_of_ok {input rest : List UInt8} {object : Object}
    (hdecode : decode input = .ok (object, rest)) :
    decodeAll input = (object :: ·) <$> decodeAll rest := by
  have hinput : input ≠ [] := by
    rintro rfl
    exact absurd (length_lt_of_decode hdecode) (Nat.not_lt_zero _)
  rw [decodeAll, if_neg (by simpa using hinput)]
  split
  · rename_i hother
    rw [hdecode] at hother
    cases hother
  · rename_i hother
    rw [hdecode] at hother
    cases hother
    cases decodeAll rest <;> rfl

/-- From the first bytes of a stream the objects of the whole records are read, unless some bytes
of another record follow. -/
theorem decodeAll_take_eq {objects : List Object} (hfits : ∀ object ∈ objects, object.Fits)
    {length : Nat} (hlength : length ≤ (encodeAll objects).length) :
    decodeAll ((encodeAll objects).take length) =
      if length = 0 ∨ length ∈ ends objects then .ok (endedBy length objects)
      else .error .endOfData := by
  induction objects generalizing length with
  | nil =>
    obtain rfl : length = 0 := Nat.le_zero.1 hlength
    rw [if_pos (.inl rfl), List.take_zero, decodeAll_nil]
    rfl
  | cons object objects ih =>
    rw [List.forall_mem_cons] at hfits
    have hrecord := reads_decode hfits.1
    have hpositive := List.length_pos_of_ne_nil object.encode_ne_nil
    rw [encodeAll_cons] at hlength ⊢
    by_cases hwhole : object.encode.length ≤ length
    · -- the first record is read, and the others from the rest
      rw [List.length_append] at hlength
      rw [List.take_append, List.take_of_length_le hwhole, decodeAll_of_ok (hrecord.whole _),
        ih hfits.2 (by omega), endedBy_cons_of_le hwhole]
      have hzero : length ≠ 0 := by omega
      simp only [mem_ends_cons, hwhole, hzero, true_and, false_or]
      split <;> rfl
    · have hcut : length < object.encode.length := by omega
      rw [List.take_append_of_le_length (Nat.le_of_lt hcut), endedBy_cons_of_lt hcut]
      by_cases hzero : length = 0
      · rw [if_pos (.inl hzero), hzero, List.take_zero, decodeAll_nil]
      · have hmissing : object.encode.drop length ≠ [] := by
          rw [Ne, List.drop_eq_nil_iff]
          exact hwhole
        have hsome : object.encode.take length ≠ [] := by
          rw [Ne, List.take_eq_nil_iff]
          exact not_or_intro hzero object.encode_ne_nil
        have hnever : ¬(length = 0 ∨ length ∈ ends (object :: objects)) := by
          rw [mem_ends_cons]
          exact not_or_intro hzero fun hends => hwhole hends.1
        rw [if_neg hnever]
        exact decodeAll_of_error hsome (hrecord.part (List.take_append_drop _ _) hmissing)

/-- A stream is read back. -/
theorem decodeAll_encodeAll {objects : List Object} (hfits : ∀ object ∈ objects, object.Fits) :
    decodeAll (encodeAll objects) = .ok objects := by
  induction objects with
  | nil => exact decodeAll_nil
  | cons object objects ih =>
    rw [List.forall_mem_cons] at hfits
    rw [encodeAll_cons, decodeAll_of_ok ((reads_decode hfits.1).whole _), ih hfits.2]
    rfl

/-- The first bytes of a stream can be read exactly if they end with a record, and then they give
the objects whose records end by there.  The whole stream gives all of them. -/
theorem decodeAll_take {objects : List Object} (hfits : ∀ object ∈ objects, object.Fits)
    {length : Nat} (hlength : length ≤ (encodeAll objects).length) :
    ((∃ read, decodeAll ((encodeAll objects).take length) = .ok read) ↔
        length = 0 ∨ length ∈ ends objects) ∧
      (∀ read, decodeAll ((encodeAll objects).take length) = .ok read →
        read = endedBy length objects) ∧
      decodeAll (encodeAll objects) = .ok objects := by
  rw [decodeAll_take_eq hfits hlength]
  refine ⟨?_, ?_, decodeAll_encodeAll hfits⟩
  · split
    · rename_i hends
      exact iff_of_true ⟨_, rfl⟩ hends
    · rename_i hends
      exact iff_of_false nofun hends
  · intro read hread
    split at hread
    · exact (Except.ok.inj hread).symm
    · cases hread

/-- An instruction, a text, a number of two bytes and a pattern that is no number. -/
def sampleStream : List Object :=
  [.op .push, .string "é", .u64 300, .f64 ⟨0x7FF8000000000001⟩]

/-- Six bytes of the sample hold its first two records. -/
theorem decodeAll_take_sampleStream :
    ends sampleStream = [2, 6, 9, 18] ∧
    ((∃ read, decodeAll ((encodeAll sampleStream).take 6) = .ok read) ↔
        6 = 0 ∨ 6 ∈ ends sampleStream) ∧
      (∀ read, decodeAll ((encodeAll sampleStream).take 6) = .ok read →
        read = endedBy 6 sampleStream) ∧
      decodeAll (encodeAll sampleStream) = .ok sampleStream := by
  have hends : ends sampleStream = [2, 6, 9, 18] := by decide +kernel
  have hsize : "é".utf8ByteSize < 2 ^ 64 := by decide
  have hfits : ∀ object ∈ sampleStream, object.Fits := by simpa [sampleStream, Fits] using hsize
  have hlength : 6 ≤ (encodeAll sampleStream).length := by decide +kernel
  exact ⟨hends, decodeAll_take hfits hlength⟩

end Object
end Docpress
