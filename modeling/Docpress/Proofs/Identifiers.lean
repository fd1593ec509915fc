import Docpress.Identifier
import Docpress.Proofs.Numerals
import Mathlib.Data.Nat.Digits.Defs

/-!
# Identifiers read and written

An identifier is spelled by 32 hexadecimal digits, with hyphens anywhere between them.  `Spelled`
says so without reference to how digits are read: a digit is a letter of `alphabet`, and its value
is its place there.

Every spelling is read as the identifier that it stands for, and so is what is written.  Besides,
31 digits behind a plus sign are read: the sign counts as one of the 32 characters
(`read?_eq_some_iff`).
-/

namespace Docpress.Identifier

/-! ## Digits -/

/-- The hexadecimal digits, each at the place of its value. -/
def alphabet : List Char :=
  ['0', '1', '2', '3', '4', '5', '6', '7', '8', '9', 'a', 'b', 'c', 'd', 'e', 'f']

/-- The value of a digit, in either case. -/
def digit? (c : Char) : Option Nat :=
  alphabet.idxOf? c.toLower

/-- The characters are `count` digits, which have the value of the identifier in base sixteen. -/
def Spelled (count : Nat) (characters : List Char) (id : Identifier) : Prop :=
  ∃ values : List Nat, characters.map digit? = values.map some ∧ values.length = count ∧
    Nat.ofDigits 16 values.reverse = id.toNat

/-- The characters of a text that are no hyphens. -/
def unhyphenated (text : String) : List Char :=
  text.toList.filter (· ≠ '-')

theorem digit?_of_lt {c : Char} (hc : c.toNat < 128) :
    digit? c = if Text.isHexDigit c then some (Text.digitValue c) else none := by
  have hall : ∀ n : Fin 128, digit? (Char.ofNat n) =
      if Text.isHexDigit (Char.ofNat n) then some (Text.digitValue (Char.ofNat n)) else none := by
    decide
  simpa using hall ⟨c.toNat, hc⟩

/-- The digits are those that are read as digits, with the values that they have there. -/
theorem digit?_eq (c : Char) :
    digit? c = if Text.isHexDigit c then some (Text.digitValue c) else none := by
  rcases Nat.lt_or_ge c.toNat 128 with hc | hc
  · exact digit?_of_lt hc
  · -- no digit lies beyond the first 128 characters
    have hbeyond {d : Char} (hd : d.toNat < 128) : ¬ c ≤ d := by
      rw [Char.le_def, UInt32.le_iff_toNat_le]
      exact fun hle => absurd (Nat.lt_of_le_of_lt hle hd) (Nat.not_lt.2 hc)
    have hlower : c.toLower = c := dif_neg fun hcapital => hbeyond (d := 'Z') (by decide) hcapital.2
    have hdigit : Text.isHexDigit c = false := by
      have hdecimal : c.isDigit = false := by
        rw [← Bool.not_eq_true, Char.isDigit_iff_toNat]
        simp only [Char.reduceToNat]
        omega
      simp [Text.isHexDigit, hdecimal, hbeyond (d := 'f') (by decide),
        hbeyond (d := 'F') (by decide)]
    have hmem : c ∉ alphabet := by
      intro hmem
      have hsmall : alphabet.all (·.toNat < 128) = true := by decide
      exact absurd (of_decide_eq_true (List.all_eq_true.1 hsmall c hmem)) (Nat.not_lt.2 hc)
    rw [digit?, hlower, List.idxOf?_eq_none_iff.2 hmem, hdigit]
    rfl

theorem digitValue_lt_sixteen {c : Char} (hdigit : Text.isHexDigit c = true) :
    Text.digitValue c < 16 := by
  have hvalue := digit?_eq c
  rw [if_pos hdigit] at hvalue
  obtain ⟨hlt, -⟩ := List.idxOf?_eq_some_iff.1 hvalue
  exact hlt

theorem map_digit? {digits : List Char} (hdigits : ∀ c ∈ digits, Text.isHexDigit c = true) :
    digits.map digit? = (digits.map Text.digitValue).map some := by
  rw [List.map_map]
  refine List.map_congr_left fun c hmem => ?_
  rw [digit?_eq, if_pos (hdigits c hmem)]
  rfl

/-- The value in base sixteen is the one that is computed digit by digit. -/
theorem ofDigits_reverse (digits : List Char) :
    Nat.ofDigits 16 (digits.map Text.digitValue).reverse = Text.ofDigits 16 digits := by
  induction digits with
  | nil => rfl
  | cons digit digits ih =>
    rw [List.map_cons, List.reverse_cons, Nat.ofDigits_append, ih, Text.ofDigits_cons,
      List.length_reverse, List.length_map, Nat.ofDigits_singleton, Nat.add_comm, Nat.mul_comm]

/-! ## Reading -/

theorem spelled_iff {count : Nat} {characters : List Char} {id : Identifier} :
    Spelled count characters id ↔ characters.length = count ∧
      (∀ c ∈ characters, Text.isHexDigit c = true) ∧ Text.ofDigits 16 characters = id.toNat := by
  constructor
  · rintro ⟨values, hvalues, hcount, hid⟩
    have hdigits : ∀ c ∈ characters, Text.isHexDigit c = true := by
      intro c hmem
      have hvalue : digit? c ∈ values.map some := hvalues ▸ List.mem_map_of_mem hmem
      obtain ⟨value, -, hvalue⟩ := List.mem_map.1 hvalue
      by_contra hother
      rw [digit?_eq, if_neg hother] at hvalue
      cases hvalue
    have hsame : values = characters.map Text.digitValue :=
      (List.map_inj_right fun _ _ => Option.some.inj).1 (hvalues.symm.trans (map_digit? hdigits))
    rw [hsame] at hcount hid
    exact ⟨List.length_map _ ▸ hcount, hdigits, ofDigits_reverse _ ▸ hid⟩
  · rintro ⟨hlength, hdigits, hid⟩
    exact ⟨_, map_digit? hdigits, by rw [List.length_map, hlength], by rw [ofDigits_reverse, hid]⟩

/-- The value of up to 32 digits fits 128 bits. -/
theorem ofNat_ofDigits_eq_iff {digits : List Char} (hlength : digits.length ≤ 32)
    (hdigits : ∀ c ∈ digits, Text.isHexDigit c = true) (id : Identifier) :
    BitVec.ofNat 128 (Text.ofDigits 16 digits) = id ↔ Text.ofDigits 16 digits = id.toNat := by
  have hvalue := Text.ofDigits_lt_pow fun c hmem => digitValue_lt_sixteen (hdigits c hmem)
  have hfits : Text.ofDigits 16 digits < 2 ^ 128 :=
    Nat.lt_of_lt_of_le hvalue (Nat.pow_le_pow_right (by omega) hlength)
  rw [← BitVec.toNat_inj, BitVec.toNat_ofNat, Nat.mod_eq_of_lt hfits]

/-- Digits are read as the identifier that they spell. -/
theorem checkedDigits_eq_some_iff {count : Nat} (hcount : count ≤ 32) (digits : List Char)
    (id : Identifier) :
    (if digits.length = count ∧ digits.all Text.isHexDigit then
        some (BitVec.ofNat 128 (Text.ofDigits 16 digits))
      else none) = some id ↔ Spelled count digits id := by
  rw [Option.ite_none_right_eq_some, Option.some.injEq, spelled_iff, and_assoc, List.all_eq_true]
  refine and_congr_right fun hlength => and_congr_right fun hdigits => ?_
  exact ofNat_ofDigits_eq_iff (hlength ▸ hcount) hdigits id

theorem read?_of_plus {text : String} {digits : List Char}
    (hplus : unhyphenated text = '+' :: digits) :
    read? text = if digits.length = 31 ∧ digits.all Text.isHexDigit then
      some (BitVec.ofNat 128 (Text.ofDigits 16 digits)) else none := by
  rw [read?, ← unhyphenated, hplus]
  simp only [List.length_cons, Nat.reduceEqDiff]

theorem read?_of_not_plus {text : String}
    (hother : ∀ digits, unhyphenated text ≠ '+' :: digits) :
    read? text = if (unhyphenated text).length = 32 ∧ (unhyphenated text).all Text.isHexDigit then
      some (BitVec.ofNat 128 (Text.ofDigits 16 (unhyphenated text))) else none := by
  rw [read?, ← unhyphenated]
  split
  · rename_i digits hplus
    exact absurd hplus (hother digits)
  · rfl

/-- Reading accepts the spellings of identifiers, and 31 digits behind a plus sign. -/
theorem read?_eq_some_iff (text : String) (id : Identifier) :
    read? text = some id ↔ Spelled 32 (unhyphenated text) id ∨
      ∃ digits, unhyphenated text = '+' :: digits ∧ Spelled 31 digits id := by
  by_cases hplus : ∃ digits, unhyphenated text = '+' :: digits
  · obtain ⟨digits, hplus⟩ := hplus
    have hsign : ¬ Spelled 32 (unhyphenated text) id := by
      rw [hplus, spelled_iff]
      rintro ⟨-, hdigits, -⟩
      exact absurd (hdigits '+' List.mem_cons_self) (by decide)
    rw [read?_of_plus hplus, checkedDigits_eq_some_iff (by omega), or_iff_right hsign]
    constructor
    · exact fun hspelled => ⟨digits, hplus, hspelled⟩
    · rintro ⟨rest, hrest, hspelled⟩
      obtain ⟨-, rfl⟩ := List.cons.inj (hplus.symm.trans hrest)
      exact hspelled
  · have hother : ∀ digits, unhyphenated text ≠ '+' :: digits := not_exists.1 hplus
    rw [read?_of_not_plus hother, checkedDigits_eq_some_iff (Nat.le_refl 32), or_iff_left]
    rintro ⟨digits, hdigits, -⟩
    exact hother digits hdigits

/-! ## Writing -/

theorem length_digits (id : Identifier) : id.digits.length = 32 :=
  Text.length_padZeros ((Nat.length_toDigits_le_iff (by omega) (by omega)).2 id.isLt)

theorem isHexDigit_of_mem_digits {id : Identifier} {c : Char} (hmem : c ∈ id.digits) :
    Text.isHexDigit c = true := by
  rcases List.mem_append.1 hmem with hmem | hmem
  · rw [List.eq_of_mem_replicate hmem]
    rfl
  · exact Text.isHexDigit_of_mem_hexDigits hmem

theorem spelled_digits (id : Identifier) : Spelled 32 id.digits id := by
  refine spelled_iff.2 ⟨length_digits id, fun c => isHexDigit_of_mem_digits, ?_⟩
  rw [digits, Text.ofDigits_padZeros, Text.ofDigits_hexDigits]

/-- The groups make up the digits, with hyphens between them. -/
theorem unhyphenated_text (id : Identifier) : unhyphenated id.text = id.digits := by
  have hdigits : ∀ c ∈ id.digits, c ≠ '-' := by
    rintro c hmem rfl
    exact absurd (isHexDigit_of_mem_digits hmem) (by decide)
  have hgroup (start length : Nat) :
      ((id.digits.drop start).take length).filter (· ≠ '-') = (id.digits.drop start).take length :=
    List.filter_eq_self.2 fun c hmem =>
      decide_eq_true (hdigits c (List.mem_of_mem_drop (List.mem_of_mem_take hmem)))
  have hjoin (start : Nat) {length next : Nat} (hnext : start + length = next) :
      (id.digits.drop start).take length ++ id.digits.drop next = id.digits.drop start := by
    rw [← hnext, ← List.drop_drop, List.take_append_drop]
  have hlast : (id.digits.drop 20).take 12 = id.digits.drop 20 :=
    List.take_of_length_le (by rw [List.length_drop, length_digits])
  have hhyphen : "-".toList.filter (· ≠ '-') = [] := by decide
  simp only [unhyphenated, text, String.toList_intercalate, List.map_cons, List.map_nil,
    String.toList_ofList, List.intercalate, List.intersperse, List.flatten_cons, List.flatten_nil,
    List.filter_append, List.append_nil, hgroup, hhyphen, List.nil_append]
  rw [hlast, hjoin 16 rfl, hjoin 12 rfl, hjoin 8 rfl, hjoin 0 rfl, List.drop_zero]

/-- Reading accepts the spellings of identifiers and, besides them, nothing but 31 digits behind a
plus sign.  What is written is a spelling, so it is read as it was written. -/
theorem reading_accepts_spellings (text : String) (id : Identifier) :
    (read? text = some id ↔ Spelled 32 (unhyphenated text) id ∨
      ∃ digits, unhyphenated text = '+' :: digits ∧ Spelled 31 digits id) ∧
    Spelled 32 (unhyphenated id.text) id ∧ read? id.text = some id := by
  have hspelled : Spelled 32 (unhyphenated id.text) id := unhyphenated_text id ▸ spelled_digits id
  exact ⟨read?_eq_some_iff text id, hspelled, (read?_eq_some_iff _ _).2 (.inl hspelled)⟩

/-- A plus sign is no digit, but is counted as one. -/
theorem signed_digits_are_read :
    read? "+000000000000000000000000000002a" = some 42 ∧
      ¬ ∃ id, Spelled 32 (unhyphenated "+000000000000000000000000000002a") id := by
  refine ⟨by decide, ?_⟩
  rintro ⟨id, hspelled⟩
  have hsign := (spelled_iff.1 hspelled).2.1 '+' (by decide)
  exact absurd hsign (by decide)

end Docpress.Identifier
