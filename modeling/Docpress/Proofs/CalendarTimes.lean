import Docpress.Proofs.Literals
import Mathlib.Algebra.Group.Nat.Defs
import Mathlib.Data.List.Induction
import Mathlib.Tactic.IntervalCases

/-!
# Timestamps of the calendar

A timestamp is read as it was written if and only if it is one of the calendar (`Valid`), and
reading returns no other.  A field that is out of range is written with more digits than its place
has, or read as out of range; the digits behind a second are too many, or read as fewer.

`readWords?` reads a timestamp in words of 32 bits and stops where a step leaves their range.  No
step does (`readWords?_eq`).
-/

namespace Docpress.Timestamp

/-! ## The calendar -/

/-- The year has a 29th of February. -/
def IsLeapYear (year : Nat) : Prop := 4 ∣ year ∧ (100 ∣ year → 400 ∣ year)

instance (year : Nat) : Decidable (IsLeapYear year) :=
  inferInstanceAs (Decidable (4 ∣ year ∧ (100 ∣ year → 400 ∣ year)))

/-- The days of the months of a common year. -/
def commonMonths : List Nat := [31, 28, 31, 30, 31, 30, 31, 31, 30, 31, 30, 31]

/-- The days of a month in the proleptic Gregorian calendar. -/
def monthLength (year month : Nat) : Nat :=
  commonMonths.getD (month - 1) 0 + if month = 2 ∧ IsLeapYear year then 1 else 0

/-- The calendar repeats itself after 400 years, which are a whole number of weeks. -/
example : ((List.range 400).map fun year =>
    ((List.range 12).map fun month => monthLength year (month + 1)).sum).sum = 7 * 20871 := by
  decide +kernel

theorem daysInMonth_eq {month : Nat} (hmonth : 1 ≤ month ∧ month ≤ 12) (year : Nat) :
    daysInMonth year month = monthLength year month := by
  have hleap : (year % 4 = 0 ∧ (year % 100 ≠ 0 ∨ year % 400 = 0)) ↔ IsLeapYear year := by
    rw [IsLeapYear]
    omega
  obtain ⟨hlow, hhigh⟩ := hmonth
  simp only [daysInMonth, monthLength, hleap]
  interval_cases month <;> simp [commonMonths]
  split <;> rfl

/-- The fields are those of a day and a time of day. -/
structure Valid (t : Timestamp) : Prop where
  year : t.year.toNat ≤ 9999
  month : 1 ≤ t.month.toNat ∧ t.month.toNat ≤ 12
  day : 1 ≤ t.day.toNat ∧ t.day.toNat ≤ monthLength t.year.toNat t.month.toNat
  hour : t.hour.toNat < 24
  minute : t.minute.toNat < 60
  second : t.second.toNat < 60
  nanos : t.nanos.toNat < 10 ^ 9

theorem inRange_iff_valid (t : Timestamp) : t.InRange ↔ t.Valid := by
  constructor
  · intro hrange
    have hdays := daysInMonth_eq hrange.month t.year.toNat
    exact ⟨Nat.le_of_lt_succ hrange.year, hrange.month, hdays ▸ hrange.day, hrange.hour,
      hrange.minute, hrange.second, hrange.nanos⟩
  · intro hvalid
    have hdays := daysInMonth_eq hvalid.month t.year.toNat
    exact ⟨Nat.lt_succ_of_le hvalid.year, hvalid.month, hdays ▸ hvalid.day, hvalid.hour,
      hvalid.minute, hvalid.second, hvalid.nanos⟩

/-- Reading returns timestamps of the calendar only. -/
theorem valid_of_read? {text : String} {t : Timestamp} (hread : read? text = some t) : t.Valid :=
  (inRange_iff_valid t).1 (inRange_of_readChars? hread)

/-- The timestamps of the calendar are those that are read as they were written. -/
theorem read?_text_iff (t : Timestamp) : read? t.text = some t ↔ t.Valid :=
  ⟨valid_of_read?, fun hvalid => readChars?_text ((inRange_iff_valid t).2 hvalid)⟩

/-! ## Words of 32 bits -/

/-- The sum, if it fits. -/
def checkedAdd (a b : UInt32) : Option UInt32 :=
  if a.toNat + b.toNat < 2 ^ 32 then some (a + b) else none

/-- The product, if it fits. -/
def checkedMul (a b : UInt32) : Option UInt32 :=
  if a.toNat * b.toNat < 2 ^ 32 then some (a * b) else none

/-- A power of ten, if it fits, and all powers before it do. -/
def checkedPowTen : Nat → Option UInt32
  | 0 => some 1
  | exponent + 1 => do checkedMul (← checkedPowTen exponent) 10

/-- The difference, if it is not negative. -/
def checkedSub (a b : Nat) : Option Nat :=
  if b ≤ a then some (a - b) else none

/-- The number that decimal digits spell, if it fits, and the numbers of all digits before do. -/
def wordOfDigits (digits : List Char) : Option UInt32 :=
  digits.foldlM (fun value digit => do
    checkedAdd (← checkedMul value 10) (.ofNat (Text.digitValue digit))) 0

/-- The word in 16 bits, if it fits. -/
def toHalf? (value : UInt32) : Option UInt16 :=
  if value.toNat < 2 ^ 16 then some value.toUInt16 else none

/-- The word in 8 bits, if it fits. -/
def toByte? (value : UInt32) : Option UInt8 :=
  if value.toNat < 2 ^ 8 then some value.toUInt8 else none

/-- The nanoseconds that the digits behind a second stand for, if every step fits. -/
def nanosWord? (fraction : List Char) : Option UInt32 := do
  let missing ← checkedSub maxFractionDigits fraction.length
  checkedMul (← wordOfDigits fraction) (← checkedPowTen missing)

/-- The timestamp with the fields if they are in range, provided that the fields fit the words
that hold them. -/
def ofWords? (year month day hour minute second nanos : UInt32) : Option (Option Timestamp) := do
  let time : Timestamp := {
    year := ← toHalf? year, month := ← toByte? month, day := ← toByte? day,
    hour := ← toByte? hour, minute := ← toByte? minute, second := ← toByte? second, nanos }
  return if 1 ≤ month ∧ month ≤ 12 ∧ 1 ≤ day ∧ day.toNat ≤ daysInMonth year.toNat month.toNat ∧
      hour < 24 ∧ minute < 60 ∧ second < 60 then some time else none

/-- Reads a timestamp in words of 32 bits.  There is no answer at all if a step on the way leaves
the range of its word. -/
def readWords? (text : List Char) : Option (Option Timestamp) :=
  if shape text ≠ .whole then some none
  else do
    let field (start length : Nat) := wordOfDigits ((text.drop start).take length)
    ofWords? (← field 0 4) (← field 5 2) (← field 8 2) (← field 11 2) (← field 14 2)
      (← field 17 2) (← nanosWord? ((text.drop 20).takeWhile Char.isDigit))

section

variable {a b : Nat} (ha : a < 2 ^ 32) (hb : b < 2 ^ 32)

include ha hb

theorem checkedAdd_ofNat (hsum : a + b < 2 ^ 32) :
    checkedAdd (.ofNat a) (.ofNat b) = some (.ofNat (a + b)) := by
  rw [checkedAdd, UInt32.toNat_ofNat_of_lt' ha, UInt32.toNat_ofNat_of_lt' hb, if_pos hsum,
    UInt32.ofNat_add]

theorem checkedMul_ofNat (hproduct : a * b < 2 ^ 32) :
    checkedMul (.ofNat a) (.ofNat b) = some (.ofNat (a * b)) := by
  rw [checkedMul, UInt32.toNat_ofNat_of_lt' ha, UInt32.toNat_ofNat_of_lt' hb, if_pos hproduct,
    UInt32.ofNat_mul]

end

theorem checkedPowTen_eq {exponent : Nat} (hexponent : exponent ≤ 9) :
    checkedPowTen exponent = some (.ofNat (10 ^ exponent)) := by
  interval_cases exponent <;> rfl

/-- Nine digits fit a word, and so do the numbers on the way to them. -/
theorem wordOfDigits_eq {digits : List Char} (hdigits : ∀ c ∈ digits, c.isDigit = true)
    (hlength : digits.length ≤ 9) :
    wordOfDigits digits = some (.ofNat (Text.ofDigits 10 digits)) := by
  induction digits using List.reverseRecOn with
  | nil => rfl
  | append_singleton init digit ih =>
    rw [List.forall_mem_append, List.forall_mem_singleton] at hdigits
    rw [List.length_append, List.length_singleton] at hlength
    have hvalue : Text.ofDigits 10 init < 10 ^ 8 :=
      Nat.lt_of_lt_of_le (Text.ofDigits_lt hdigits.1) (Nat.pow_le_pow_right (by omega) (by omega))
    have hdigit := Text.digitValue_lt_ten hdigits.2
    have hinit := ih hdigits.1 (by omega)
    have hlast : Text.ofDigits 10 [digit] = Text.digitValue digit := by simp [Text.ofDigits]
    rw [wordOfDigits] at hinit ⊢
    rw [List.foldlM_append, hinit, Text.ofDigits_append, hlast]
    have hproduct : checkedMul (.ofNat (Text.ofDigits 10 init)) 10 =
        some (.ofNat (Text.ofDigits 10 init * 10)) :=
      checkedMul_ofNat (b := 10) (by omega) (by omega) (by omega)
    simp only [List.foldlM_cons, List.foldlM_nil, bind_pure, Option.bind_eq_bind, Option.bind_some,
      hproduct]
    exact checkedAdd_ofNat (by omega) (by omega) (by omega)

/-- A field has as many digits as its place in the template. -/
theorem wordOfDigits_field {text : List Char}
    (hfits : (template.zipWith fits text).all id = true) {start length : Nat}
    (hplaces : (template.drop start).take length = List.replicate length 'd')
    (hlength : length ≤ 9) :
    wordOfDigits ((text.drop start).take length) =
      some (.ofNat (Text.ofDigits 10 ((text.drop start).take length))) :=
  wordOfDigits_eq (fun _ hmem => isDigit_of_fits hfits hplaces hmem)
    (Nat.le_trans (List.length_take_le _ _) hlength)

/-- Up to nine digits are scaled within a word. -/
theorem nanosWord?_eq {fraction : List Char} (hdigits : ∀ c ∈ fraction, c.isDigit = true)
    (hlength : fraction.length ≤ maxFractionDigits) :
    nanosWord? fraction =
      some (.ofNat (Text.ofDigits 10 fraction * 10 ^ (maxFractionDigits - fraction.length))) := by
  have hmax : maxFractionDigits = 9 := rfl
  obtain ⟨missing, hmissing⟩ := Nat.exists_eq_add_of_le hlength
  have hsub : maxFractionDigits - fraction.length = missing := by omega
  have hvalue := Text.ofDigits_lt hdigits
  have hscaled : Text.ofDigits 10 fraction * 10 ^ missing < 10 ^ 9 := by
    rw [← hmax, hmissing, Nat.pow_add]
    exact Nat.mul_lt_mul_of_pos_right hvalue (Nat.pow_pos (by omega))
  have hbound {exponent : Nat} (hle : exponent ≤ 9) : 10 ^ exponent ≤ 10 ^ 9 :=
    Nat.pow_le_pow_right (by omega) hle
  have hdigitsBound := hbound (hmax ▸ hlength)
  have hscaleBound : 10 ^ missing ≤ 10 ^ 9 := hbound (by omega)
  have hscale : checkedPowTen missing = some (.ofNat (10 ^ missing)) := checkedPowTen_eq (by omega)
  simp only [nanosWord?, checkedSub, if_pos hlength, hsub, hscale, Option.bind_eq_bind,
    Option.bind_some, wordOfDigits_eq hdigits (hmax ▸ hlength)]
  exact checkedMul_ofNat (by omega) (by omega) (by omega)

theorem toHalf?_ofNat {n : Nat} (hn : n < 2 ^ 16) : toHalf? (.ofNat n) = some (.ofNat n) := by
  have hword : (UInt32.ofNat n).toNat = n := UInt32.toNat_ofNat_of_lt' (Nat.lt_trans hn (by decide))
  rw [toHalf?, hword, if_pos hn]
  congr 1
  apply UInt16.toNat.inj
  rw [UInt32.toNat_toUInt16, hword, UInt16.toNat_ofNat']

theorem toByte?_ofNat {n : Nat} (hn : n < 2 ^ 8) : toByte? (.ofNat n) = some (.ofNat n) := by
  have hword : (UInt32.ofNat n).toNat = n := UInt32.toNat_ofNat_of_lt' (Nat.lt_trans hn (by decide))
  rw [toByte?, hword, if_pos hn]
  congr 1
  apply UInt8.toNat.inj
  rw [UInt32.toNat_toUInt8, hword, UInt8.toNat_ofNat']

/-- Fields of two digits, and a year of four, fit the words that hold them. -/
theorem ofWords?_ofNat {year month day hour minute second : Nat} (hyear : year < 10 ^ 4)
    (hmonth : month < 10 ^ 2) (hday : day < 10 ^ 2) (hhour : hour < 10 ^ 2)
    (hminute : minute < 10 ^ 2) (hsecond : second < 10 ^ 2) (nanos : UInt32) :
    ofWords? (.ofNat year) (.ofNat month) (.ofNat day) (.ofNat hour) (.ofNat minute)
        (.ofNat second) nanos =
      some (if 1 ≤ month ∧ month ≤ 12 ∧ 1 ≤ day ∧ day ≤ daysInMonth year month ∧
          hour < 24 ∧ minute < 60 ∧ second < 60 then
        some ⟨.ofNat year, .ofNat month, .ofNat day, .ofNat hour, .ofNat minute, .ofNat second,
          nanos⟩
      else none) := by
  have hword {n : Nat} (hn : n < 10 ^ 4) : (UInt32.ofNat n).toNat = n :=
    UInt32.toNat_ofNat_of_lt' (Nat.lt_trans hn (by decide))
  have hbyte {n : Nat} (hn : n < 10 ^ 2) : toByte? (.ofNat n) = some (.ofNat n) :=
    toByte?_ofNat (Nat.lt_trans hn (by decide))
  have hyear' := hword hyear
  have hmonth' := hword (Nat.lt_trans hmonth (by decide))
  have hday' := hword (Nat.lt_trans hday (by decide))
  have hhour' := hword (Nat.lt_trans hhour (by decide))
  have hminute' := hword (Nat.lt_trans hminute (by decide))
  have hsecond' := hword (Nat.lt_trans hsecond (by decide))
  have hhalf := toHalf?_ofNat (Nat.lt_trans hyear (by decide))
  simp only [ofWords?, hhalf, hbyte hmonth, hbyte hday, hbyte hhour, hbyte hminute, hbyte hsecond,
    Option.bind_eq_bind, Option.bind_some, UInt32.le_iff_toNat_le, UInt32.lt_iff_toNat_lt, hyear',
    hmonth', hday', hhour', hminute', hsecond', UInt32.reduceToNat]
  rfl

/-- No step of reading a timestamp leaves the range of its word. -/
theorem readWords?_eq (text : List Char) : readWords? text = some (readChars? text) := by
  unfold readWords? readChars?
  split
  · rfl
  · rename_i hshape
    have hwhole : shape text = .whole := by simpa using hshape
    obtain ⟨hfits, _⟩ := shape_eq_whole hwhole
    have hfraction := nanosWord?_eq
      (fun c hmem => List.all_eq_true.1 (List.all_takeWhile (l := text.drop 20)) c hmem)
      (length_fraction_le hwhole)
    have hplaces : ∀ start ∈ [5, 8, 11, 14, 17],
      (template.drop start).take 2 = List.replicate 2 'd' := by decide
    have hfield (start : Nat) (hstart : start ∈ [5, 8, 11, 14, 17]) :=
      wordOfDigits_field hfits (hplaces start hstart) (by decide)
    have hbound (start : Nat) (hstart : start ∈ [5, 8, 11, 14, 17]) :=
      field_lt hfits (hplaces start hstart)
    have hyears : (template.drop 0).take 4 = List.replicate 4 'd' := by decide
    simp only [wordOfDigits_field hfits hyears (by decide), hfield 5 (by decide),
      hfield 8 (by decide), hfield 11 (by decide), hfield 14 (by decide), hfield 17 (by decide),
      hfraction, Option.bind_eq_bind, Option.bind_some]
    exact ofWords?_ofNat (field_lt hfits hyears) (hbound 5 (by decide)) (hbound 8 (by decide))
      (hbound 11 (by decide)) (hbound 14 (by decide)) (hbound 17 (by decide)) _

/-! ## Reading what was written -/

/-- Reading inverts writing on the timestamps of the calendar and on no others, returns only these,
and leaves the range of its words on no text. -/
theorem reading_inverts_writing :
    (∀ t : Timestamp, read? t.text = some t ↔ t.Valid) ∧
    (∀ text t, read? text = some t → t.Valid) ∧
    ∀ text : String, readWords? text.toList = some (read? text) :=
  ⟨read?_text_iff, fun _ _ => valid_of_read?, fun text => readWords?_eq text.toList⟩

theorem reading_inverts_writing_leapDay :
    (⟨2000, 2, 29, 23, 59, 59, 999999999⟩ : Timestamp).Valid ∧
    ¬ (⟨1900, 2, 29, 23, 59, 59, 999999999⟩ : Timestamp).Valid ∧
    readWords? "2000-02-29T23:59:59.999999999Z".toList =
      some (some ⟨2000, 2, 29, 23, 59, 59, 999999999⟩) := by
  have hread : read? "2000-02-29T23:59:59.999999999Z" =
      some ⟨2000, 2, 29, 23, 59, 59, 999999999⟩ := by decide +kernel
  refine ⟨reading_inverts_writing.2.1 _ _ hread, fun hvalid => ?_, ?_⟩
  · have hwritten := (reading_inverts_writing.1 _).2 hvalid
    exact absurd hwritten (by decide +kernel)
  · rw [reading_inverts_writing.2.2, hread]

end Docpress.Timestamp
