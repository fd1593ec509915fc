import Docpress.Text.Numeral
import Mathlib.Algebra.Group.Nat.Defs

/-!
# Numerals read back

Digits that were written are read as the number they were written for.  All of it rests on the
value of a sequence of digits: of one behind another (`ofDigits_append`), of zeros in front
(`ofDigits_padZeros`) and of zeros at the end (`eq_trimZeros_append`).
-/

namespace Docpress.Text

/-! ## The value of digits -/

theorem digitValue_of_isDigit {c : Char} (hdigit : c.isDigit = true) :
    digitValue c = c.toNat - '0'.toNat := by
  rw [digitValue, if_pos hdigit]

theorem ofDigits_foldl (base start : Nat) (digits : List Char) :
    digits.foldl (fun value digit => value * base + digitValue digit) start =
      start * base ^ digits.length + ofDigits base digits := by
  unfold ofDigits
  induction digits generalizing start with
  | nil => simp
  | cons digit digits ih =>
    rw [List.foldl_cons, ih, List.foldl_cons, ih (0 * base + digitValue digit), List.length_cons,
      Nat.pow_succ']
    grind

theorem ofDigits_append (base : Nat) (first second : List Char) :
    ofDigits base (first ++ second) =
      ofDigits base first * base ^ second.length + ofDigits base second := by
  rw [ofDigits, List.foldl_append, ← ofDigits, ofDigits_foldl]

theorem ofDigits_cons (base : Nat) (digit : Char) (digits : List Char) :
    ofDigits base (digit :: digits) =
      digitValue digit * base ^ digits.length + ofDigits base digits := by
  rw [ofDigits, List.foldl_cons, ofDigits_foldl, Nat.zero_mul, Nat.zero_add]

theorem ofDigits_replicate_zero (base count : Nat) :
    ofDigits base (List.replicate count '0') = 0 := by
  induction count with
  | zero => rfl
  | succ count ih =>
    rw [List.replicate_succ, ofDigits_cons, ih]
    simp [digitValue]

theorem ofDigits_padZeros (base width : Nat) (digits : List Char) :
    ofDigits base (padZeros width digits) = ofDigits base digits := by
  rw [padZeros, ofDigits_append, ofDigits_replicate_zero, Nat.zero_mul, Nat.zero_add]

theorem digitValue_lt_ten {c : Char} (hdigit : c.isDigit = true) : digitValue c < 10 := by
  rw [digitValue_of_isDigit hdigit]
  have hrange := Char.isDigit_iff_toNat.1 hdigit
  simp only [Char.reduceToNat] at hrange ⊢
  omega

/-- Digits spell a number below the power of the base that their count gives. -/
theorem ofDigits_lt_pow {base : Nat} {digits : List Char}
    (hdigits : ∀ c ∈ digits, digitValue c < base) :
    ofDigits base digits < base ^ digits.length := by
  induction digits with
  | nil => simp [ofDigits]
  | cons digit digits ih =>
    have hrest := ih fun c hmem => hdigits c (List.mem_cons_of_mem _ hmem)
    have hdigit := hdigits digit List.mem_cons_self
    rw [ofDigits_cons, List.length_cons, Nat.pow_succ]
    calc digitValue digit * base ^ digits.length + ofDigits base digits
        < digitValue digit * base ^ digits.length + base ^ digits.length := by omega
      _ = (digitValue digit + 1) * base ^ digits.length := by rw [Nat.add_mul, Nat.one_mul]
      _ ≤ base * base ^ digits.length := Nat.mul_le_mul_right _ hdigit
      _ = base ^ digits.length * base := Nat.mul_comm _ _

theorem ofDigits_lt {digits : List Char} (hdigits : ∀ c ∈ digits, c.isDigit = true) :
    ofDigits 10 digits < 10 ^ digits.length :=
  ofDigits_lt_pow fun c hmem => digitValue_lt_ten (hdigits c hmem)

/-! ## Written numbers -/

theorem isDigit_of_mem_decimalDigits {n : Nat} {c : Char} (hmem : c ∈ decimalDigits n) :
    c.isDigit = true :=
  Nat.isDigit_of_mem_toDigits (by omega) (by omega) hmem

theorem decimalDigits_ne_nil (n : Nat) : decimalDigits n ≠ [] := Nat.toDigits_ne_nil

theorem digitValue_digitChar {n : Nat} (hn : n < 16) : digitValue n.digitChar = n := by
  have hall : ∀ n : Fin 16, digitValue n.val.digitChar = n.val := by decide
  exact hall ⟨n, hn⟩

/-- Digits of any base up to sixteen spell the number that they were written for. -/
theorem ofDigits_toDigits {base : Nat} (hbase : 1 < base) (hle : base ≤ 16) (n : Nat) :
    ofDigits base (Nat.toDigits base n) = n := by
  induction n using Nat.strongRecOn with
  | ind n ih =>
    rw [Nat.toDigits_eq_if hbase]
    split
    · rw [ofDigits_cons, digitValue_digitChar (by omega)]
      simp [ofDigits]
    · have hmod : n % base < base := Nat.mod_lt _ (by omega)
      have hdiv : n / base < n := Nat.div_lt_self (by omega) hbase
      rw [ofDigits_append, ih _ hdiv, ofDigits_cons, digitValue_digitChar (by omega)]
      simp [ofDigits, Nat.div_add_mod']

theorem ofDigits_decimalDigits (n : Nat) : ofDigits 10 (decimalDigits n) = n :=
  ofDigits_toDigits (by omega) (by omega) n

theorem ofDigits_hexDigits (n : Nat) : ofDigits 16 (hexDigits n) = n :=
  ofDigits_toDigits (by omega) (by omega) n

theorem isHexDigit_of_mem_hexDigits {n : Nat} {c : Char} (hmem : c ∈ hexDigits n) :
    isHexDigit c = true := by
  have hall : ∀ n : Fin 16, isHexDigit n.val.digitChar = true := by decide
  induction n using Nat.strongRecOn with
  | ind n ih =>
    rw [hexDigits, Nat.toDigits_eq_if (by omega)] at hmem
    split at hmem
    · rename_i hn
      rw [List.mem_singleton.1 hmem]
      exact hall ⟨n, hn⟩
    · rcases List.mem_append.1 hmem with hmem | hmem
      · exact ih (n / 16) (Nat.div_lt_self (by omega) (by omega)) hmem
      · rw [List.mem_singleton.1 hmem]
        exact hall ⟨n % 16, Nat.mod_lt _ (by omega)⟩

theorem length_decimalDigits_le {n width : Nat} (hwidth : 0 < width) (hn : n < 10 ^ width) :
    (decimalDigits n).length ≤ width :=
  (Nat.length_toDigits_le_iff (by omega) hwidth).2 hn

theorem lt_of_length_decimalDigits (n : Nat) : n < 10 ^ (decimalDigits n).length :=
  (Nat.length_toDigits_le_iff (by omega) Nat.length_toDigits_pos).1 (Nat.le_refl _)

/-- Padding reaches the width exactly. -/
theorem length_padZeros {width : Nat} {digits : List Char} (hlength : digits.length ≤ width) :
    (padZeros width digits).length = width := by
  rw [padZeros, List.length_append, List.length_replicate]
  omega

theorem isDigit_of_mem_padZeros {width n : Nat} {c : Char}
    (hmem : c ∈ padZeros width (decimalDigits n)) : c.isDigit = true := by
  rcases List.mem_append.1 hmem with hmem | hmem
  · rw [List.eq_of_mem_replicate hmem]
    rfl
  · exact isDigit_of_mem_decimalDigits hmem

/-! ## Zeros at the end -/

/-- The digits without the zeros at their end. -/
def trimZeros (digits : List Char) : List Char :=
  (digits.reverse.dropWhile (· == '0')).reverse

theorem eq_trimZeros_append (digits : List Char) :
    ∃ zeros, digits = trimZeros digits ++ List.replicate zeros '0' := by
  have hsplit : digits.reverse =
      digits.reverse.takeWhile (· == '0') ++ digits.reverse.dropWhile (· == '0') :=
    (List.takeWhile_append_dropWhile).symm
  have hzeros : digits.reverse.takeWhile (· == '0') =
      List.replicate (digits.reverse.takeWhile (· == '0')).length '0' := by
    refine List.eq_replicate_iff.2 ⟨rfl, fun c hmem => ?_⟩
    simpa using List.all_eq_true.1 List.all_takeWhile c hmem
  refine ⟨(digits.reverse.takeWhile (· == '0')).length, ?_⟩
  have hreverse := congrArg List.reverse hsplit
  rw [List.reverse_reverse, List.reverse_append, hzeros, List.reverse_replicate] at hreverse
  exact hreverse

theorem mem_of_mem_trimZeros {digits : List Char} {c : Char} (hmem : c ∈ trimZeros digits) :
    c ∈ digits := by
  obtain ⟨zeros, hdigits⟩ := eq_trimZeros_append digits
  rw [hdigits]
  exact List.mem_append_left _ hmem

/-! ## Reading -/

theorem readDigits?_of_isDigit {digits : List Char} (hne : digits ≠ [])
    (hdigits : ∀ c ∈ digits, c.isDigit = true) :
    readDigits? digits = some (ofDigits 10 digits) := by
  have hall : digits.all Char.isDigit = true := List.all_eq_true.2 hdigits
  rw [readDigits?, if_neg]
  simp [hne, hall]

theorem readDigits?_decimalDigits (n : Nat) : readDigits? (decimalDigits n) = some n := by
  rw [readDigits?_of_isDigit (decimalDigits_ne_nil n) fun _ => isDigit_of_mem_decimalDigits,
    ofDigits_decimalDigits]

theorem head_decimalDigits (n : Nat) :
    ∃ first rest, decimalDigits n = first :: rest ∧ first.isDigit = true := by
  cases hdigits : decimalDigits n with
  | nil => exact absurd hdigits (decimalDigits_ne_nil n)
  | cons first rest =>
    refine ⟨first, rest, rfl, isDigit_of_mem_decimalDigits (n := n) ?_⟩
    rw [hdigits]
    exact List.mem_cons_self

theorem readUnsigned?_of_isDigit (limit : Nat) {digits : List Char} (hne : digits ≠ [])
    (hdigits : ∀ c ∈ digits, c.isDigit = true) :
    readUnsigned? limit digits =
      if ofDigits 10 digits < limit then some (ofDigits 10 digits) else none := by
  have hread := readDigits?_of_isDigit hne hdigits
  -- the first character is a digit, hence no plus sign
  unfold readUnsigned?
  split
  · exact absurd (hdigits '+' List.mem_cons_self) (by decide)
  · dsimp only
    rw [hread, Option.filter_some]
    simp only [decide_eq_true_eq]

theorem readUnsigned?_decimalDigits_eq (limit n : Nat) :
    readUnsigned? limit (decimalDigits n) = if n < limit then some n else none := by
  rw [readUnsigned?_of_isDigit limit (decimalDigits_ne_nil n) fun _ => isDigit_of_mem_decimalDigits,
    ofDigits_decimalDigits]

theorem readUnsigned?_decimalDigits {limit n : Nat} (hn : n < limit) :
    readUnsigned? limit (decimalDigits n) = some n := by
  rw [readUnsigned?_decimalDigits_eq, if_pos hn]

/-- An unsigned number is read as it was written. -/
theorem readUInt64?_decimal {n : Nat} (hn : n < 2 ^ 64) :
    readUInt64? (decimal n) = some (.ofNat n) := by
  rw [readUInt64?, decimal, String.toList_ofList, Nat.pow_eq, readUnsigned?_decimalDigits hn]
  rfl

/-- A number that 64 bits do not hold is not read. -/
theorem readUInt64?_decimal_of_le {n : Nat} (hn : 2 ^ 64 ≤ n) : readUInt64? (decimal n) = none := by
  rw [readUInt64?, decimal, String.toList_ofList, Nat.pow_eq, readUnsigned?_decimalDigits_eq,
    if_neg (Nat.not_lt.2 hn)]
  rfl

theorem toList_signedDecimal (n : Int) : (signedDecimal n).toList =
    if n < 0 then '-' :: decimalDigits n.natAbs else decimalDigits n.natAbs := by
  unfold signedDecimal
  split
  · rw [String.toList_append, decimal, String.toList_ofList, String.toList_ofList]
    rfl
  · exact String.toList_ofList

/-- Digits are read as a number of 64 bits with a sign, if they leave room for the sign. -/
theorem readInt64?_of_isDigit {digits : List Char} (hne : digits ≠ [])
    (hdigits : ∀ c ∈ digits, c.isDigit = true) (hfits : ofDigits 10 digits < 2 ^ 63) :
    readInt64? (String.ofList digits) = some (Int64.ofNat (ofDigits 10 digits)) := by
  have hread : readSigned? (2 ^ 63) digits = some (ofDigits 10 digits : Int) := by
    unfold readSigned?
    split
    · exact absurd (hdigits '-' List.mem_cons_self) (by decide)
    · rw [readUnsigned?_of_isDigit (2 ^ 63) hne hdigits, if_pos hfits]
      rfl
  rw [readInt64?, String.toList_ofList, Nat.pow_eq, hread]
  rfl

/-- A signed number is read as it was written. -/
theorem readInt64?_signedDecimal (n : Int64) : readInt64? (signedDecimal n.toInt) = some n := by
  have hlow := n.le_toInt
  have hhigh := n.toInt_lt
  have hread : readSigned? (2 ^ 63) (signedDecimal n.toInt).toList = some n.toInt := by
    rw [toList_signedDecimal]
    split
    · rename_i hnegative
      rw [readSigned?, readDigits?_decimalDigits, Option.filter_some, if_pos (by simp; omega)]
      show some (-(n.toInt.natAbs : Int)) = some n.toInt
      congr 1
      omega
    · rename_i hpositive
      obtain ⟨first, rest, hdigits, hfirst⟩ := head_decimalDigits n.toInt.natAbs
      have hunsigned := @readUnsigned?_decimalDigits (2 ^ 63) n.toInt.natAbs (by omega)
      unfold readSigned?
      split
      · rename_i hminus
        rw [hdigits] at hminus
        cases hminus
        cases hfirst
      · rw [hunsigned]
        show some (n.toInt.natAbs : Int) = some n.toInt
        congr 1
        omega
  rw [readInt64?, Nat.pow_eq, hread, Option.map_some, Int64.ofInt_toInt]

end Docpress.Text
