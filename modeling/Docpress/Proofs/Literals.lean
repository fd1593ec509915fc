import Docpress.Color
import Docpress.Proofs.Numerals
import Docpress.Timestamp
import Mathlib.Data.List.Basic
import Mathlib.Data.List.TakeWhile

/-!
# Colors and timestamps read back

Colors are read as they were written, and so are those timestamps that reading can return at
all: the fields of a timestamp are wider than the calendar (`Timestamp.InRange`).

A scanner that meets a timestamp character by character goes on while the text may still become
one.  `Timestamp.shape_of_append` says that it does not stop within a timestamp.
-/

namespace Docpress

/-! ## Colors -/

namespace Color

/-- A byte is written with two hexadecimal digits. -/
theorem padZeros_hexDigits (byte : UInt8) :
    ∃ high low, Text.padZeros 2 (Text.hexDigits byte.toNat) = [high, low] ∧
      Text.isHexDigit high = true ∧ Text.isHexDigit low = true ∧ channel high low = byte := by
  have hlength : (Text.padZeros 2 (Text.hexDigits byte.toNat)).length = 2 := by
    apply Text.length_padZeros
    exact (Nat.length_toDigits_le_iff (by omega) (by omega)).2 byte.toNat_lt
  have hvalue : Text.ofDigits 16 (Text.padZeros 2 (Text.hexDigits byte.toNat)) = byte.toNat := by
    rw [Text.ofDigits_padZeros, Text.ofDigits_hexDigits]
  have hdigits : ∀ c ∈ Text.padZeros 2 (Text.hexDigits byte.toNat),
      Text.isHexDigit c = true := by
    intro c hmem
    rcases List.mem_append.1 hmem with hmem | hmem
    · rw [List.eq_of_mem_replicate hmem]
      rfl
    · exact Text.isHexDigit_of_mem_hexDigits hmem
  obtain ⟨high, low, hpair⟩ := List.length_eq_two.1 hlength
  rw [hpair] at hvalue hdigits
  refine ⟨high, low, hpair, hdigits high (by simp), hdigits low (by simp), ?_⟩
  rw [channel, hvalue, UInt8.ofNat_toNat]

/-- A color is read as it was written. -/
theorem readChars?_text (c : Color) : readChars? c.text.toList = some c := by
  obtain ⟨r, r', hred, hr, hr', hr''⟩ := padZeros_hexDigits c.red
  obtain ⟨g, g', hgreen, hg, hg', hg''⟩ := padZeros_hexDigits c.green
  obtain ⟨b, b', hblue, hb, hb', hb''⟩ := padZeros_hexDigits c.blue
  obtain ⟨a, a', halpha, ha, ha', ha''⟩ := padZeros_hexDigits c.alpha
  by_cases hopaque : c.alpha = 255
  · have htext : c.text.toList = ['#', r, r', g, g', b, b'] := by
      simp [text, hopaque, Text.paddedHex, hred, hgreen, hblue, String.join]
    simp [htext, readChars?, hr, hr', hg, hg', hb, hb', hr'', hg'', hb'', ← hopaque]
  · have htext : c.text.toList = ['#', r, r', g, g', b, b', a, a'] := by
      simp [text, hopaque, Text.paddedHex, hred, hgreen, hblue, halpha, String.join]
    simp [htext, readChars?, hr, hr', hg, hg', hb, hb', ha, ha', hr'', hg'', hb'', ha'']

/-- A mark and hexadecimal digits are all that a color is written with. -/
theorem toList_text (c : Color) :
    ∃ digits, c.text.toList = '#' :: digits ∧ ∀ d ∈ digits, Text.isHexDigit d = true := by
  have hread := readChars?_text c
  unfold readChars? at hread
  split at hread
  · rename_i digits htext
    refine ⟨digits, htext, List.all_eq_true.1 ?_⟩
    cases hall : digits.all Text.isHexDigit with
    | true => rfl
    | false => simp [hall] at hread
  · cases hread

end Color

/-! ## Timestamps -/

namespace Timestamp

/-- The fields are those of a day and a time. -/
structure InRange (t : Timestamp) : Prop where
  year : t.year.toNat < 10 ^ 4
  month : 1 ≤ t.month.toNat ∧ t.month.toNat ≤ 12
  day : 1 ≤ t.day.toNat ∧ t.day.toNat ≤ daysInMonth t.year.toNat t.month.toNat
  hour : t.hour.toNat < 24
  minute : t.minute.toNat < 60
  second : t.second.toNat < 60
  nanos : t.nanos.toNat < 10 ^ 9

theorem template_eq : template =
    ['d', 'd', 'd', 'd', '-', 'd', 'd', '-', 'd', 'd', 'T', 'd', 'd', ':', 'd', 'd', ':',
      'd', 'd'] := by
  decide

theorem daysInMonth_le (year month : Nat) : daysInMonth year month ≤ 31 := by
  unfold daysInMonth
  split
  · split <;> omega
  · split <;> omega

/-- Where the template has digits, so has the text of a timestamp. -/
theorem isDigit_of_fits {text : List Char} (hfits : (template.zipWith fits text).all id = true)
    {start length : Nat}
    (hplaces : (template.drop start).take length = List.replicate length 'd') {c : Char}
    (hmem : c ∈ (text.drop start).take length) : c.isDigit = true := by
  obtain ⟨i, hi⟩ := List.mem_iff_getElem?.1 hmem
  rw [List.getElem?_take] at hi
  split at hi
  · rename_i hlt
    have hplace : template[start + i]? = some 'd' := by
      have hget := congrArg (·[i]?) hplaces
      simpa [List.getElem?_take, hlt] using hget
    rw [List.getElem?_drop] at hi
    have hfit : fits 'd' c ∈ template.zipWith fits text := by
      refine List.mem_iff_getElem?.2 ⟨start + i, ?_⟩
      rw [List.getElem?_zipWith, hplace, hi]
    have htrue : fits 'd' c = true := by simpa using List.all_eq_true.1 hfits _ hfit
    simpa [fits] using htrue
  · cases hi

/-- A field of a timestamp stays below the power of ten that its width gives. -/
theorem field_lt {text : List Char} (hfits : (template.zipWith fits text).all id = true)
    {start length : Nat}
    (hplaces : (template.drop start).take length = List.replicate length 'd') :
    Text.ofDigits 10 ((text.drop start).take length) < 10 ^ length := by
  have hlt := Text.ofDigits_lt fun c hmem => isDigit_of_fits hfits hplaces hmem
  refine Nat.lt_of_lt_of_le hlt (Nat.pow_le_pow_right (by omega) ?_)
  exact List.length_take_le _ _

theorem shape_eq_whole {text : List Char} (hwhole : shape text = .whole) :
    (template.zipWith fits text).all id = true ∧
      (text.length < template.length ∨ tailShape (text.drop template.length) = .whole) := by
  unfold shape at hwhole
  split at hwhole
  · cases hwhole
  · rename_i hfits
    refine ⟨by simpa using hfits, ?_⟩
    split at hwhole
    · exact .inl ‹_›
    · exact .inr hwhole

/-- The fraction of a second has at most nine digits. -/
theorem length_fraction_le {text : List Char} (hwhole : shape text = .whole) :
    ((text.drop 20).takeWhile Char.isDigit).length ≤ maxFractionDigits := by
  have hlength : template.length = 19 := by decide
  obtain ⟨_, hshort | htail⟩ := shape_eq_whole hwhole
  · rw [List.drop_eq_nil_of_le (by omega)]
    simp
  · rw [hlength] at htail
    have hdrop : text.drop 20 = (text.drop 19).drop 1 := by rw [List.drop_drop]
    rw [hdrop]
    generalize text.drop 19 = tail at htail ⊢
    unfold tailShape at htail
    split at htail
    · simp
    · simp
    · dsimp only at htail
      split at htail
      · cases htail
      · rw [List.drop_one, List.tail_cons]
        omega
    · cases htail

theorem nanos_lt {text : List Char} (hwhole : shape text = .whole) :
    Text.ofDigits 10 ((text.drop 20).takeWhile Char.isDigit) *
      10 ^ (maxFractionDigits - ((text.drop 20).takeWhile Char.isDigit).length) < 10 ^ 9 := by
  have hlength := length_fraction_le hwhole
  have hdigits : ∀ c ∈ (text.drop 20).takeWhile Char.isDigit, c.isDigit = true :=
    fun c hmem => List.all_eq_true.1 List.all_takeWhile c hmem
  generalize (text.drop 20).takeWhile Char.isDigit = fraction at hlength hdigits ⊢
  have hsplit : (10 : Nat) ^ 9 = 10 ^ fraction.length * 10 ^ (maxFractionDigits - fraction.length) := by
    rw [← Nat.pow_add, Nat.add_sub_cancel' hlength]
    rfl
  rw [hsplit]
  exact Nat.mul_lt_mul_of_pos_right (Text.ofDigits_lt hdigits) (Nat.pow_pos (by omega))

/-- Fields in range fit the words that hold them. -/
theorem inRange_ofNat {year month day hour minute second nanos : Nat} (hyear : year < 10 ^ 4)
    (hmonth : 1 ≤ month ∧ month ≤ 12) (hday : 1 ≤ day ∧ day ≤ daysInMonth year month)
    (hhour : hour < 24) (hminute : minute < 60) (hsecond : second < 60) (hnanos : nanos < 10 ^ 9) :
    InRange ⟨.ofNat year, .ofNat month, .ofNat day, .ofNat hour, .ofNat minute, .ofNat second,
      .ofNat nanos⟩ := by
  have hdays := daysInMonth_le year month
  have hsizes : UInt8.size = 2 ^ 8 ∧ UInt16.size = 2 ^ 16 ∧ UInt32.size = 2 ^ 32 := ⟨rfl, rfl, rfl⟩
  have hyear' : (UInt16.ofNat year).toNat = year := UInt16.toNat_ofNat_of_lt' (by omega)
  have hmonth' : (UInt8.ofNat month).toNat = month := UInt8.toNat_ofNat_of_lt' (by omega)
  have hday' : (UInt8.ofNat day).toNat = day := UInt8.toNat_ofNat_of_lt' (by omega)
  have hhour' : (UInt8.ofNat hour).toNat = hour := UInt8.toNat_ofNat_of_lt' (by omega)
  have hminute' : (UInt8.ofNat minute).toNat = minute := UInt8.toNat_ofNat_of_lt' (by omega)
  have hsecond' : (UInt8.ofNat second).toNat = second := UInt8.toNat_ofNat_of_lt' (by omega)
  have hnanos' : (UInt32.ofNat nanos).toNat = nanos := UInt32.toNat_ofNat_of_lt' (by omega)
  constructor <;> simp only [hyear', hmonth', hday', hhour', hminute', hsecond', hnanos'] <;>
    assumption

/-- The timestamps that reading returns have all their fields in range. -/
theorem inRange_of_readChars? {text : List Char} {t : Timestamp}
    (hread : readChars? text = some t) : InRange t := by
  unfold readChars? at hread
  split at hread
  · cases hread
  · rename_i hshape
    have hwhole : shape text = .whole := by simpa using hshape
    obtain ⟨hfits, _⟩ := shape_eq_whole hwhole
    have hyear : Text.ofDigits 10 ((text.drop 0).take 4) < 10 ^ 4 := field_lt hfits (by decide)
    dsimp only at hread
    split at hread
    · rename_i hrange
      obtain ⟨hmonth, hmonth', hday, hday', hhour, hminute, hsecond⟩ := hrange
      cases hread
      exact inRange_ofNat hyear ⟨hmonth, hmonth'⟩ ⟨hday, hday'⟩ hhour hminute hsecond
        (nanos_lt hwhole)
    · cases hread

/-! ### Writing and reading -/

/-- A field of two digits, as it is written. -/
theorem digits_two {n : Nat} (hn : n < 100) :
    ∃ a b, Text.padZeros 2 (Text.decimalDigits n) = [a, b] ∧ a.isDigit = true ∧
      b.isDigit = true ∧ Text.ofDigits 10 [a, b] = n := by
  have hlength : (Text.padZeros 2 (Text.decimalDigits n)).length = 2 :=
    Text.length_padZeros (Text.length_decimalDigits_le (by omega) (by omega))
  have hvalue := Text.ofDigits_padZeros 10 2 (Text.decimalDigits n)
  rw [Text.ofDigits_decimalDigits] at hvalue
  obtain ⟨a, b, hpair⟩ := List.length_eq_two.1 hlength
  have hdigits : ∀ c ∈ [a, b], c.isDigit = true :=
    fun c hmem => Text.isDigit_of_mem_padZeros (hpair ▸ hmem)
  exact ⟨a, b, hpair, hdigits a (by simp), hdigits b (by simp), hpair ▸ hvalue⟩

/-- A year, as it is written. -/
theorem digits_four {n : Nat} (hn : n < 10 ^ 4) :
    ∃ a b c d, Text.padZeros 4 (Text.decimalDigits n) = [a, b, c, d] ∧
      (∀ x ∈ [a, b, c, d], x.isDigit = true) ∧ Text.ofDigits 10 [a, b, c, d] = n := by
  have hlength : (Text.padZeros 4 (Text.decimalDigits n)).length = 4 :=
    Text.length_padZeros (Text.length_decimalDigits_le (by omega) hn)
  have hvalue := Text.ofDigits_padZeros 10 4 (Text.decimalDigits n)
  rw [Text.ofDigits_decimalDigits] at hvalue
  obtain ⟨a, rest, hfour⟩ := List.exists_cons_of_length_eq_add_one hlength
  obtain ⟨b, c, d, rfl⟩ : ∃ b c d, rest = [b, c, d] := by
    apply List.length_eq_three.1
    rw [hfour] at hlength
    simpa using hlength
  refine ⟨a, b, c, d, hfour, fun x hmem => ?_, hfour ▸ hvalue⟩
  exact Text.isDigit_of_mem_padZeros (hfour ▸ hmem)

/-- The digits behind the point of a written fraction. -/
def fractionDigits (nanos : Nat) : List Char :=
  Text.trimZeros (Text.padZeros maxFractionDigits (Text.decimalDigits nanos))

theorem fractionDigits_spec {nanos : Nat} (hnanos : nanos < 10 ^ 9) (hpos : nanos ≠ 0) :
    fractionDigits nanos ≠ [] ∧ (∀ c ∈ fractionDigits nanos, c.isDigit = true) ∧
      (fractionDigits nanos).length ≤ maxFractionDigits ∧
      Text.ofDigits 10 (fractionDigits nanos) *
        10 ^ (maxFractionDigits - (fractionDigits nanos).length) = nanos := by
  have hlength : (Text.padZeros maxFractionDigits (Text.decimalDigits nanos)).length =
      maxFractionDigits := Text.length_padZeros (Text.length_decimalDigits_le (by decide) hnanos)
  have hvalue := Text.ofDigits_padZeros 10 maxFractionDigits (Text.decimalDigits nanos)
  obtain ⟨zeros, hzeros⟩ :=
    Text.eq_trimZeros_append (Text.padZeros maxFractionDigits (Text.decimalDigits nanos))
  rw [← fractionDigits] at hzeros
  rw [Text.ofDigits_decimalDigits, hzeros, Text.ofDigits_append, Text.ofDigits_replicate_zero,
    List.length_replicate, Nat.add_zero] at hvalue
  have hcount : zeros = maxFractionDigits - (fractionDigits nanos).length := by
    rw [hzeros, List.length_append, List.length_replicate] at hlength
    omega
  refine ⟨fun hnil => ?_, fun c hmem => ?_, ?_, hcount ▸ hvalue⟩
  · rw [hnil] at hvalue
    simp [Text.ofDigits] at hvalue
    omega
  · exact Text.isDigit_of_mem_padZeros (Text.mem_of_mem_trimZeros hmem)
  · rw [hzeros, List.length_append] at hlength
    omega

theorem toList_fractionText (nanos : Nat) :
    (fractionText nanos).toList = if nanos = 0 then [] else '.' :: fractionDigits nanos := by
  unfold fractionText
  split
  · rfl
  · exact String.toList_ofList

/-- What follows a written time is a fraction that reads back. -/
theorem fraction_spec {nanos : Nat} (hnanos : nanos < 10 ^ 9) :
    tailShape (fractionText nanos).toList = .whole ∧
      Text.ofDigits 10 (((fractionText nanos).toList.drop 1).takeWhile Char.isDigit) *
        10 ^ (maxFractionDigits -
          (((fractionText nanos).toList.drop 1).takeWhile Char.isDigit).length) = nanos := by
  rw [toList_fractionText]
  split
  · rename_i hzero
    rw [hzero]
    exact ⟨rfl, rfl⟩
  · rename_i hpos
    obtain ⟨hne, hdigits, hlength, hvalue⟩ := fractionDigits_spec hnanos hpos
    have htake := List.takeWhile_eq_self_iff.2 hdigits
    have hdrop := List.dropWhile_eq_nil_iff.2 hdigits
    rw [List.drop_one, List.tail_cons, htake]
    refine ⟨?_, hvalue⟩
    simp only [tailShape, htake, hdrop, if_neg (Nat.not_lt.2 hlength)]
    cases hfraction : fractionDigits nanos with
    | nil => exact absurd hfraction hne
    | cons first rest => rfl

/-- Behind as many characters as the template has, it depends on the rest what a text may become. -/
theorem shape_append_tail {text : List Char} (hlength : text.length = template.length)
    (tail : List Char) :
    shape (text ++ tail) =
      if (template.zipWith fits text).all id = true then tailShape tail else .hopeless := by
  have hzip : template.zipWith fits (text ++ tail) = template.zipWith fits text := by
    have happend : (template ++ []).zipWith fits (text ++ tail) =
        template.zipWith fits text ++ [].zipWith fits tail := List.zipWith_append hlength.symm
    simpa using happend
  have hdrop : (text ++ tail).drop template.length = tail := by rw [← hlength, List.drop_left]
  have hlong : ¬ (text ++ tail).length < template.length := by
    rw [List.length_append]
    omega
  rw [shape, hzip, hdrop, if_neg hlong]
  cases (template.zipWith fits text).all id with
  | false => rfl
  | true => rfl

/-- A timestamp with its fields in range is read as it was written. -/
theorem readChars?_text {t : Timestamp} (hrange : InRange t) :
    readChars? t.text.toList = some t := by
  have hdays := daysInMonth_le t.year.toNat t.month.toNat
  obtain ⟨hmonth, hmonth'⟩ := hrange.month
  obtain ⟨hday, hday'⟩ := hrange.day
  have hhour := hrange.hour
  have hminute := hrange.minute
  have hsecond := hrange.second
  obtain ⟨y1, y2, y3, y4, hyears, hydigits, hyvalue⟩ := digits_four hrange.year
  obtain ⟨o1, o2, hmonths, ho1, ho2, hovalue⟩ := @digits_two t.month.toNat (by omega)
  obtain ⟨d1, d2, hdaydigits, hd1, hd2, hdvalue⟩ := @digits_two t.day.toNat (by omega)
  obtain ⟨h1, h2, hhours, hh1, hh2, hhvalue⟩ := @digits_two t.hour.toNat (by omega)
  obtain ⟨n1, n2, hminutes, hn1, hn2, hnvalue⟩ := @digits_two t.minute.toNat (by omega)
  obtain ⟨s1, s2, hseconds, hs1, hs2, hsvalue⟩ := @digits_two t.second.toNat (by omega)
  obtain ⟨htail, hfraction⟩ := fraction_spec hrange.nanos
  have htext : t.text.toList =
      [y1, y2, y3, y4, '-', o1, o2, '-', d1, d2, 'T', h1, h2, ':', n1, n2, ':', s1, s2] ++
        (fractionText t.nanos.toNat).toList := by
    simp [text, Text.paddedDecimal, hyears, hmonths, hdaydigits, hhours, hminutes, hseconds]
  have hshape : shape t.text.toList = .whole := by
    simp only [List.mem_cons, List.not_mem_nil, or_false, forall_eq_or_imp, forall_eq] at hydigits
    rw [htext, shape_append_tail (by rw [template_eq]; rfl), template_eq, if_pos, htail]
    simp [fits, hydigits, ho1, ho2, hd1, hd2, hh1, hh2, hn1, hn2, hs1, hs2]
  have hyear : Text.ofDigits 10 ((t.text.toList.drop 0).take 4) = t.year.toNat := by
    rw [htext]
    exact hyvalue
  have hmonthv : Text.ofDigits 10 ((t.text.toList.drop 5).take 2) = t.month.toNat := by
    rw [htext]
    exact hovalue
  have hdayv : Text.ofDigits 10 ((t.text.toList.drop 8).take 2) = t.day.toNat := by
    rw [htext]
    exact hdvalue
  have hhourv : Text.ofDigits 10 ((t.text.toList.drop 11).take 2) = t.hour.toNat := by
    rw [htext]
    exact hhvalue
  have hminutev : Text.ofDigits 10 ((t.text.toList.drop 14).take 2) = t.minute.toNat := by
    rw [htext]
    exact hnvalue
  have hsecondv : Text.ofDigits 10 ((t.text.toList.drop 17).take 2) = t.second.toNat := by
    rw [htext]
    exact hsvalue
  have hdrop : t.text.toList.drop 20 = (fractionText t.nanos.toNat).toList.drop 1 := by
    rw [htext]
    rfl
  unfold readChars?
  rw [if_neg (by simp [hshape])]
  simp only [Nat.pow_eq, hyear, hmonthv, hdayv, hhourv, hminutev, hsecondv, hdrop, hfraction]
  rw [if_pos ⟨hmonth, hmonth', hday, hday', hhour, hminute, hsecond⟩]
  simp

/-! ### Beginnings of timestamps -/

theorem tailShape_ne_hopeless_iff (text : List Char) :
    tailShape text ≠ .hopeless ↔ text = [] ∨ text = ['Z'] ∨
      ∃ rest, text = '.' :: rest ∧
        (rest.takeWhile Char.isDigit).length ≤ maxFractionDigits ∧
        (rest.dropWhile Char.isDigit = [] ∨
          rest.dropWhile Char.isDigit = ['Z'] ∧ rest.takeWhile Char.isDigit ≠ []) := by
  unfold tailShape
  split
  · simp
  · simp
  · rename_i rest
    dsimp only
    split
    · simp
      omega
    · split <;> simp_all
  · simp_all

/-- What stops being the rest of a timestamp does not become one again. -/
theorem tailShape_of_append {text more : List Char} (hmore : tailShape (text ++ more) ≠ .hopeless) :
    tailShape text ≠ .hopeless := by
  rw [tailShape_ne_hopeless_iff] at hmore ⊢
  cases text with
  | nil => exact .inl rfl
  | cons first text =>
    refine .inr ?_
    rcases hmore with hnil | hzulu | ⟨rest, hpoint, hlength, hrest⟩
    · cases hnil
    · left
      cases text with
      | nil => exact congrArg (List.take 1) hzulu
      | cons second text => simp at hzulu
    · right
      obtain ⟨rfl, rfl⟩ : first = '.' ∧ text ++ more = rest := by simpa using hpoint
      refine ⟨text, rfl, ?_⟩
      rw [List.takeWhile_append] at hlength hrest
      rw [List.dropWhile_append] at hrest
      have hsplit := List.takeWhile_append_dropWhile (p := Char.isDigit) (l := text)
      cases hdrop : text.dropWhile Char.isDigit with
      | nil =>
        rw [hdrop, List.append_nil] at hsplit
        rw [if_pos (by rw [hsplit]), List.length_append] at hlength
        rw [hsplit]
        exact ⟨by omega, .inl rfl⟩
      | cons other after =>
        have hshort : (text.takeWhile Char.isDigit).length ≠ text.length := by
          have := congrArg List.length hsplit
          rw [hdrop, List.length_append, List.length_cons] at this
          omega
        rw [if_neg hshort] at hlength hrest
        simp only [hdrop, List.isEmpty_cons, Bool.false_eq_true, ↓reduceIte, List.cons_append,
          reduceCtorEq, List.cons.injEq, List.append_eq_nil_iff, false_or] at hrest
        obtain ⟨⟨rfl, rfl, _⟩, hne⟩ := hrest
        exact ⟨hlength, .inr ⟨rfl, hne⟩⟩

theorem all_zipWith_of_append {text more : List Char}
    (hfits : (template.zipWith fits (text ++ more)).all id = true) :
    (template.zipWith fits text).all id = true := by
  rw [List.all_eq_true] at hfits ⊢
  intro fit hmem
  obtain ⟨i, hi⟩ := List.mem_iff_getElem?.1 hmem
  refine hfits fit (List.mem_iff_getElem?.2 ⟨i, ?_⟩)
  rw [List.getElem?_zipWith] at hi ⊢
  cases hplace : template[i]? with
  | none => simp [hplace] at hi
  | some place =>
    cases hchar : text[i]? with
    | none => simp [hplace, hchar] at hi
    | some c =>
      rw [List.getElem?_append_left (List.getElem?_eq_some_iff.1 hchar).1, hchar]
      simpa [hplace, hchar] using hi

/-- A beginning of a text that can still become a timestamp can do so too. -/
theorem shape_of_append {text more : List Char} (hmore : shape (text ++ more) ≠ .hopeless) :
    shape text ≠ .hopeless := by
  unfold shape at hmore
  split at hmore
  · exact absurd rfl hmore
  · rename_i hfits
    have hfits' := all_zipWith_of_append (by simpa using hfits)
    rw [shape, if_neg (by simp [hfits'])]
    split
    · split <;> simp
    · rename_i hlong
      rw [if_neg (by rw [List.length_append]; omega),
        List.drop_append_of_le_length (by omega)] at hmore
      exact tailShape_of_append hmore

/-- A text that may become a timestamp fits the template, as far as it goes. -/
theorem fits_of_shape {text : List Char} (hshape : shape text ≠ .hopeless) {i : Nat}
    {place c : Char} (hplace : template[i]? = some place) (hchar : text[i]? = some c) :
    fits place c = true := by
  unfold shape at hshape
  split at hshape
  · exact absurd rfl hshape
  · rename_i hfits
    have hall : (template.zipWith fits text).all id = true := by simpa using hfits
    have hmem : fits place c ∈ template.zipWith fits text := by
      refine List.mem_iff_getElem?.2 ⟨i, ?_⟩
      rw [List.getElem?_zipWith, hplace, hchar]
    exact List.all_eq_true.1 hall _ hmem

/-- The characters of a text that may become a timestamp. -/
theorem mem_of_shape {text : List Char} (hshape : shape text ≠ .hopeless) {c : Char}
    (hmem : c ∈ text) : c.isDigit = true ∨ c ∈ ['-', 'T', ':', '.', 'Z'] := by
  have htemplate : template.all (fun place => place = 'd' ∨ place ∈ ['-', 'T', ':', '.', 'Z']) =
    true := by decide
  have hfits {i : Nat} := @fits_of_shape _ hshape i
  unfold shape at hshape
  split at hshape
  · exact absurd rfl hshape
  · obtain ⟨i, hi⟩ := List.mem_iff_getElem?.1 hmem
    rcases Nat.lt_or_ge i template.length with hshort | hlong
    · have hfit : fits template[i] c = true := hfits (List.getElem?_eq_getElem hshort) hi
      have hkind := List.all_eq_true.1 htemplate _ (List.getElem_mem hshort)
      unfold fits at hfit
      split at hfit
      · exact .inl hfit
      · rename_i hletter
        rw [beq_iff_eq] at hfit
        subst hfit
        exact .inr ((of_decide_eq_true hkind).resolve_left hletter)
    · have hlength : ¬ text.length < template.length := by
        have := (List.getElem?_eq_some_iff.1 hi).1
        omega
      rw [if_neg hlength, tailShape_ne_hopeless_iff] at hshape
      have hrest : c ∈ text.drop template.length := by
        refine List.mem_iff_getElem?.2 ⟨i - template.length, ?_⟩
        rw [List.getElem?_drop, ← hi]
        congr 1
        omega
      rcases hshape with hnil | hzulu | ⟨rest, hpoint, -, hdigits⟩
      · simp [hnil] at hrest
      · simp [hzulu] at hrest
        simp [hrest]
      · rw [hpoint, List.mem_cons] at hrest
        rcases hrest with rfl | hrest
        · simp
        · rw [← List.takeWhile_append_dropWhile (p := Char.isDigit) (l := rest),
            List.mem_append] at hrest
          rcases hrest with hdigit | hzulu
          · exact .inl (List.mem_takeWhile_imp hdigit)
          · rcases hdigits with hnil | ⟨hend, -⟩
            · simp [hnil] at hzulu
            · simp [hend] at hzulu
              simp [hzulu]

theorem isDigit_of_shape {c : Char} {rest : List Char} (hshape : shape (c :: rest) ≠ .hopeless) :
    c.isDigit = true := by
  have hfits : fits 'd' c = true := fits_of_shape hshape (i := 0) rfl rfl
  simpa [fits] using hfits

/-- Behind its first digits, a text that may become a timestamp has one minus sign. -/
theorem year_of_shape {digits : List Char} (hdigits : ∀ d ∈ digits, d.isDigit = true) {c : Char}
    (hc : c.isDigit = false) {rest : List Char} (hshape : shape (digits ++ c :: rest) ≠ .hopeless) :
    digits.length = 4 ∧ c = '-' ∧ rest.head? ≠ some '-' := by
  have hplaces : template[4]? = some '-' ∧ template[5]? = some 'd' ∧
      ∀ i < 4, template[i]? = some 'd' := by decide
  have hend : (digits ++ c :: rest)[digits.length]? = some c := by simp
  rcases Nat.lt_trichotomy digits.length 4 with hshort | hfour | hlong
  · have hfits := fits_of_shape hshape (hplaces.2.2 _ hshort) hend
    simp [fits, hc] at hfits
  · rw [hfour] at hend
    have hminus : c = '-' := by simpa [fits] using fits_of_shape hshape hplaces.1 hend
    refine ⟨hfour, hminus, fun hhead => ?_⟩
    have hnext : (digits ++ c :: rest)[5]? = some '-' := by
      rw [List.getElem?_append_right (by omega), hfour, List.getElem?_cons_succ,
        ← List.head?_eq_getElem?, hhead]
    have hfits := fits_of_shape hshape hplaces.2.1 hnext
    revert hfits
    decide
  · have hfourth : (digits ++ c :: rest)[4]? = some digits[4] := by
      rw [List.getElem?_append_left hlong, List.getElem?_eq_getElem]
    have hminus : digits[4] = '-' := by
      simpa [fits] using fits_of_shape hshape hplaces.1 hfourth
    have hdigit := hdigits _ (List.getElem_mem hlong)
    rw [hminus] at hdigit
    exact absurd hdigit (by decide)

theorem minus_mem_of_shape {text : List Char} (hlength : 4 < text.length)
    (hshape : shape text ≠ .hopeless) : '-' ∈ text := by
  have hplace : template[4]? = some '-' := by decide
  have hfits := fits_of_shape hshape hplace (List.getElem?_eq_getElem hlength)
  have hminus : text[4] = '-' := by simpa [fits] using hfits
  exact hminus ▸ List.getElem_mem hlength

/-- A year and a minus sign may become a timestamp. -/
theorem shape_year {digits : List Char} (hdigits : ∀ d ∈ digits, d.isDigit = true)
    (hlength : digits.length = 4) : shape (digits ++ ['-']) ≠ .hopeless := by
  obtain ⟨a, rest, rfl⟩ := List.exists_cons_of_length_eq_add_one hlength
  obtain ⟨b, c, d, rfl⟩ := List.length_eq_three.1 (Nat.succ_inj.1 hlength)
  simp only [List.mem_cons, List.not_mem_nil, or_false, forall_eq_or_imp, forall_eq] at hdigits
  simp [shape, template_eq, fits, hdigits, dateLength]

/-- A character that timestamps do not have goes on with none. -/
theorem shape_append_foreign {c : Char}
    (hc : ¬(c.isDigit = true ∨ c ∈ ['-', 'T', ':', '.', 'Z'])) {count : Nat} (hcount : 0 < count)
    (text : List Char) : shape (text ++ List.replicate count c) = .hopeless := by
  by_contra hshape
  have hmem : c ∈ text ++ List.replicate count c :=
    List.mem_append_right text (List.mem_replicate.2 ⟨by omega, rfl⟩)
  exact hc (mem_of_shape hshape hmem)

/-- No timestamp holds a line feed. -/
theorem shape_append_lineFeed (text : List Char) : shape (text ++ ['\n']) = .hopeless :=
  shape_append_foreign (by decide) Nat.one_pos text

/-- The characters of a written timestamp. -/
theorem mem_text {t : Timestamp} {c : Char} (hmem : c ∈ t.text.toList) :
    c.isDigit = true ∨ c ∈ ['-', 'T', ':', '.'] := by
  have hfraction {nanos : Nat} (h : c ∈ (fractionText nanos).toList) :
      c.isDigit = true ∨ c ∈ ['-', 'T', ':', '.'] := by
    rw [toList_fractionText] at h
    split at h
    · cases h
    · rcases List.mem_cons.1 h with rfl | h
      · exact .inr (by decide)
      · exact .inl (Text.isDigit_of_mem_padZeros (Text.mem_of_mem_trimZeros h))
  have hpadded {width n : Nat} (h : c ∈ Text.padZeros width (Text.decimalDigits n)) :
      c.isDigit = true ∨ c ∈ ['-', 'T', ':', '.'] := .inl (Text.isDigit_of_mem_padZeros h)
  simp only [text, Text.paddedDecimal, String.toList_append, String.toList_ofList,
    List.mem_append] at hmem
  grind

end Timestamp
end Docpress
