import Docpress.Binary64.Reading
import Docpress.Binary64.Shortest
import Docpress.Proofs.Numerals
import Mathlib.Data.List.TakeDrop
import Mathlib.Data.List.TakeWhile

/-!
# Finite numbers read back

A finite binary number is read as it was written.  Three facts carry this.

* Rounding sees a quotient and not the terms it is given in (`nearestRank_scale`), and a quotient
  that is a magnitude is rounded to the rank of that magnitude (`nearestRank_of_exact`).
* The rank of a decimal does not change when a power of ten moves between its digits and its
  exponent (`Decimal.rank_shift`), so trailing zeros may be dropped.
* The search for the shortest decimal only returns decimals of the rank it is given, and the
  grid that it ends with holds one (`rank_shortest`).

`DecimalParts` are the parts that a written decimal is put together from: digits, and then a
fraction, an exponent or both.
-/

namespace Docpress

/-! ## Rounding -/

namespace Binary64

theorem rankStep_eq : rankStep = 2 ^ 52 := rfl

theorem infinityRank_eq : infinityRank = 2047 * 2 ^ 52 := rfl

theorem divNearestEven_scale (num den : Nat) {c : Nat} (hc : 0 < c) :
    divNearestEven (num * c) (den * c) = divNearestEven num den := by
  have hrest : 2 * (num % den * c) < den * c ↔ 2 * (num % den) < den := by
    rw [← Nat.mul_assoc, Nat.mul_lt_mul_right hc]
  have hrest' : den * c < 2 * (num % den * c) ↔ den < 2 * (num % den) := by
    rw [← Nat.mul_assoc, Nat.mul_lt_mul_right hc]
  simp only [divNearestEven, Nat.mul_div_mul_right _ _ hc, Nat.mul_mod_mul_right, hrest, hrest']

/-- A quotient that is a natural number stays as it is. -/
theorem divNearestEven_of_exact (n : Nat) {den : Nat} (hden : 0 < den) :
    divNearestEven (n * den) den = n := by
  have hpos : 2 * 0 < den := by omega
  rw [divNearestEven, Nat.mul_div_cancel _ hden, Nat.mul_mod_left]
  exact if_pos hpos

theorem nearestRank_scale (num den : Nat) {c : Nat} (hc : 0 < c) :
    nearestRank (num * c) (den * c) = nearestRank num den := by
  have hunits : num * c * 2 ^ 1074 = num * 2 ^ 1074 * c := Nat.mul_right_comm _ _ _
  have hgrid (doublings : Nat) : den * c * 2 ^ doublings = den * 2 ^ doublings * c :=
    Nat.mul_right_comm _ _ _
  simp only [nearestRank, Nat.pow_eq, hunits, hgrid, Nat.mul_div_mul_right _ _ hc, divNearestEven_scale _ _ hc]

/-- The magnitudes that share an exponent start at a power of two, but for the first ones. -/
theorem magnitude_eq {rank : Nat} (hfinite : rank < infinityRank) :
    ∃ significand doublings, rank = doublings * rankStep + significand ∧
      magnitude rank = significand * 2 ^ doublings ∧ significand < 2 ^ 53 ∧ doublings ≤ 2045 ∧
      (doublings = 0 ∨ 2 ^ 52 ≤ significand) := by
  refine ⟨rank - (rank / rankStep - 1) * rankStep, rank / rankStep - 1, ?_, rfl, ?_⟩
  all_goals
    rw [infinityRank_eq] at hfinite
    rw [rankStep_eq]
    omega

/-- The logarithm of a magnitude tells the exponent. -/
theorem log2_significand {significand doublings : Nat} (hlt : significand < 2 ^ 53)
    (hnormal : doublings = 0 ∨ 2 ^ 52 ≤ significand) :
    (significand * 2 ^ doublings).log2 - 52 = doublings := by
  rcases hnormal with rfl | hle
  · rw [Nat.pow_zero, Nat.mul_one]
    by_cases hzero : significand = 0
    · rw [hzero]
      rfl
    · have := (Nat.log2_lt hzero).2 hlt
      omega
  · have hpow : 0 < 2 ^ doublings := Nat.two_pow_pos _
    have hne : significand * 2 ^ doublings ≠ 0 := Nat.mul_ne_zero (by omega) (by omega)
    have hlog : (significand * 2 ^ doublings).log2 = 52 + doublings := by
      rw [Nat.log2_eq_iff hne, Nat.pow_add, show 52 + doublings + 1 = 53 + doublings by omega,
        Nat.pow_add]
      exact ⟨Nat.mul_le_mul_right _ hle, Nat.mul_lt_mul_of_pos_right hlt hpow⟩
    omega

/-- A quotient that is a magnitude is rounded to it. -/
theorem nearestRank_of_exact {rank num den : Nat} (hfinite : rank < infinityRank)
    (hden : 0 < den) (hexact : num * 2 ^ 1074 = magnitude rank * den) :
    nearestRank num den = rank := by
  obtain ⟨significand, doublings, hrank, hmagnitude, hlt, _, hnormal⟩ := magnitude_eq hfinite
  have hlog : (magnitude rank).log2 - 52 = doublings := by
    rw [hmagnitude]
    exact log2_significand hlt hnormal
  have hcells : magnitude rank * den = significand * (den * 2 ^ doublings) := by
    rw [hmagnitude, Nat.mul_assoc, Nat.mul_comm den]
  have hpos : 0 < den * 2 ^ doublings := Nat.mul_pos hden (Nat.two_pow_pos _)
  simp only [nearestRank, Nat.pow_eq, hexact, Nat.mul_div_cancel _ hden, hlog]
  rw [hcells, divNearestEven_of_exact _ hpos, ← hrank]
  omega

end Binary64

/-! ## The rank of a decimal -/

namespace Decimal

theorem length_decimalDigits_shift {n : Nat} (hn : n ≠ 0) (zeros : Nat) :
    (Text.decimalDigits (n * 10 ^ zeros)).length = (Text.decimalDigits n).length + zeros := by
  apply Nat.le_antisymm
  · have hpos : 0 < (Text.decimalDigits n).length :=
      List.length_pos_iff.2 (Text.decimalDigits_ne_nil n)
    apply Text.length_decimalDigits_le (by omega)
    rw [Nat.pow_add]
    exact Nat.mul_lt_mul_of_pos_right (Text.lt_of_length_decimalDigits n)
      (Nat.pow_pos (by omega))
  · generalize hwidth : (Text.decimalDigits (n * 10 ^ zeros)).length = width
    have hlt : n * 10 ^ zeros < 10 ^ width := hwidth ▸ Text.lt_of_length_decimalDigits _
    have hzeros : zeros < width := by
      apply (Nat.pow_lt_pow_iff_right (a := 10) (by omega)).1
      calc 10 ^ zeros ≤ n * 10 ^ zeros := Nat.le_mul_of_pos_left _ (by omega)
        _ < 10 ^ width := hlt
    have hsplit : 10 ^ width = 10 ^ (width - zeros) * 10 ^ zeros := by
      rw [← Nat.pow_add, Nat.sub_add_cancel (by omega)]
    rw [hsplit] at hlt
    have := Text.length_decimalDigits_le (by omega) (Nat.lt_of_mul_lt_mul_right hlt)
    omega

/-- A power of ten may stand in the digits or in the exponent. -/
theorem rank_shift {n : Nat} (hn : n ≠ 0) (zeros : Nat) (exponent : Int) :
    rank ⟨n * 10 ^ zeros, exponent⟩ = rank ⟨n, exponent + zeros⟩ := by
  have hpow : 10 ^ zeros ≠ 0 := Nat.ne_of_gt (Nat.pow_pos (by omega))
  have hscale : scale ⟨n * 10 ^ zeros, exponent⟩ = scale ⟨n, exponent + zeros⟩ := by
    simp only [scale, length_decimalDigits_shift hn]
    omega
  simp only [rank, Nat.pow_eq, hscale, if_neg hn, if_neg (Nat.mul_ne_zero hn hpow)]
  split
  · rfl
  split
  · rfl
  -- the exponent may change its sign on the way
  by_cases hexponent : 0 ≤ exponent
  · rw [if_pos hexponent, if_pos (by omega), Nat.mul_assoc, ← Nat.pow_add]
    congr 3
    omega
  · rw [if_neg hexponent]
    split
    · rename_i hsum
      have hzeros : 10 ^ zeros = 10 ^ (exponent + zeros).toNat * 10 ^ (-exponent).toNat := by
        rw [← Nat.pow_add]
        congr 1
        omega
      have hscaled := Binary64.nearestRank_scale (n * 10 ^ (exponent + zeros).toNat) 1
        (c := 10 ^ (-exponent).toNat) (Nat.pow_pos (by omega))
      rw [Nat.one_mul] at hscaled
      rw [hzeros, ← Nat.mul_assoc, hscaled]
    · rename_i hsum
      have hexp : 10 ^ (-exponent).toNat = 10 ^ (-(exponent + zeros)).toNat * 10 ^ zeros := by
        rw [← Nat.pow_add]
        congr 1
        omega
      rw [hexp, Binary64.nearestRank_scale _ _ (Nat.pow_pos (by omega))]

end Decimal

/-! ## The shortest decimal -/

namespace Binary64

/-! The powers that the range of the format is made of are too large to be computed; the bounds
on them are stated for all exponents in the same proportion. -/

theorem five_pow_mul_two_pow (n : Nat) : 5 ^ n * 2 ^ n = 10 ^ n :=
  (Nat.mul_pow 5 2 n).symm

/-- A lower bound on the digits of a magnitude in units of a power of ten. -/
theorem lt_length_decimalDigits {m k : Nat} (hm : 0 < m) (n : Nat) (hk : 179 * n = k) :
    124 * n < (Text.decimalDigits (m * 5 ^ k)).length := by
  have hpow : 10 ^ (124 * n) ≤ 5 ^ k := by
    rw [← hk, Nat.pow_mul, Nat.pow_mul]
    exact Nat.pow_le_pow_left (by decide) n
  apply (Nat.pow_lt_pow_iff_right (a := 10) (by omega)).1
  calc 10 ^ (124 * n) ≤ 5 ^ k := hpow
    _ ≤ m * 5 ^ k := Nat.le_mul_of_pos_left _ hm
    _ < 10 ^ (Text.decimalDigits (m * 5 ^ k)).length := Text.lt_of_length_decimalDigits _

/-- An upper bound on the digits of a magnitude in units of a power of ten. -/
theorem length_decimalDigits_le_of_lt {m n k : Nat} (hm : m < 2 ^ (255 * n + 4 + k)) :
    (Text.decimalDigits (m * 5 ^ k)).length ≤ 77 * n + 2 + k := by
  have hpow : 2 ^ (255 * n + 4) ≤ 10 ^ (77 * n + 2) := by
    rw [Nat.pow_add, Nat.pow_add, Nat.pow_mul, Nat.pow_mul]
    exact Nat.mul_le_mul (Nat.pow_le_pow_left (by decide) n) (by decide)
  apply Text.length_decimalDigits_le (by omega)
  calc m * 5 ^ k < 2 ^ (255 * n + 4 + k) * 5 ^ k :=
        Nat.mul_lt_mul_of_pos_right hm (Nat.pow_pos (by omega))
    _ = 2 ^ (255 * n + 4) * 10 ^ k := by
        rw [Nat.pow_add, Nat.mul_assoc, Nat.mul_comm (2 ^ k), five_pow_mul_two_pow]
    _ ≤ 10 ^ (77 * n + 2) * 10 ^ k := Nat.mul_le_mul_right _ hpow
    _ = 10 ^ (77 * n + 2 + k) := (Nat.pow_add 10 (77 * n + 2) k).symm

theorem magnitude_lt {rank k : Nat} (hfinite : rank < infinityRank) (hk : 2098 ≤ k) :
    magnitude rank < 2 ^ k := by
  obtain ⟨significand, doublings, _, hmagnitude, hlt, hdoublings, _⟩ := magnitude_eq hfinite
  have hpow : 2 ^ doublings ≤ 2 ^ (k - 53) := Nat.pow_le_pow_right (by omega) (by omega)
  rw [hmagnitude, show k = 53 + (k - 53) by omega, Nat.pow_add]
  exact Nat.mul_lt_mul_of_lt_of_le hlt hpow (Nat.two_pow_pos _)

theorem magnitude_pos {rank : Nat} (hpos : rank ≠ 0) (hfinite : rank < infinityRank) :
    0 < magnitude rank := by
  obtain ⟨significand, doublings, hrank, hmagnitude, _, _, hnormal⟩ := magnitude_eq hfinite
  have hsignificand : 0 < significand := by
    rcases hnormal with rfl | hle <;> omega
  rw [hmagnitude]
  exact Nat.mul_pos hsignificand (Nat.two_pow_pos _)

/-- The decimal with all digits of a finite magnitude has its rank. -/
theorem rank_all_digits {rank k : Nat} {exponent : Int} (hk : k = 1074)
    (hexponent : exponent = -(k : Int)) (hpos : rank ≠ 0) (hfinite : rank < infinityRank) :
    Decimal.rank ⟨magnitude rank * Nat.pow 5 k, exponent⟩ = rank := by
  have hmagnitude := magnitude_pos hpos hfinite
  have hne : magnitude rank * 5 ^ k ≠ 0 :=
    Nat.ne_of_gt (Nat.mul_pos hmagnitude (Nat.pow_pos (by omega)))
  have hlow := lt_length_decimalDigits (k := k) hmagnitude 6 (by omega)
  have hhigh := length_decimalDigits_le_of_lt (n := 4) (k := k) (magnitude_lt hfinite (by omega))
  have hscale : Decimal.scale ⟨magnitude rank * 5 ^ k, exponent⟩ =
      (Text.decimalDigits (magnitude rank * 5 ^ k)).length + exponent := rfl
  have hnegative : ¬ 0 ≤ exponent := by omega
  have hnat : (-exponent).toNat = k := by omega
  rw [Nat.pow_eq, Decimal.rank, if_neg hne, hscale, if_neg (by omega), if_neg (by omega),
    if_neg hnegative]
  dsimp only
  rw [hnat, Nat.pow_eq]
  apply nearestRank_of_exact hfinite (Nat.pow_pos (by omega))
  rw [← hk, Nat.mul_assoc, five_pow_mul_two_pow]

theorem rank_of_neighbour? {rank whole dropped : Nat} {d : Decimal}
    (hfound : neighbour? rank whole dropped = some d) : d.rank = rank := by
  unfold neighbour? at hfound
  grind

/-- The search for the shortest decimal keeps the rank. -/
theorem rank_shortestBelow {rank whole : Nat} (hwhole : Decimal.rank ⟨whole, -1074⟩ = rank)
    (dropped : Nat) : (shortestBelow rank whole dropped).rank = rank := by
  induction dropped with
  | zero => exact hwhole
  | succ dropped ih =>
    rw [shortestBelow]
    cases hfound : neighbour? rank whole dropped with
    | none => exact ih
    | some d => exact rank_of_neighbour? hfound

theorem rank_shortest {rank : Nat} (hpos : rank ≠ 0) (hfinite : rank < infinityRank) :
    (shortest rank).rank = rank := by
  obtain ⟨unit, hunit⟩ : ∃ unit, unit = 1074 := ⟨1074, rfl⟩
  apply rank_shortestBelow
  rw [decimalMagnitude, ← hunit]
  exact rank_all_digits hunit (by omega) hpos hfinite

end Binary64

/-! ## Written decimals -/

/-- The parts of a written decimal. -/
structure DecimalParts where
  whole : List Char
  /-- the digits behind the point, if there is one -/
  fraction : Option (List Char) := none
  exponent : Option Int := none

namespace DecimalParts

/-- Digits stand where digits have to, and something tells the text from an integer. -/
structure Sound (parts : DecimalParts) : Prop where
  whole_ne_nil : parts.whole ≠ []
  isDigit_whole : ∀ c ∈ parts.whole, c.isDigit = true
  fraction_ne_nil : parts.fraction ≠ some []
  isDigit_fraction : ∀ c ∈ parts.fraction.getD [], c.isDigit = true
  marked : parts.fraction.isSome ∨ parts.exponent.isSome

/-- The point and the digits behind it. -/
def fractionText (parts : DecimalParts) : List Char :=
  match parts.fraction with
  | none => []
  | some digits => '.' :: digits

/-- The exponent and its mark. -/
def exponentText (parts : DecimalParts) : List Char :=
  match parts.exponent with
  | none => []
  | some exponent => 'e' :: (Text.signedDecimal exponent).toList

/-- The decimal as it is written. -/
def text (parts : DecimalParts) : List Char :=
  parts.whole ++ parts.fractionText ++ parts.exponentText

/-- The decimal as it is meant. -/
def value (parts : DecimalParts) : Decimal :=
  ⟨Text.ofDigits 10 (parts.whole ++ parts.fraction.getD []),
    parts.exponent.getD 0 - (parts.fraction.getD []).length⟩

theorem span_isDigit {digits rest : List Char} (hdigits : ∀ c ∈ digits, c.isDigit = true)
    (hrest : ∀ c ∈ rest.head?, c.isDigit = false) :
    (digits ++ rest).span Char.isDigit = (digits, rest) := by
  rw [List.span_eq_takeWhile_dropWhile, List.takeWhile_append_of_pos hdigits,
    List.dropWhile_append_of_pos hdigits]
  cases rest with
  | nil => simp
  | cons first rest =>
    have hfirst : first.isDigit = false := hrest first rfl
    simp [hfirst]

theorem readExponent?_signedDecimal (n : Int) :
    Decimal.readExponent? (Text.signedDecimal n).toList = some n := by
  rw [Text.toList_signedDecimal]
  split
  · rw [Decimal.readExponent?, Text.readDigits?_decimalDigits]
    show some (-(n.natAbs : Int)) = some n
    congr 1
    omega
  · obtain ⟨first, rest, hdigits, hfirst⟩ := Text.head_decimalDigits n.natAbs
    have hread : (Text.readDigits? (first :: rest)).map (fun n => (n : Int)) = some n := by
      rw [← hdigits, Text.readDigits?_decimalDigits]
      show some (n.natAbs : Int) = some n
      congr 1
      omega
    rw [hdigits]
    -- the first character is a digit, hence no sign
    unfold Decimal.readExponent?
    split
    · cases ‹_›
      cases hfirst
    · cases ‹_›
      cases hfirst
    · exact hread

theorem isDigit_head_exponentText (parts : DecimalParts) :
    ∀ c ∈ parts.exponentText.head?, c.isDigit = false := by
  unfold exponentText
  split <;> simp

theorem isDigit_head_fractionText (parts : DecimalParts) :
    ∀ c ∈ (parts.fractionText ++ parts.exponentText).head?, c.isDigit = false := by
  have hmark := isDigit_head_exponentText parts
  unfold fractionText
  split
  · exact hmark
  · simp

theorem splitFraction_text {parts : DecimalParts} (hsound : parts.Sound) :
    Decimal.splitFraction (parts.fractionText ++ parts.exponentText) =
      (parts.fraction.getD [], parts.exponentText) := by
  have hdigits := hsound.isDigit_fraction
  unfold fractionText
  cases hfraction : parts.fraction with
  | none =>
    -- without a point the rest starts with the mark of the exponent, if at all
    unfold exponentText
    cases parts.exponent <;> rfl
  | some digits =>
    rw [hfraction] at hdigits
    exact span_isDigit hdigits (isDigit_head_exponentText parts)

/-- A written decimal is read as it is meant. -/
theorem read?_text {parts : DecimalParts} (hsound : parts.Sound) :
    Decimal.read? parts.text = some parts.value := by
  have hnotEmpty : (parts.whole.isEmpty && (parts.fraction.getD []).isEmpty) = false := by
    simp [hsound.whole_ne_nil]
  rw [Decimal.read?, text, List.append_assoc,
    span_isDigit hsound.isDigit_whole (isDigit_head_fractionText parts)]
  dsimp only
  rw [splitFraction_text hsound]
  dsimp only
  rw [if_neg (by simp [hnotEmpty]), value]
  unfold exponentText
  cases parts.exponent with
  | none =>
    show some _ = some _
    simp
  | some exponent =>
    show (Decimal.readExponent? (Text.signedDecimal exponent).toList).map _ = _
    rw [readExponent?_signedDecimal]
    rfl

end DecimalParts

/-! ## The written form of a number -/

namespace Binary64

theorem isDigit_append_replicate {digits : List Char} (hdigits : ∀ c ∈ digits, c.isDigit = true)
    (zeros : Nat) : ∀ c ∈ digits ++ List.replicate zeros '0', c.isDigit = true := by
  intro c hmem
  rcases List.mem_append.1 hmem with hmem | hmem
  · exact hdigits c hmem
  · rw [List.eq_of_mem_replicate hmem]
    rfl

/-- The parts `parts` spell the digits with a point `point` places behind their start, but for
zeros at the end. -/
def Spells (parts : DecimalParts) (digits : List Char) (point : Int) : Prop :=
  ∃ zeros : Nat, parts.value =
    ⟨Text.ofDigits 10 digits * 10 ^ zeros, point - digits.length - zeros⟩

/-- A number with a point in place is a written decimal. -/
theorem positional_eq {digits : List Char} (hne : digits ≠ [])
    (hdigits : ∀ c ∈ digits, c.isDigit = true) (point : Int) :
    ∃ parts : DecimalParts, parts.Sound ∧ positional digits point = parts.text ∧
      Spells parts digits point := by
  unfold positional
  split
  · -- zeros stand between the point and the digits
    refine ⟨⟨['0'], some (List.replicate (-point).toNat '0' ++ digits), none⟩,
      ⟨by simp, by simp, by simp [hne], ?_, by simp⟩, ?_, 0, ?_⟩
    · intro c hmem
      rcases List.mem_append.1 hmem with hmem | hmem
      · rw [List.eq_of_mem_replicate hmem]
        rfl
      · exact hdigits c hmem
    · simp [DecimalParts.text, DecimalParts.fractionText, DecimalParts.exponentText]
    · have hvalue : Text.ofDigits 10 (['0'] ++ (List.replicate (-point).toNat '0' ++ digits)) =
          Text.ofDigits 10 digits * 10 ^ 0 := by
        rw [Text.ofDigits_append, Text.ofDigits_append, Text.ofDigits_replicate_zero]
        simp [Text.ofDigits, Text.digitValue]
      simp only [DecimalParts.value, Option.getD_some, Option.getD_none, hvalue,
        List.length_append, List.length_replicate, Decimal.mk.injEq, true_and]
      omega
  · split
    · -- zeros stand between the digits and the point
      rename_i hlength
      refine ⟨⟨digits ++ List.replicate (point.toNat - digits.length) '0', some ['0'], none⟩,
        ⟨by simp [hne], isDigit_append_replicate hdigits _, by simp, by simp, by simp⟩, ?_,
        point.toNat - digits.length + 1, ?_⟩
      · simp [DecimalParts.text, DecimalParts.fractionText, DecimalParts.exponentText]
      · have hvalue : Text.ofDigits 10
              (digits ++ List.replicate (point.toNat - digits.length) '0' ++ ['0']) =
            Text.ofDigits 10 digits * 10 ^ (point.toNat - digits.length + 1) := by
          rw [List.append_assoc, ← List.replicate_succ', Text.ofDigits_append,
            Text.ofDigits_replicate_zero, List.length_replicate, Nat.add_zero]
        simp only [DecimalParts.value, Option.getD_some, Option.getD_none, hvalue,
          List.length_singleton, Decimal.mk.injEq, true_and]
        omega
    · -- the point stands among the digits
      rename_i hlength
      refine ⟨⟨digits.take point.toNat, some (digits.drop point.toNat), none⟩,
        ⟨?_, fun c hmem => hdigits c (List.mem_of_mem_take hmem), ?_,
          fun c hmem => hdigits c (List.mem_of_mem_drop hmem), by simp⟩, ?_, 0, ?_⟩
      · intro hnil
        have := congrArg List.length hnil
        rw [List.length_take, List.length_nil] at this
        omega
      · intro hnil
        have := congrArg List.length (Option.some.inj hnil)
        rw [List.length_drop, List.length_nil] at this
        omega
      · simp [DecimalParts.text, DecimalParts.fractionText, DecimalParts.exponentText]
      · simp only [DecimalParts.value, Option.getD_some, Option.getD_none,
          List.take_append_drop, List.length_drop, Nat.pow_zero, Nat.mul_one, Decimal.mk.injEq,
          true_and]
        omega

/-- So is a number with the point behind its first digit and an exponent. -/
theorem scientific_eq {digits : List Char} (hne : digits ≠ [])
    (hdigits : ∀ c ∈ digits, c.isDigit = true) (point : Int) :
    ∃ parts : DecimalParts, parts.Sound ∧ scientific digits point = parts.text ∧
      Spells parts digits point := by
  unfold scientific
  match digits, hne with
  | [first], _ =>
    refine ⟨⟨[first], none, some (point - 1)⟩, ⟨by simp, hdigits, by simp, by simp, by simp⟩,
      ?_, 0, ?_⟩
    · simp [DecimalParts.text, DecimalParts.fractionText, DecimalParts.exponentText]
    · simp [DecimalParts.value]
  | first :: second :: rest, _ =>
    refine ⟨⟨[first], some (second :: rest), some (point - 1)⟩,
      ⟨by simp, ?_, by simp, fun c hmem => hdigits c (List.mem_cons_of_mem _ hmem), by simp⟩,
      ?_, 0, ?_⟩
    · intro c hmem
      exact hdigits c (by simp_all)
    · simp [DecimalParts.text, DecimalParts.fractionText, DecimalParts.exponentText]
    · simp [DecimalParts.value]
      omega

/-- Whichever form the significant digits of a decimal are given, its rank stays the same. -/
theorem significantDigits_spec {d : Decimal} (hd : d.digits ≠ 0) :
    significantDigits d ≠ [] ∧ (∀ c ∈ significantDigits d, c.isDigit = true) ∧
      ∀ parts, Spells parts (significantDigits d) d.scale → parts.value.rank = d.rank := by
  obtain ⟨whole, exponent⟩ := d
  obtain ⟨zeros, hzeros⟩ := Text.eq_trimZeros_append (Text.decimalDigits whole)
  have hsignificant : significantDigits ⟨whole, exponent⟩ =
      Text.trimZeros (Text.decimalDigits whole) := rfl
  rw [hsignificant]
  generalize Text.trimZeros (Text.decimalDigits whole) = digits at hzeros
  have hvalue : Text.ofDigits 10 digits * 10 ^ zeros = whole := by
    rw [← Text.ofDigits_decimalDigits whole, hzeros, Text.ofDigits_append,
      Text.ofDigits_replicate_zero, List.length_replicate, Nat.add_zero]
  have hnonzero : Text.ofDigits 10 digits ≠ 0 := by
    intro hzero
    rw [hzero, Nat.zero_mul] at hvalue
    exact hd hvalue.symm
  refine ⟨?_, ?_, ?_⟩
  · rintro rfl
    exact hnonzero rfl
  · intro c hmem
    apply Text.isDigit_of_mem_decimalDigits (n := whole)
    rw [hzeros]
    exact List.mem_append_left _ hmem
  · rintro parts ⟨more, hmore⟩
    have hexponent : Decimal.scale ⟨whole, exponent⟩ - digits.length - more + more =
        exponent + zeros := by
      rw [Decimal.scale]
      dsimp only
      rw [hzeros, List.length_append, List.length_replicate]
      omega
    rw [hmore, Decimal.rank_shift hnonzero, hexponent, ← Decimal.rank_shift hnonzero, hvalue]

/-- The written form of a finite magnitude is a decimal with its rank. -/
theorem magnitudeText_eq {rank : Nat} (hpos : rank ≠ 0) (hfinite : rank < infinityRank) :
    ∃ parts : DecimalParts, parts.Sound ∧ magnitudeText rank = parts.text ∧
      parts.value.rank = rank := by
  have hrank := rank_shortest hpos hfinite
  rw [magnitudeText]
  generalize shortest rank = d at hrank
  have hd : d.digits ≠ 0 := by
    intro hzero
    rw [Decimal.rank, if_pos hzero] at hrank
    exact hpos hrank.symm
  obtain ⟨hne, hdigits, hspells⟩ := significantDigits_spec hd
  split
  · obtain ⟨parts, hsound, htext, hpoint⟩ := positional_eq hne hdigits d.scale
    exact ⟨parts, hsound, htext, (hspells parts hpoint).trans hrank⟩
  · obtain ⟨parts, hsound, htext, hpoint⟩ := scientific_eq hne hdigits d.scale
    exact ⟨parts, hsound, htext, (hspells parts hpoint).trans hrank⟩

/-! ### Signs -/

theorem ofRank_rank (x : Binary64) : ofRank x.isNegative x.rank = x := by
  obtain ⟨bits⟩ := x
  have hlt := bits.toNat_lt
  have hvalue : (if 2 ^ 63 ≤ bits.toNat then 2 ^ 63 + bits.toNat % 2 ^ 63
      else bits.toNat % 2 ^ 63) = bits.toNat := by
    split <;> omega
  simp only [ofRank, isNegative, rank, Nat.pow_eq, decide_eq_true_eq, hvalue, UInt64.ofNat_toNat]

/-- The written form of a finite number without its sign: zero, or a decimal. -/
theorem text_eq {x : Binary64} (hfinite : x.rank < infinityRank) :
    ∃ parts : DecimalParts, parts.Sound ∧ parts.value.rank = x.rank ∧
      x.text.toList = if x.isNegative then '-' :: parts.text else parts.text := by
  have hnumber : x.isNaN = false := by
    unfold isNaN
    simp
    omega
  rw [text, if_neg (by simp [hnumber]), String.toList_ofList,
    if_neg (Nat.ne_of_lt hfinite)]
  by_cases hzero : x.rank = 0
  · refine ⟨⟨['0'], some ['0'], none⟩, ⟨by simp, by simp, by simp, by simp, by simp⟩, ?_, ?_⟩
    · rw [hzero]
      rfl
    · rw [if_pos hzero]
      rfl
  · obtain ⟨parts, hsound, htext, hrank⟩ := magnitudeText_eq hzero hfinite
    refine ⟨parts, hsound, hrank, ?_⟩
    rw [if_neg hzero, htext]

theorem readMagnitude?_text {parts : DecimalParts} (hsound : parts.Sound) (negative : Bool) :
    readMagnitude? negative parts.text = some (ofRank negative parts.value.rank) := by
  rw [readMagnitude?, DecimalParts.read?_text hsound]

/-- A written decimal is read as the number nearest to it, with the sign in front of it. -/
theorem read?_parts {parts : DecimalParts} (hsound : parts.Sound) (negative : Bool) :
    read? (String.ofList (if negative then '-' :: parts.text else parts.text)) =
      some (ofRank negative parts.value.rank) := by
  have hread := readMagnitude?_text hsound negative
  rw [read?, String.toList_ofList]
  cases negative with
  | true => exact hread
  | false =>
    -- the first character is a digit, hence no sign
    obtain ⟨first, rest, hwhole⟩ := List.exists_cons_of_ne_nil hsound.whole_ne_nil
    have hfirst : first.isDigit = true := hsound.isDigit_whole first (by simp [hwhole])
    have hhead : parts.text = first :: (rest ++ parts.fractionText ++ parts.exponentText) := by
      simp [DecimalParts.text, hwhole]
    rw [hhead] at hread
    rw [if_neg (by simp), hhead]
    split
    · cases ‹_›
      cases hfirst
    · cases ‹_›
      cases hfirst
    · exact hread

/-- A finite number is read as it was written. -/
theorem read?_text {x : Binary64} (hfinite : x.rank < infinityRank) : read? x.text = some x := by
  obtain ⟨parts, hsound, hrank, htext⟩ := text_eq hfinite
  rw [← String.ofList_toList (s := x.text), htext, read?_parts hsound, hrank, ofRank_rank]

theorem rank_ofRank {rank : Nat} (hrank : rank ≤ infinityRank) (negative : Bool) :
    (ofRank negative rank).rank = rank := by
  have hlt : infinityRank < 2 ^ 63 := by decide
  have hbits : (if negative then 2 ^ 63 + rank else rank) < 2 ^ 64 := by
    split <;> omega
  simp only [ofRank, Binary64.rank, Nat.pow_eq, UInt64.toNat_ofNat_of_lt' hbits]
  split <;> omega

end Binary64
end Docpress
