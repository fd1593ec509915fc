import Docpress.Proofs.TimestampWords
import Mathlib.Data.List.Forall2

/-!
# Continuations of timestamps

A scanner asks for the shape of a text after every character.  It gives up on a timestamp where the
shape is hopeless, and goes on where it is not.  It is right to do so: a text is hopeless if and
only if no continuation of it is a timestamp.

* `Written` says how a timestamp is written, and `shape_eq_whole_iff` that these are the texts that
  are whole.
* `exists_continuation` completes a text that is not hopeless: the places of the template that it
  leaves open are filled, and a digit follows the dot of a fraction.
-/

namespace Docpress.Timestamp

/-! ## The written form -/

/-- The text has one character for each place of the pattern, a digit at those marked `d`. -/
def Fills (pattern text : List Char) : Prop :=
  List.Forall₂ (fun place c => fits place c = true) pattern text

/-- The places of a date. -/
def datePlaces : List Char := "dddd-dd-dd".toList

/-- Nothing, or a dot and up to nine digits. -/
def IsFraction (text : List Char) : Prop :=
  text = [] ∨ ∃ digits, text = '.' :: digits ∧ digits ≠ [] ∧ digits.length ≤ 9 ∧
    ∀ d ∈ digits, d.isDigit = true

/-- A timestamp as it is written: a date, or a date and a time, which a fraction of the last second
and the letter `Z` may follow. -/
inductive Written : List Char → Prop where
  | date {text : List Char} (hdate : Fills datePlaces text) : Written text
  | time {text fraction zone : List Char} (htime : Fills template text)
      (hfraction : IsFraction fraction) (hzone : zone = [] ∨ zone = ['Z']) :
      Written (text ++ (fraction ++ zone))

theorem fills_iff {pattern text : List Char} :
    Fills pattern text ↔
      text.length = pattern.length ∧ (pattern.zipWith fits text).all id = true := by
  induction pattern generalizing text with
  | nil => cases text <;> simp [Fills]
  | cons place pattern ih =>
    cases text with
    | nil => simp [Fills]
    | cons c text =>
      have hrest : List.Forall₂ (fun place c => fits place c = true) pattern text ↔ _ := ih
      simp [Fills, hrest, and_left_comm]

theorem tailShape_fraction {digits zone : List Char} (hne : digits ≠ [])
    (hlength : digits.length ≤ 9) (hdigits : ∀ d ∈ digits, d.isDigit = true)
    (hzone : zone = [] ∨ zone = ['Z']) : tailShape ('.' :: (digits ++ zone)) = .whole := by
  obtain ⟨hnone, hall⟩ : zone.takeWhile Char.isDigit = [] ∧ zone.dropWhile Char.isDigit = zone := by
    rcases hzone with rfl | rfl <;> exact ⟨rfl, rfl⟩
  have htake : (digits ++ zone).takeWhile Char.isDigit = digits := by
    rw [List.takeWhile_append_of_pos hdigits, hnone, List.append_nil]
  have hdrop : (digits ++ zone).dropWhile Char.isDigit = zone := by
    rw [List.dropWhile_append_of_pos hdigits, hall]
  have hmax : ¬ maxFractionDigits < digits.length := Nat.not_lt.2 hlength
  simp only [tailShape, htake, hdrop, if_neg hmax, List.isEmpty_eq_false_iff.2 hne]
  rcases hzone with rfl | rfl <;> rfl

/-- What may follow a time: a dot that asks for more, or a fraction and the letter `Z`. -/
theorem tail_cases {tail : List Char} (hshape : tailShape tail ≠ .hopeless) :
    tail = ['.'] ∨ ∃ fraction zone, tail = fraction ++ zone ∧ IsFraction fraction ∧
      (zone = [] ∨ zone = ['Z']) := by
  rcases (tailShape_ne_hopeless_iff tail).1 hshape with rfl | rfl | ⟨rest, rfl, hlength, hrest⟩
  · exact .inr ⟨[], [], rfl, .inl rfl, .inl rfl⟩
  · exact .inr ⟨[], ['Z'], rfl, .inl rfl, .inr rfl⟩
  · have hsplit := List.takeWhile_append_dropWhile (p := Char.isDigit) (l := rest)
    by_cases hnone : rest.takeWhile Char.isDigit = []
    · left
      rw [← hsplit, hnone, hrest.resolve_right fun hzulu => hzulu.2 hnone]
      rfl
    · refine .inr ⟨'.' :: rest.takeWhile Char.isDigit, rest.dropWhile Char.isDigit, ?_, ?_, ?_⟩
      · rw [List.cons_append, hsplit]
      · exact .inr ⟨_, rfl, hnone, hlength, fun d => List.mem_takeWhile_imp⟩
      · exact hrest.imp_right And.left

theorem tailShape_eq_whole {fraction zone : List Char} (hfraction : IsFraction fraction)
    (hzone : zone = [] ∨ zone = ['Z']) : tailShape (fraction ++ zone) = .whole := by
  rcases hfraction with rfl | ⟨digits, rfl, hne, hlength, hdigits⟩
  · rcases hzone with rfl | rfl <;> rfl
  · exact tailShape_fraction hne hlength hdigits hzone

theorem zipWith_template_of_date {text : List Char} (hlength : text.length = datePlaces.length) :
    template.zipWith fits text = datePlaces.zipWith fits text := by
  have hplaces : template = datePlaces ++ "Tdd:dd:dd".toList := by decide
  have happend : (datePlaces ++ "Tdd:dd:dd".toList).zipWith fits (text ++ []) =
      datePlaces.zipWith fits text ++ "Tdd:dd:dd".toList.zipWith fits [] :=
    List.zipWith_append hlength.symm
  rw [hplaces]
  simpa using happend

theorem all_fits_of_shape {text : List Char} (hshape : shape text ≠ .hopeless) :
    (template.zipWith fits text).all id = true := by
  by_contra hfits
  rw [shape, if_pos (by simpa using hfits)] at hshape
  exact hshape rfl

/-- A text that is not shorter than the template has a time, and what follows it decides. -/
theorem exists_time {text : List Char} (hlong : template.length ≤ text.length)
    (hshape : shape text ≠ .hopeless) :
    ∃ time tail, text = time ++ tail ∧ Fills template time ∧ shape text = tailShape tail := by
  obtain ⟨time, tail, rfl, htime⟩ : ∃ time tail, text = time ++ tail ∧
      time.length = template.length :=
    ⟨_, _, (List.take_append_drop _ _).symm, List.length_take_of_le hlong⟩
  have hfits := all_zipWith_of_append (all_fits_of_shape hshape)
  refine ⟨time, tail, rfl, fills_iff.2 ⟨htime, hfits⟩, ?_⟩
  rw [shape_append_tail htime, if_pos hfits]

/-- The texts that are whole are the written timestamps. -/
theorem shape_eq_whole_iff {text : List Char} : shape text = .whole ↔ Written text := by
  have hlengths : template.length = 19 ∧ datePlaces.length = 10 ∧ dateLength = 10 := by decide
  constructor
  · intro hwhole
    have hshape : shape text ≠ .hopeless := by simp [hwhole]
    rcases Nat.lt_or_ge text.length template.length with hshort | hlong
    · have hfits := all_fits_of_shape hshape
      have hdate : text.length = datePlaces.length := by
        rw [shape, if_neg (by simp [hfits]), if_pos hshort] at hwhole
        split at hwhole
        · omega
        · cases hwhole
      exact .date (fills_iff.2 ⟨hdate, zipWith_template_of_date hdate ▸ hfits⟩)
    · obtain ⟨time, tail, rfl, htime, htail⟩ := exists_time hlong hshape
      rcases tail_cases (htail ▸ hshape) with rfl | ⟨fraction, zone, rfl, hfraction, hzone⟩
      · rw [htail] at hwhole
        cases hwhole
      · exact .time htime hfraction hzone
  · intro hwritten
    cases hwritten with
    | date hdate =>
      obtain ⟨hlength, hfits⟩ := fills_iff.1 hdate
      rw [← zipWith_template_of_date hlength] at hfits
      rw [shape, if_neg (by simp [hfits]), if_pos (by omega), if_pos (by omega)]
    | time htime hfraction hzone =>
      obtain ⟨hlength, hfits⟩ := fills_iff.1 htime
      rw [shape_append_tail hlength, if_pos hfits, tailShape_eq_whole hfraction hzone]

/-! ## Completions -/

/-- A character that may stand at the place. -/
def filler (place : Char) : Char := if place = 'd' then '0' else place

theorem fits_filler (place : Char) : fits place (filler place) = true := by
  by_cases hplace : place = 'd'
  · simp [fits, filler, hplace]
  · simp [fits, filler, hplace]

/-- The places of a pattern that a text leaves open can be filled. -/
theorem fills_completed {pattern text : List Char} (hlength : text.length ≤ pattern.length)
    (hfits : (pattern.zipWith fits text).all id = true) :
    Fills pattern (text ++ (pattern.drop text.length).map filler) := by
  induction pattern generalizing text with
  | nil =>
    rw [List.eq_nil_of_length_eq_zero (Nat.le_zero.1 hlength)]
    exact .nil
  | cons place pattern ih =>
    cases text with
    | nil =>
      have hrest : Fills pattern ([] ++ pattern.map filler) :=
        @ih [] (Nat.zero_le _) (by simp)
      exact .cons (fits_filler place) hrest
    | cons c text =>
      rw [List.zipWith_cons_cons, List.all_cons, Bool.and_eq_true] at hfits
      exact .cons hfits.1 (ih (Nat.le_of_succ_le_succ hlength) hfits.2)

/-- Every text that is not hopeless has a continuation that is a timestamp. -/
theorem exists_continuation {text : List Char} (hshape : shape text ≠ .hopeless) :
    ∃ more, Written (text ++ more) := by
  rcases Nat.lt_or_ge text.length template.length with hshort | hlong
  · have htime := fills_completed (Nat.le_of_lt hshort) (all_fits_of_shape hshape)
    have hwritten : Written (text ++ (template.drop text.length).map filler ++ ([] ++ [])) :=
      .time htime (.inl rfl) (.inl rfl)
    rw [List.append_nil, List.append_nil] at hwritten
    exact ⟨_, hwritten⟩
  · obtain ⟨time, tail, rfl, htime, htail⟩ := exists_time hlong hshape
    rcases tail_cases (htail ▸ hshape) with rfl | ⟨fraction, zone, rfl, hfraction, hzone⟩
    · -- the dot of a fraction that has no digits yet
      have hfraction : IsFraction ['.', '0'] := .inr ⟨['0'], rfl, by simp, by simp, by simp⟩
      have hwritten := Written.time htime hfraction (.inl rfl)
      rw [List.append_nil] at hwritten
      exact ⟨['0'], (List.append_assoc _ _ _).symm ▸ hwritten⟩
    · exact ⟨[], (List.append_nil _).symm ▸ .time htime hfraction hzone⟩

theorem shape_append_hopeless {text : List Char} (hshape : shape text = .hopeless)
    (more : List Char) : shape (text ++ more) = .hopeless := by
  by_contra hmore
  exact shape_of_append hmore hshape

/-- A text is whole if and only if it is written as a timestamp is, and hopeless if and only if no
continuation of it is.  So no continuation of a hopeless text is better, and some continuation of an
unfinished one is whole. -/
theorem shape_decides_continuation (text : List Char) :
    (shape text = .whole ↔ Written text) ∧
    (shape text = .hopeless ↔ ∀ more, shape (text ++ more) ≠ .whole) ∧
    (shape text = .hopeless → ∀ more, shape (text ++ more) = .hopeless) ∧
    (shape text = .unfinished → ∃ more, shape (text ++ more) = .whole) := by
  have hcontinued (hshape : shape text ≠ .hopeless) : ∃ more, shape (text ++ more) = .whole := by
    obtain ⟨more, hwritten⟩ := exists_continuation hshape
    exact ⟨more, shape_eq_whole_iff.2 hwritten⟩
  refine ⟨shape_eq_whole_iff, ⟨?_, ?_⟩, shape_append_hopeless, ?_⟩
  · intro hshape more
    simp [shape_append_hopeless hshape more]
  · intro hnone
    by_contra hshape
    obtain ⟨more, hmore⟩ := hcontinued hshape
    exact hnone more hmore
  · intro hshape
    exact hcontinued (by simp [hshape])

/-- A dot behind a time has a continuation, one behind a date has none. -/
theorem shape_decides_continuation_dot :
    shape "2024-01-02T10:11:12.".toList = .unfinished ∧
    (∃ more, shape ("2024-01-02T10:11:12.".toList ++ more) = .whole) ∧
    shape "2024-01-02.".toList = .hopeless ∧
    ∀ more, shape ("2024-01-02.".toList ++ more) ≠ .whole := by
  have hunfinished : shape "2024-01-02T10:11:12.".toList = .unfinished := by decide
  have hhopeless : shape "2024-01-02.".toList = .hopeless := by decide
  exact ⟨hunfinished, (shape_decides_continuation _).2.2.2 hunfinished, hhopeless,
    (shape_decides_continuation _).2.1.1 hhopeless⟩

end Docpress.Timestamp
