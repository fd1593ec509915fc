import Docpress.Proofs.WordKinds

/-!
# Timestamps as words

A timestamp holds characters that end words elsewhere: colons behind the hour, and the dot of a
fraction.  The scanner reads a year as a number, and from the minus sign on goes on as long as the
text may become a timestamp (`Mode.scans_stamp`); it notices when it is one (`Mode.Tracks`).  A dot
behind a time may start a fraction (`Timestamp.shape_append_dot`).  If none follows, it is given
back and ends the sentence (`Mode.leaveTimestamp_dot`).

So every timestamp that stands as a word is lexed as one (`lex_timestamp_word`).
-/

namespace Docpress

/-! ## Shapes -/

namespace Timestamp

theorem shape_of_readChars? {text : List Char} (hread : (readChars? text).isSome = true) :
    shape text = .whole := by
  by_contra hshape
  rw [readChars?, if_pos hshape] at hread
  cases hread

/-- A timestamp is as long as a date at least. -/
theorem ten_le_length {text : List Char} (hwhole : shape text = .whole) : 10 ≤ text.length := by
  have hdate : dateLength = 10 := rfl
  unfold shape at hwhole
  split at hwhole
  · cases hwhole
  · split at hwhole
    · split at hwhole
      · omega
      · cases hwhole
    · have htime : template.length = 19 := by decide
      omega

/-- Nothing but a fraction follows the dot behind a time. -/
theorem tailShape_append_dot {tail : List Char} (htail : tail ≠ []) :
    tailShape (tail ++ ['.']) = .hopeless := by
  by_contra hshape
  rcases (tailShape_ne_hopeless_iff _).1 hshape with hnil | hzulu | ⟨rest, hpoint, -, hrest⟩
  · simp at hnil
  · have hlast := congrArg List.getLast? hzulu
    simp at hlast
  · obtain ⟨first, more, rfl⟩ := List.exists_cons_of_ne_nil htail
    rw [List.cons_append] at hpoint
    obtain ⟨-, rfl⟩ := List.cons.inj hpoint
    have hstop : (more ++ ['.']).dropWhile Char.isDigit =
        more.dropWhile Char.isDigit ++ ['.'] := by
      rw [List.dropWhile_append]
      split
      · rename_i hempty
        rw [List.isEmpty_iff.1 hempty]
        rfl
      · rfl
    rw [hstop] at hrest
    rcases hrest with hnil | ⟨hzulu, -⟩
    · simp at hnil
    · have hlast := congrArg List.getLast? hzulu
      simp at hlast

/-- The text has the form of a date and a time down to the second, with nothing behind. -/
def IsDateTime (text : List Char) : Prop :=
  text.length = template.length ∧ (template.zipWith fits text).all id = true

instance (text : List Char) : Decidable (IsDateTime text) :=
  inferInstanceAs (Decidable (_ ∧ _))

theorem IsDateTime.shape_eq {text : List Char} (htext : IsDateTime text) : shape text = .whole := by
  rw [← List.append_nil text, shape_append_tail htext.1, if_pos htext.2]
  rfl

/-- No place of the template takes a dot. -/
theorem fits_dot {i : Nat} {place : Char} (hplace : template[i]? = some place) :
    fits place '.' = false := by
  have hplaces : template.all (!fits · '.') = true := by decide
  simpa using List.all_eq_true.1 hplaces place (List.mem_of_getElem? hplace)

theorem IsDateTime.dot_not_mem {text : List Char} (htext : IsDateTime text) : '.' ∉ text := by
  intro hmem
  obtain ⟨i, hi⟩ := List.mem_iff_getElem?.1 hmem
  obtain ⟨hlt, -⟩ := List.getElem?_eq_some_iff.1 hi
  have hplace := List.getElem?_eq_getElem (htext.1 ▸ hlt)
  have hfits := fits_of_shape (by simp [htext.shape_eq]) hplace hi
  rw [fits_dot hplace] at hfits
  cases hfits

/-- A dot can follow a date and a time only, as the start of a fraction. -/
theorem shape_append_dot (text : List Char) :
    shape (text ++ ['.']) = if IsDateTime text then .unfinished else .hopeless := by
  rcases Nat.lt_or_ge text.length template.length with hshort | hlong
  · have hhopeless : shape (text ++ ['.']) = .hopeless := by
      by_contra hshape
      have hplace := List.getElem?_eq_getElem hshort
      have hfits := fits_of_shape hshape hplace List.getElem?_concat_length
      rw [fits_dot hplace] at hfits
      cases hfits
    rw [hhopeless, if_neg fun htext => absurd htext.1 (by omega)]
  · obtain ⟨front, tail, rfl, hfront⟩ : ∃ front tail, text = front ++ tail ∧
        front.length = template.length :=
      ⟨_, _, (List.take_append_drop _ _).symm, List.length_take_of_le hlong⟩
    rw [List.append_assoc, shape_append_tail hfront]
    cases tail with
    | nil =>
      rw [List.append_nil]
      split
      · rename_i hfits
        rw [if_pos ⟨hfront, hfits⟩]
        rfl
      · rename_i hfits
        rw [if_neg fun htext => hfits htext.2]
    | cons c tail =>
      have hother : ¬ IsDateTime (front ++ c :: tail) := by
        rintro ⟨hlength, -⟩
        rw [List.length_append, List.length_cons] at hlength
        omega
      rw [tailShape_append_dot (List.cons_ne_nil c tail), if_neg hother, ite_self]

/-- The year of a timestamp, and what follows it. -/
theorem exists_year {text : List Char} (hlength : 4 < text.length) (hshape : shape text ≠ .hopeless) :
    ∃ digits rest, text = digits ++ '-' :: rest ∧ digits.length = 4 ∧
      (∀ d ∈ digits, d.isDigit = true) ∧ rest.head? ≠ some '-' := by
  have hminus := minus_mem_of_shape hlength hshape
  have hdigits : ∀ d ∈ text.takeWhile Char.isDigit, d.isDigit = true :=
    fun d hmem => List.all_eq_true.1 List.all_takeWhile d hmem
  have hsplit : text.takeWhile Char.isDigit ++ text.dropWhile Char.isDigit = text :=
    List.takeWhile_append_dropWhile
  cases hrest : text.dropWhile Char.isDigit with
  | nil =>
    rw [hrest, List.append_nil] at hsplit
    rw [← hsplit] at hminus
    exact absurd (hdigits '-' hminus) (by decide)
  | cons c rest =>
    have hc : c.isDigit = false := by
      have hhead := List.head?_dropWhile_not Char.isDigit text
      rw [hrest] at hhead
      simpa using hhead
    rw [hrest] at hsplit
    rw [← hsplit] at hshape
    obtain ⟨hfour, rfl, hnext⟩ := year_of_shape hdigits hc hshape
    exact ⟨_, rest, hsplit.symm, hfour, hdigits, hnext⟩

end Timestamp

namespace Document

namespace Mode

open Token (runs)

/-- The characters of names are no marks. -/
theorem isInner_of_isNameChar {c : Char} (hc : Assembly.isNameChar c = true) : isInner c = true := by
  have hblank := Assembly.isBlank_of_isGraphic (Assembly.isGraphic_of_isNameChar hc)
  have hmarks : ('.' :: punctuation).all (!Assembly.isNameChar ·) = true := by decide
  have hmark : c ∉ '.' :: punctuation := by
    intro hmem
    simpa [hc] using List.all_eq_true.1 hmarks c hmem
  rw [List.mem_cons, not_or] at hmark
  simp [isInner, hblank, hmark.1, hmark.2]

/-- A mode that reads a timestamp has noticed if it is whole. -/
def Tracks (text : List Char) (whole : Nat) : Prop :=
  Timestamp.shape text = .whole → whole = text.length

/-- What may still become a timestamp is taken. -/
theorem step_timestamp_taken {text : List Char} {c : Char} {count : Nat} (whole : Nat)
    (hshape : Timestamp.shape (text ++ List.replicate count c) ≠ .hopeless) :
    ∃ next, step (.timestamp text whole) (.run c count) =
        ⟨true, .timestamp (text ++ List.replicate count c) next, []⟩ ∧
      Tracks (text ++ List.replicate count c) next := by
  cases hnext : Timestamp.shape (text ++ List.replicate count c) with
  | hopeless => exact absurd hnext hshape
  | whole =>
    refine ⟨_, ?_, fun _ => rfl⟩
    simp only [step, stepTimestamp, Token.expand, hnext]
    rfl
  | unfinished =>
    refine ⟨whole, ?_, fun hwhole => ?_⟩
    · simp only [step, stepTimestamp, Token.expand, hnext]
      rfl
    · rw [hnext] at hwhole
      cases hwhole

theorem scans_timestamp {tokens : List Token}
    (htokens : ∀ token ∈ tokens, ∃ c count, token = .run c count) {text : List Char} {whole : Nat}
    (hshape : Timestamp.shape (text ++ tokens.flatMap Token.expand) ≠ .hopeless)
    (hwhole : Tracks text whole) :
    ∃ last, Scans step (.timestamp text whole) tokens
        (.timestamp (text ++ tokens.flatMap Token.expand) last) [] ∧
      Tracks (text ++ tokens.flatMap Token.expand) last := by
  induction tokens generalizing text whole with
  | nil =>
    rw [List.flatMap_nil, List.append_nil]
    exact ⟨whole, .nil _, hwhole⟩
  | cons token tokens ih =>
    rw [List.forall_mem_cons] at htokens
    obtain ⟨⟨c, count, rfl⟩, hrest⟩ := htokens
    rw [List.flatMap_cons, ← List.append_assoc] at hshape ⊢
    obtain ⟨next, htaken, hnext⟩ := step_timestamp_taken whole (Timestamp.shape_of_append hshape)
    obtain ⟨last, hscans, hlast⟩ := ih hrest hshape hnext
    exact ⟨last, .taken htaken hscans, hlast⟩

theorem step_start_digit {c : Char} (hc : c.isDigit = true) (count : Nat) :
    step .start (.run c count) = ⟨false, .number [], []⟩ := by
  have hne {d : Char} (hd : d.isDigit = false) : c ≠ d := by
    rintro rfl
    rw [hc] at hd
    cases hd
  have hinner := isInner_of_isNameChar (Assembly.isNameChar_of_isDigit hc)
  rw [step_start_inner hinner (hne (by decide)), if_neg, if_neg, if_pos hc]
  · exact fun hminus => hne (by decide) hminus.1
  · exact fun hhash => hne (by decide) hhash.1

/-- Digits, with or without a sign, are read as a number. -/
theorem scans_numeral {numeral : List Char} (hnumeral : IsNumeral numeral) :
    Scans step .start (runs numeral) (.number numeral) [] := by
  have hscans (seen : List Char) {digits : List Char} (hdigits : ∀ c ∈ digits, c.isDigit = true) :
      Scans step (.number seen) (runs digits) (.number (seen ++ digits)) [] :=
    Scans.accumulate_of_forall Mode.number
      (fun seen c count hc _ => step_number_digits hc seen count) hdigits
  rcases hnumeral with ⟨hne, hdigits⟩ | ⟨digits, rfl, hne, hdigits⟩
  · obtain ⟨first, rest, rfl⟩ := List.exists_cons_of_ne_nil hne
    have hfirst := hdigits first List.mem_cons_self
    exact .enter (fun count _ => step_start_digit hfirst count) (hscans [] hdigits)
  · obtain ⟨first, rest, rfl⟩ := List.exists_cons_of_ne_nil hne
    have hfirst := hdigits first List.mem_cons_self
    have hminus : first ≠ '-' := by
      rintro rfl
      cases hfirst
    exact .of_taken_char rfl hminus (.enter (fun _ _ => if_pos hfirst) (hscans ['-'] hdigits))

/-- What may become a timestamp is read as one from its year on. -/
theorem scans_stamp {text : List Char} (hlength : 4 < text.length)
    (hshape : Timestamp.shape text ≠ .hopeless) :
    ∃ whole, Scans step .start (runs text) (.timestamp text whole) [] ∧ Tracks text whole := by
  obtain ⟨digits, rest, rfl, hfour, hdigits, hnext⟩ := Timestamp.exists_year hlength hshape
  -- the year is a number, until the minus sign
  have hyear : Scans step .start (runs digits) (.number digits) [] :=
    scans_numeral (.inl ⟨List.ne_nil_of_length_pos (by omega), hdigits⟩)
  have hminus : step (.number digits) (.run '-' 1) = ⟨true, .timestamp (digits ++ ['-']) 0, []⟩ := by
    have hhead : digits.head? ≠ some '-' := by
      intro hhead
      exact absurd (hdigits '-' (List.mem_of_head? hhead)) (by decide)
    rw [step, stepNumber, if_neg (by decide), if_pos ⟨rfl, hfour, hhead⟩]
    rfl
  have htracks : Tracks (digits ++ ['-']) 0 := by
    intro hwhole
    have hten := Timestamp.ten_le_length hwhole
    simp only [List.length_append, List.length_singleton] at hten
    omega
  have hruns : runs (digits ++ '-' :: rest) = runs digits ++ Token.run '-' 1 :: runs rest := by
    have hlast : digits.getLast? ≠ some '-' := by
      intro hlast
      exact absurd (hdigits '-' (List.mem_of_getLast? hlast)) (by decide)
    have haround := Token.runs_around hlast hnext (by omega : 0 < 1)
    rwa [List.append_assoc] at haround
  have htokens : ∀ token ∈ runs rest, ∃ c count, token = .run c count := by
    intro token hmem
    obtain ⟨c, count, hrun, -⟩ := Token.exists_run_of_mem_runs hmem
    exact ⟨c, count, hrun⟩
  have hexpand : digits ++ ['-'] ++ (runs rest).flatMap Token.expand = digits ++ '-' :: rest := by
    rw [Token.flatMap_expand_runs, List.append_assoc]
    rfl
  obtain ⟨whole, hscans, hwhole⟩ := scans_timestamp htokens (hexpand ▸ hshape) htracks
  rw [hexpand] at hscans hwhole
  rw [hruns]
  exact ⟨whole, hyear.append (.taken hminus hscans), hwhole⟩

/-! ### The end of a timestamp -/

theorem leaveTimestamp_read {text : List Char} {token : Token}
    (hdelimiter : isDelimiter token = true) (hread : (Timestamp.readChars? text).isSome = true)
    (whole : Nat) :
    leaveTimestamp text whole token = ⟨false, .start, [symbol .timestamp text]⟩ := by
  rw [leaveTimestamp, if_pos (by rw [hdelimiter, hread]; rfl)]
  rfl

/-- The dot that looked like the start of a fraction ends the sentence. -/
theorem leaveTimestamp_dot {text : List Char} {token : Token}
    (hdelimiter : isDelimiter token = true) (hread : (Timestamp.readChars? text).isSome = true) :
    leaveTimestamp (text ++ ['.']) text.length token =
      ⟨false, .dot, [symbol .timestamp text]⟩ := by
  have hunread : Timestamp.readChars? (text ++ ['.']) = none := by
    rw [Timestamp.readChars?, if_pos]
    rw [Timestamp.shape_append_dot]
    split <;> decide
  have hten := Timestamp.ten_le_length (Timestamp.shape_of_readChars? hread)
  have hpos : 0 < text.length := by omega
  rw [leaveTimestamp, if_neg (by simp [hunread]), List.take_left, List.drop_left,
    if_pos (by simp [hdelimiter, hread, hpos])]
  rfl

theorem step_timestamp_fraction {text : List Char} (whole : Nat)
    (hshape : Timestamp.shape (text ++ ['.']) = .unfinished) :
    step (.timestamp text whole) (.run '.' 1) = ⟨true, .timestamp (text ++ ['.']) whole, []⟩ := by
  simp only [step, stepTimestamp, Token.expand, List.replicate_one, hshape]
  rfl

/-- A timestamp is read as one to its end. -/
theorem scans_whole {text : List Char} (hwhole : Timestamp.shape text = .whole) :
    Scans step .start (runs text) (.timestamp text text.length) [] := by
  have hten := Timestamp.ten_le_length hwhole
  have hlength : 4 < text.length := by omega
  obtain ⟨whole, hscans, htracks⟩ := scans_stamp hlength (by simp [hwhole])
  rwa [htracks hwhole] at hscans

/-- No timestamp ends with a dot. -/
theorem runs_append_dot {text : List Char} (hwhole : Timestamp.shape text = .whole) :
    runs (text ++ ['.']) = runs text ++ [Token.run '.' 1] := by
  refine Token.runs_append fun hlast => ?_
  obtain ⟨before, rfl⟩ := List.getLast?_eq_some_iff.1 hlast
  rw [Timestamp.shape_append_dot] at hwhole
  split at hwhole
  · cases hwhole
  · cases hwhole

section

variable {token : Token} (hcloses : Closes token)

include hcloses

/-- A dot that no name follows is a full stop. -/
theorem Closes.step_dot (htab : ∀ count, token ≠ .run '\t' count) :
    step .dot token = ⟨false, .start, [.symbol (.punct '.')]⟩ := by
  cases token with
  | endOfText => rfl
  | run c count =>
    have hlower : isLowercase c = false := by
      cases hc : isLowercase c with
      | false => rfl
      | true =>
        have hname : Assembly.isNameChar c = true := by
          simp [Assembly.isNameChar, show c.isLower = true from hc]
        have hblank := Assembly.isBlank_of_isGraphic (Assembly.isGraphic_of_isNameChar hname)
        exact absurd rfl (hcloses.ne_run hblank count)
    have hc : c ≠ '\t' := fun hc => htab count (by rw [hc])
    simp only [step, stepDot, hlower, hc, Bool.false_eq_true, if_false]
    rfl

variable {tokens : List Token} {last : Mode} {items : List Item}
  (hrest : Scans step .start (token :: tokens) last items) {text : List Char}
  (hread : (Timestamp.readChars? text).isSome = true)

include hrest hread

/-- A timestamp up to what closes it. -/
theorem scans_stamp_closed :
    Scans step .start (runs text ++ token :: tokens) last (symbol .timestamp text :: items) := by
  have hscans := scans_whole (Timestamp.shape_of_readChars? hread)
  have hleft : step (.timestamp text text.length) token =
      ⟨false, .start, [symbol .timestamp text]⟩ := by
    rw [step_timestamp_over (hcloses.shape_over text),
      leaveTimestamp_read hcloses.isDelimiter hread]
  exact hscans.append (.declined hleft hrest)

/-- A timestamp and a dot, up to what closes them. -/
theorem scans_stamp_dot (htab : ∀ count, token ≠ .run '\t' count) :
    Scans step .start (runs (text ++ ['.']) ++ token :: tokens) last
      (symbol .timestamp text :: .symbol (.punct '.') :: items) := by
  have hwhole := Timestamp.shape_of_readChars? hread
  have hdot : Scans step .dot (token :: tokens) last (.symbol (.punct '.') :: items) :=
    .declined (hcloses.step_dot htab) hrest
  rw [runs_append_dot hwhole, List.append_assoc]
  refine (scans_whole hwhole).append ?_
  have hshape := Timestamp.shape_append_dot text
  split at hshape
  · -- the dot is taken for that of a fraction, until something else follows
    have htaken := step_timestamp_fraction text.length hshape
    have hleft : step (.timestamp (text ++ ['.']) text.length) token =
        ⟨false, .dot, [symbol .timestamp text]⟩ := by
      rw [step_timestamp_over (hcloses.shape_over _),
        leaveTimestamp_dot hcloses.isDelimiter hread]
    exact .taken htaken (.declined hleft hdot)
  · have hleft : step (.timestamp text text.length) (.run '.' 1) =
        ⟨false, .start, [symbol .timestamp text]⟩ := by
      rw [step_timestamp_over (.inr hshape), leaveTimestamp_read rfl hread]
    have htaken : step .start (.run '.' 1) = ⟨true, .dot, []⟩ := rfl
    exact .declined hleft (.taken htaken hdot)

end

end Mode

/-- A document is lexed into what the modes read, handed on from its start. -/
theorem lex_initial_of_scans {text : String} {last : Mode} {raw : List Item}
    (hraw : Scans Mode.step .start (Token.runs (dropReturns text.toList) ++ [Token.endOfText])
      last raw) :
    ∃ items, lex text = .ok items ∧ unmarked items = (Scanner.initial.handOnAll raw).2 := by
  obtain ⟨items, _, hlex, hmarked, hread⟩ :=
    lex_eq_handOnAll (show Scanner.initial.mode = .start from rfl) text
  obtain ⟨-, rfl⟩ := hread.unique hraw
  exact ⟨items, hlex, by rw [hmarked.unmarked_eq, unmarked_handOnAll hread]⟩

end Document

/-! ## Texts -/

open Token (runs)
open Document.Mode (Closes)

/-- What holds of the first character holds without carriage returns as well. -/
theorem forall_head?_dropReturns {P : Char → Prop} (hfeed : P '\r' → P '\n') {text : List Char}
    (htext : ∀ c ∈ text.head?, P c) : ∀ c ∈ (dropReturns text).head?, P c := by
  induction text with
  | nil => exact htext
  | cons d text ih =>
    have hd : P d := htext d rfl
    rw [dropReturns]
    split
    · rename_i hdropped
      obtain ⟨rfl, hfeeds⟩ := hdropped
      refine ih fun c hc => ?_
      by_cases hreturn : c = '\r'
      · rwa [hreturn]
      · cases text with
        | nil => cases hc
        | cons e text =>
          cases hc
          rw [List.dropWhile_cons_of_neg (by simpa using hreturn)] at hfeeds
          cases hfeeds
          exact hfeed hd
    · rintro c ⟨⟩
      exact hd

/-- A text that begins with a blank, or is empty, begins with a token that closes a word. -/
theorem exists_closes {rest : List Char} (hblank : ∀ c ∈ rest.head?, Text.isBlank c = true) :
    ∃ token tokens, runs (dropReturns rest) ++ [Token.endOfText] = token :: tokens ∧ Closes token ∧
      (rest.head? ≠ some '\t' → ∀ count, token ≠ .run '\t' count) := by
  have hcloses := forall_head?_dropReturns (fun _ => by decide) hblank
  have htab (hhead : rest.head? ≠ some '\t') : ∀ c ∈ (dropReturns rest).head?, c ≠ '\t' := by
    refine forall_head?_dropReturns (fun _ => by decide) ?_
    rintro c hc rfl
    exact hhead hc
  cases hdropped : dropReturns rest with
  | nil => exact ⟨.endOfText, [], rfl, .inl rfl, fun _ count heq => by cases heq⟩
  | cons c more =>
    rw [hdropped] at hcloses htab
    obtain ⟨count, tokens, hruns⟩ := Token.runsFrom_eq_cons c 1 more
    refine ⟨.run c (1 + count), tokens ++ [Token.endOfText], ?_, .inr ⟨c, 1 + count, rfl, by omega,
      hcloses c rfl⟩, fun hhead number heq => ?_⟩
    · rw [runs, hruns]
      rfl
    · cases heq
      exact htab hhead '\t' rfl rfl

/-- The tokens of a text are those of its first word and those behind it. -/
theorem tokens_append {word rest : List Char} (hword : ∀ c ∈ word, Text.isBlank c = false)
    (hblank : ∀ c ∈ rest.head?, Text.isBlank c = true) :
    runs (dropReturns (word ++ rest)) ++ [Token.endOfText] =
      runs word ++ (runs (dropReturns rest) ++ [Token.endOfText]) := by
  have hreturn : '\r' ∉ word := fun hmem => absurd (hword '\r' hmem) (by decide)
  have hheads := forall_head?_dropReturns (fun _ => by decide) hblank
  rw [dropReturns_append_left hreturn, Token.runs_append_of_apart, List.append_assoc]
  intro c hc hlast
  exact absurd ((hword c (List.mem_of_getLast? hlast)).symm.trans (hheads c hc)) (by decide)

/-- In assembly text, a timestamp with its mark is read up to what closes it. -/
theorem Assembly.Mode.scans_stamp_closed {token : Token} (hcloses : Closes token)
    {tokens : List Token} {last : Mode} {items : List Item}
    (hrest : Scans step .start (token :: tokens) last items) {text : List Char}
    (hread : (Timestamp.readChars? text).isSome = true) :
    Scans step .start (runs ('@' :: text) ++ token :: tokens) last
      (symbol .timestamp text :: items) := by
  have hwhole := Timestamp.shape_of_readChars? hread
  have hten := Timestamp.ten_le_length hwhole
  have hshape : Timestamp.shape text ≠ .hopeless := by simp [hwhole]
  obtain ⟨first, more, rfl⟩ := List.exists_cons_of_length_pos (by omega : 0 < text.length)
  have hfirst : first ≠ '@' := by
    rintro rfl
    exact absurd (Timestamp.isDigit_of_shape hshape) (by decide)
  have hstamp : Scans step .start (runs ('@' :: first :: more)) (.timestamp (first :: more)) [] :=
    .of_taken_char rfl hfirst (scans_timestamp hshape)
  have hdelimiter : isDelimiter token = true := by
    rcases hcloses with rfl | ⟨c, count, rfl, -, hblank⟩
    · rfl
    · simp [isDelimiter, hblank]
  have hleft : step (.timestamp (first :: more)) token =
      ⟨false, .start, [symbol .timestamp (first :: more)]⟩ := by
    rw [step, stepTimestamp, if_neg, if_pos (by rw [hdelimiter, hread]; rfl)]
    · rfl
    · rintro ⟨hrun, hgoes⟩
      rcases hcloses.shape_over (first :: more) with hend | hover
      · exact hrun hend
      · exact hgoes hover
  exact hstamp.append (.declined hleft hrest)

/-- A timestamp that stands as a word is lexed as one, whatever follows behind a blank: at the
start of a document, where it opens a paragraph, also with the dot of a sentence behind it, and in
assembly text behind its mark.  (A dot and a tab are an arrow.) -/
theorem lex_timestamp_word {stamp rest : String} (hread : (Timestamp.read? stamp).isSome = true)
    (hblank : ∀ c ∈ rest.toList.head?, Text.isBlank c = true) :
    (∃ items, Document.lex (stamp ++ rest) = .ok items ∧
      [Item.symbol .newline, .symbol ⟨.timestamp, stamp⟩] <+: unmarked items) ∧
    (rest.toList.head? ≠ some '\t' → ∃ items, Document.lex (stamp ++ "." ++ rest) = .ok items ∧
      [Item.symbol .newline, .symbol ⟨.timestamp, stamp⟩, .symbol (.punct '.')] <+:
        unmarked items) ∧
    ∃ items, Assembly.lex ("@" ++ stamp ++ rest) = .ok items ∧
      [Item.symbol ⟨.timestamp, stamp⟩] <+: unmarked items := by
  have hwhole := Timestamp.shape_of_readChars? hread
  have hstamp : ∀ c ∈ stamp.toList, Text.isBlank c = false := fun c hmem =>
    Document.Mode.isBlank_of_mem_timestamp (Timestamp.mem_of_shape (by simp [hwhole]) hmem)
  obtain ⟨token, tokens, htokens, hcloses, htab⟩ := exists_closes hblank
  obtain ⟨-, last, more, -, hmore, -⟩ := lex_eq_scans Document.Mode.patient .start rest
  obtain ⟨-, end', code, -, hcode, -⟩ := lex_eq_scans Assembly.Mode.patient .start rest
  rw [htokens] at hmore hcode
  refine ⟨?_, fun hhead => ?_, ?_⟩
  · have hscans := Document.Mode.scans_stamp_closed hcloses hmore hread
    rw [← htokens, ← tokens_append hstamp hblank, ← String.toList_append] at hscans
    obtain ⟨items, hlex, hitems⟩ := Document.lex_initial_of_scans hscans
    refine ⟨items, hlex, ?_⟩
    rw [hitems, Document.Mode.symbol, String.ofList_toList]
    exact ⟨_, rfl⟩
  · have hscans := Document.Mode.scans_stamp_dot hcloses hmore hread (htab hhead)
    have hdotted : ∀ c ∈ (stamp ++ ".").toList, Text.isBlank c = false := by
      rw [String.toList_append]
      exact List.forall_mem_append.2 ⟨hstamp, List.forall_mem_singleton.2 (by decide)⟩
    have hword : stamp.toList ++ ['.'] = (stamp ++ ".").toList := by simp
    rw [hword, ← htokens, ← tokens_append hdotted hblank, ← String.toList_append] at hscans
    obtain ⟨items, hlex, hitems⟩ := Document.lex_initial_of_scans hscans
    refine ⟨items, hlex, ?_⟩
    rw [hitems, Document.Mode.symbol, String.ofList_toList]
    exact ⟨_, rfl⟩
  · have hscans := Assembly.Mode.scans_stamp_closed hcloses hcode hread
    have hmarked : ∀ c ∈ ("@" ++ stamp).toList, Text.isBlank c = false := by
      rw [String.toList_append]
      exact List.forall_mem_append.2 ⟨List.forall_mem_singleton.2 (by decide), hstamp⟩
    have hword : '@' :: stamp.toList = ("@" ++ stamp).toList := by simp
    rw [hword, ← htokens, ← tokens_append hmarked hblank, ← String.toList_append] at hscans
    obtain ⟨items, _, raw, hlex, hraw, hitems⟩ :=
      lex_eq_scans Assembly.Mode.patient .start ("@" ++ stamp ++ rest)
    obtain ⟨-, rfl⟩ := hraw.unique hscans
    refine ⟨items, hlex, ?_⟩
    rw [hitems, Assembly.Mode.symbol, String.ofList_toList]
    exact ⟨_, rfl⟩

theorem lex_timestamp_word_leapDay :
    (Timestamp.read? "2024-02-29T23:59:59").isSome = true ∧
    ∃ items, Document.lex "2024-02-29T23:59:59. .p" = .ok items ∧
      [Item.symbol .newline, .symbol ⟨.timestamp, "2024-02-29T23:59:59"⟩, .symbol (.punct '.')] <+:
        unmarked items := by
  have hread : (Timestamp.read? "2024-02-29T23:59:59").isSome = true := by decide
  have hblank : ∀ c ∈ " .p".toList.head?, Text.isBlank c = true := by
    rintro c ⟨⟩
    decide
  obtain ⟨-, hdot, -⟩ := lex_timestamp_word hread hblank
  exact ⟨hread, hdot (by decide)⟩

end Docpress
