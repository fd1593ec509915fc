import Docpress.Proofs.IncludeDirectives
import Docpress.Proofs.TimestampWords

/-!
# Directives behind words

A single dot and a lower case letter open a directive, whatever the word before them is: a number
may take the dot for that of a fraction, but gives it back when no digit follows
(`Mode.Sheds`).  There are few modes in which a dot is something else (`Mode.Seals`).  A text that
is lexed into one symbol with all its characters leaves the scanner in none of these: comments take
characters that no symbol has (`Mode.load_of_scans`), and the others begin with a quote or are no
words.

The exception is a date with a time.  With a dot behind it, it may still become a timestamp with a
fraction; when a letter follows, all that was read is continued as a plain word, the dot included
(`Mode.scans_dateTime`).
-/

namespace Docpress.Document

open Token (runs)

namespace Mode

/-! ## Lengths -/

/-- How many characters the mode may still hand on, and one more where some were skipped. -/
def load : Mode → Nat
  | start | breaks _ | path _ => 0
  | comment | dot | sign => 1
  | word text | directive text | number text | float text | timestamp text _ | color text =>
    text.length
  | numberDot text | literal text => text.length + 1
  | escape text => text.length + 2
  | inclusion => "include".length

/-- The answer to a token of the given length hands on no more than was read. -/
def Weighs (load size : Nat) (answer : Scan Mode) : Prop :=
  (characters answer.items).length + answer.next.load ≤
    load + if answer.taken then size else 0

section

variable {before size : Nat} {next : Mode} {items : List Item}

theorem weighs_accept (hload : (characters items).length + next.load ≤ before + size) :
    Weighs before size (accept next items) := hload

theorem weighs_decline (hload : (characters items).length + next.load ≤ before) :
    Weighs before size (decline next items) := hload

theorem Weighs.mono {answer : Scan Mode} (hweighs : Weighs before size answer) {before' size' : Nat}
    (hbefore : before ≤ before') (hsize : size ≤ size') : Weighs before' size' answer := by
  unfold Weighs at hweighs ⊢
  split at hweighs
  · rw [if_pos ‹_›]
    omega
  · rw [if_neg ‹_›]
    omega

end

/-- A dot behind a word takes the place of one that was read. -/
theorem load_dots (text : List Char) (count : Nat) :
    (characters (dots text count).2).length + (dots text count).1.load ≤ text.length + count := by
  unfold dots
  dsimp only
  split
  · rw [characters_flush, List.length_append, List.length_replicate, load]
    omega
  · rw [characters_nil, load, List.length_append, List.length_replicate, List.length_nil]
    omega

section

variable {token : Token} (text : List Char)

theorem weighs_stepStart : Weighs 0 token.expand.length (stepStart token) := by
  cases token with
  | endOfText => exact weighs_accept (by decide)
  | run c count =>
    rw [Token.expand, List.length_replicate]
    refine iteInduction (fun _ => weighs_accept (by simp [load])) fun _ => ?_
    refine iteInduction (fun _ => weighs_accept (by simp [load])) fun _ => ?_
    refine iteInduction (fun _ => weighs_accept (load_dots [] count)) fun _ => ?_
    refine iteInduction (fun hrun => weighs_accept ?_) fun _ => ?_
    · simp only [characters_nil, load, List.length_nil]
      omega
    refine iteInduction (fun hrun => weighs_accept (by simp [load, hrun.2])) fun _ => ?_
    refine iteInduction (fun hrun => weighs_accept (by simp [load, hrun.2])) fun _ => ?_
    refine iteInduction (fun hrun => weighs_accept (by simp [load, hrun.2])) fun _ => ?_
    refine iteInduction (fun _ => weighs_decline (by simp [load])) fun _ => ?_
    refine iteInduction (fun _ => weighs_accept ?_) fun _ => weighs_decline (by simp [load])
    simp [characters_puncts, load]

theorem weighs_stepBreaks (count : Nat) :
    Weighs 0 token.expand.length (stepBreaks count token) := by
  refine iteInduction (fun _ => weighs_accept (by simp [load])) fun _ => ?_
  refine iteInduction (fun _ => weighs_accept (by simp [load])) fun _ => weighs_decline ?_
  split
  · decide
  · decide

theorem weighs_stepComment : Weighs 1 token.expand.length (stepComment token) :=
  iteInduction (fun _ => weighs_decline (by simp [load])) fun _ => weighs_accept (by simp [load])

theorem weighs_stepWord : Weighs text.length token.expand.length (stepWord text token) := by
  unfold stepWord
  split
  · rename_i count
    refine weighs_accept ?_
    rw [Token.expand, List.length_replicate]
    exact load_dots text count
  · refine iteInduction (fun _ => weighs_decline ?_) fun _ => weighs_accept (by simp [load])
    simp [characters_flush, load]

theorem weighs_stepDot : Weighs 1 token.expand.length (stepDot token) := by
  cases token with
  | endOfText => exact weighs_decline (by decide)
  | run c count =>
    refine iteInduction (fun _ => weighs_accept (by simp [load])) fun _ => ?_
    refine iteInduction (fun _ => weighs_accept ?_) fun _ => weighs_decline (by decide)
    simp [load, arrow]

theorem weighs_stepDirective :
    Weighs text.length token.expand.length (stepDirective text token) := by
  refine iteInduction (fun _ => weighs_accept (by simp [load])) fun _ => ?_
  refine iteInduction (fun hname => weighs_decline ?_) fun _ => weighs_decline ?_
  · rw [hname]
    decide
  · simp [characters_symbol, load]

theorem weighs_stepInclusion :
    Weighs "include".length token.expand.length (stepInclusion token) := by
  refine iteInduction (fun _ => weighs_accept (by simp [load])) fun _ => ?_
  refine iteInduction (fun _ => weighs_accept (by simp [load])) fun _ => weighs_decline ?_
  decide

theorem weighs_stepPath : Weighs 0 token.expand.length (stepPath text token) := by
  refine iteInduction (fun _ => weighs_accept (by simp [load])) fun _ => ?_
  exact iteInduction (fun _ => weighs_decline (by simp [load])) fun _ =>
    weighs_accept (by simp [load])

theorem weighs_stepSign : Weighs 1 token.expand.length (stepSign token) :=
  iteInduction (fun _ => weighs_decline (by simp [load])) fun _ => weighs_decline (by simp [load])

theorem weighs_stepNumber : Weighs text.length token.expand.length (stepNumber text token) := by
  refine iteInduction (fun _ => weighs_accept (by simp [load])) fun _ => ?_
  refine iteInduction (fun hyear => weighs_accept (by simp [hyear.1, load, Token.expand])) fun _ => ?_
  refine iteInduction (fun hdot => weighs_accept (by simp [hdot, load, Token.expand])) fun _ => ?_
  refine iteInduction (fun _ => weighs_decline (by simp [load])) fun _ => weighs_decline ?_
  simp [characters_symbol, load]

theorem weighs_stepNumberDot :
    Weighs (text.length + 1) token.expand.length (stepNumberDot text token) := by
  refine iteInduction (fun _ => weighs_accept ?_) fun _ => weighs_decline ?_
  · simp only [characters_nil, load, List.length_append, List.length_cons, List.length_nil]
    omega
  · simp [characters_symbol, load]

theorem weighs_stepFloat : Weighs text.length token.expand.length (stepFloat text token) := by
  refine iteInduction (fun _ => weighs_accept (by simp [load])) fun _ => ?_
  refine iteInduction (fun _ => weighs_decline (by simp [load])) fun _ => weighs_decline ?_
  simp [characters_symbol, load]

theorem weighs_stepTimestamp (whole : Nat) :
    Weighs text.length token.expand.length (stepTimestamp text whole token) := by
  have hdotted : (characters (symbol .timestamp (text.take whole) ::
      (dots [] (text.drop whole).length).2)).length +
        (dots [] (text.drop whole).length).1.load ≤ text.length := by
    have hdots := load_dots [] (text.drop whole).length
    have hparts : (text.take whole).length + (text.drop whole).length = text.length := by
      rw [← List.length_append, List.take_append_drop]
    rw [symbol, characters_symbol_cons, String.toList_ofList, List.length_append]
    rw [List.length_nil] at hdots
    omega
  have hleave : Weighs text.length token.expand.length (leaveTimestamp text whole token) := by
    refine iteInduction (fun _ => weighs_decline (by simp [characters_symbol, load])) fun _ => ?_
    exact iteInduction (fun _ => weighs_decline hdotted) fun _ => weighs_decline (by simp [load])
  unfold stepTimestamp
  dsimp only
  split
  · exact weighs_accept (by simp [load])
  · exact weighs_accept (by simp [load])
  · exact hleave

theorem weighs_stepColor : Weighs text.length token.expand.length (stepColor text token) := by
  refine iteInduction (fun _ => weighs_accept (by simp [load])) fun _ => ?_
  refine iteInduction (fun _ => weighs_decline ?_) fun _ => weighs_decline (by simp [load])
  simp [characters_symbol, load]

theorem weighs_stepLiteral :
    Weighs (text.length + 1) token.expand.length (stepLiteral text token) := by
  cases token with
  | endOfText => exact weighs_decline (by simp [load])
  | run c count =>
    rw [Token.expand, List.length_replicate]
    refine iteInduction (fun _ => weighs_decline (by simp [load])) fun _ => ?_
    refine iteInduction (fun _ => weighs_accept ?_) fun _ => ?_
    · rw [characters_symbol]
      split
      · rw [load, List.length_replicate]
        omega
      · rw [load]
        omega
    refine iteInduction (fun _ => weighs_accept ?_) fun _ => weighs_accept ?_
    · split
      · simp only [characters_nil, load, List.length_append, List.length_replicate, List.length_nil]
        omega
      · simp only [characters_nil, load, List.length_append, List.length_replicate, List.length_nil]
        omega
    · simp only [characters_nil, load, Token.expand, List.length_append, List.length_replicate,
        List.length_nil]
      omega

theorem weighs_stepEscape :
    Weighs (text.length + 2) token.expand.length (stepEscape text token) := by
  have hbroken : Weighs (text.length + 2) token.expand.length
      (decline (.word []) [symbol .text ('\'' :: text ++ ['\\'])]) :=
    weighs_decline (by simp [characters_symbol, load])
  unfold stepEscape
  cases token with
  | endOfText => exact hbroken
  | run c count =>
    dsimp only
    split
    · exact hbroken
    · rename_i escaped _
      refine iteInduction (fun _ => ?_) fun _ => weighs_accept (by simp [load])
      refine (weighs_stepLiteral (text ++ [escaped])).mono ?_ ?_
      · simp
      · simp only [Token.expand, List.length_replicate]
        omega

end

/-- No step hands on or holds more than was read. -/
theorem weighs_step (mode : Mode) (token : Token) :
    Weighs mode.load token.expand.length (mode.step token) := by
  cases mode with
  | start => exact weighs_stepStart
  | breaks count => exact weighs_stepBreaks count
  | comment => exact weighs_stepComment
  | word text => exact weighs_stepWord text
  | dot => exact weighs_stepDot
  | directive name => exact weighs_stepDirective name
  | inclusion => exact weighs_stepInclusion
  | path text => exact weighs_stepPath text
  | sign => exact weighs_stepSign
  | number text => exact weighs_stepNumber text
  | numberDot text => exact weighs_stepNumberDot text
  | float text => exact weighs_stepFloat text
  | timestamp text whole => exact weighs_stepTimestamp text whole
  | color text => exact weighs_stepColor text
  | literal text => exact weighs_stepLiteral text
  | escape text => exact weighs_stepEscape text

/-- A text is at least as long as the symbols that it is read as. -/
theorem load_of_scans {mode last : Mode} {tokens : List Token} {items : List Item}
    (hscans : Scans step mode tokens last items) :
    (characters items).length + last.load ≤
      mode.load + (tokens.flatMap Token.expand).length := by
  induction hscans with
  | nil mode => simp
  | @taken mode next last token rest items more hscan _ ih =>
    have hweighs := weighs_step mode token
    rw [hscan, Weighs, if_pos rfl] at hweighs
    rw [characters_append, List.length_append, List.flatMap_cons, List.length_append]
    dsimp only at hweighs
    omega
  | @declined mode next last token rest items more hscan _ ih =>
    have hweighs := weighs_step mode token
    rw [hscan, Weighs, if_neg (by simp)] at hweighs
    rw [characters_append, List.length_append]
    dsimp only at hweighs
    omega

/-! ## Dots behind words -/

theorem isDigit_of_isLowercase {c : Char} (hc : isLowercase c = true) : c.isDigit = false := by
  have hlower := Assembly.isLower_range hc
  simp [Char.isDigit, UInt32.le_iff_toNat_le]
  omega

/-- The mode hands on the items both before the end of the text and before a dot and a letter,
which open a directive. -/
structure Sheds (mode : Mode) (items : List Item) : Prop where
  ends : Scans step mode [.endOfText] .start (items ++ [Item.symbol .endOfData])
  opens {c : Char} (hc : isLowercase c = true) {count : Nat} {tokens : List Token} {last : Mode}
    {more : List Item} (hrest : Scans step .dot (.run c count :: tokens) last more) :
    Scans step mode (.run '.' 1 :: .run c count :: tokens) last (items ++ more)

theorem Sheds.declined {mode next : Mode} {items more : List Item}
    (hend : step mode .endOfText = ⟨false, next, items⟩)
    (hdot : step mode (.run '.' 1) = ⟨false, next, items⟩) (hnext : Sheds next more) :
    Sheds mode (items ++ more) where
  ends := by
    rw [List.append_assoc]
    exact .declined hend hnext.ends
  opens hc _ _ _ _ hrest := by
    rw [List.append_assoc]
    exact .declined hdot (hnext.opens hc hrest)

theorem sheds_start : Sheds .start [] where
  ends := .of_taken rfl
  opens _ _ _ _ _ hrest := .taken rfl hrest

/-- What is handed on at once. -/
theorem Sheds.of_left {mode : Mode} {items : List Item}
    (hend : step mode .endOfText = ⟨false, .start, items⟩)
    (hdot : step mode (.run '.' 1) = ⟨false, .start, items⟩) : Sheds mode items := by
  rw [← List.append_nil items]
  exact .declined hend hdot sheds_start

theorem sheds_dot : Sheds .dot [.symbol (.punct '.')] := .of_left rfl rfl

theorem sheds_word (text : List Char) : Sheds (.word text) (flush text) where
  ends := .declined rfl (.of_taken rfl)
  opens _ _ _ _ _ hrest := by
    have htaken : step (.word text) (.run '.' 1) = ⟨true, .dot, flush text⟩ := by
      simp [step, stepWord, dots, accept]
    exact .taken htaken hrest

/-- A dot behind a number may start a fraction, which a letter does not go on. -/
theorem sheds_number (text : List Char) :
    Sheds (.number text) [symbol (numberKind text) text] where
  ends := .declined rfl (.of_taken rfl)
  opens {c} hc count _ _ _ hrest := by
    have hdigit : c.isDigit = false := isDigit_of_isLowercase hc
    have htaken : step (.number text) (.run '.' 1) = ⟨true, .numberDot text, []⟩ := rfl
    have hleft : step (.numberDot text) (.run c count) =
        ⟨false, .dot, [symbol (numberKind text) text]⟩ := by
      rw [step, stepNumberDot, if_neg (by simp [isDigits, hdigit])]
      rfl
    have hscans := Scans.taken htaken (Scans.declined hleft hrest)
    exact hscans

theorem sheds_numberDot (text : List Char) :
    Sheds (.numberDot text) ([symbol (numberKind text) text] ++ [Item.symbol (.punct '.')]) :=
  .declined rfl rfl sheds_dot

/-- A dot ends what looked like a timestamp, unless it may start a fraction. -/
theorem exists_sheds_timestamp {text : List Char} (whole : Nat)
    (hover : Timestamp.shape (text ++ ['.']) = .hopeless) :
    ∃ items, Sheds (.timestamp text whole) items := by
  have hleft {next : Mode} {items : List Item}
      (hleave : leaveTimestamp text whole .endOfText = ⟨false, next, items⟩) :
      step (.timestamp text whole) .endOfText = ⟨false, next, items⟩ ∧
        step (.timestamp text whole) (.run '.' 1) = ⟨false, next, items⟩ :=
    ⟨hleave, by rw [step_timestamp_over (.inr hover), ← hleave]; rfl⟩
  have hsheds : ∃ next items more,
      leaveTimestamp text whole .endOfText = ⟨false, next, items⟩ ∧ Sheds next more := by
    unfold leaveTimestamp
    dsimp only
    split
    · exact ⟨_, _, _, rfl, sheds_start⟩
    · split
      · unfold dots
        dsimp only
        split
        · exact ⟨_, _, _, rfl, sheds_dot⟩
        · exact ⟨_, _, _, rfl, sheds_word _⟩
      · exact ⟨_, _, _, rfl, sheds_word text⟩
  obtain ⟨next, items, more, hleave, hnext⟩ := hsheds
  exact ⟨_, .declined (hleft hleave).1 (hleft hleave).2 hnext⟩

/-- The modes in which a dot and a letter are something else than the start of a directive. -/
def Seals : Mode → Prop
  | comment | path _ | literal _ | escape _ => True
  | timestamp text _ => Timestamp.shape (text ++ ['.']) ≠ .hopeless
  | _ => False

theorem exists_sheds {mode : Mode} (hopen : ¬ mode.Seals) : ∃ items, Sheds mode items := by
  cases mode with
  | start => exact ⟨_, sheds_start⟩
  | breaks count => exact ⟨_, .of_left rfl rfl⟩
  | word text => exact ⟨_, sheds_word text⟩
  | dot => exact ⟨_, sheds_dot⟩
  | directive name =>
    by_cases hinclude : name = "include".toList
    · have hinclusion : Sheds .inclusion [.symbol ⟨.directive, "include"⟩] := .of_left rfl rfl
      exact ⟨_, .declined (if_pos hinclude) (if_pos hinclude) hinclusion⟩
    · exact ⟨_, .of_left (if_neg hinclude) (if_neg hinclude)⟩
  | inclusion => exact ⟨_, .of_left rfl rfl⟩
  | sign => exact ⟨_, .declined rfl rfl (sheds_word ['-'])⟩
  | number text => exact ⟨_, sheds_number text⟩
  | numberDot text => exact ⟨_, sheds_numberDot text⟩
  | float text => exact ⟨_, .of_left rfl rfl⟩
  | timestamp text whole => exact exists_sheds_timestamp whole (not_not.1 hopen)
  | color text =>
    by_cases hread : (Color.readChars? text).isSome = true
    · exact ⟨_, .of_left (if_pos hread) (if_pos hread)⟩
    · exact ⟨_, .declined (if_neg hread) (if_neg hread) (sheds_word text)⟩
  | comment | path | literal | escape => exact absurd trivial hopen

/-- The name of a directive, from its dot to the end of the text. -/
theorem scans_name {name : List Char} (hname : IsIdentifier name)
    (hinclude : name ≠ "include".toList) :
    Scans step .dot (runs name ++ [Token.endOfText]) .start
      [symbol .directive name, .symbol .endOfData] := by
  have hcontinues (seen : List Char) (c : Char) (count : Nat) (hc : continuesName c = true)
      (_ : 0 < count) : Scans.Collects step Mode.directive seen c count := if_pos hc
  have hscans : Scans step .dot (runs name) (.directive name) [] := by
    have hcollected : Scans step (.directive []) (runs name) (.directive ([] ++ name)) [] :=
      Scans.accumulate_of_forall Mode.directive hcontinues hname.isNameChar
    obtain ⟨first, rest, rfl, hlower⟩ := hname.isLower_head
    -- the first letter is taken as it would be later in the name
    refine .of_alike (fun count hcount => ?_) hcollected
    have hfirst : continuesName first = true := hname.isNameChar first List.mem_cons_self
    rw [hcontinues [] first count hfirst hcount]
    exact if_pos hlower
  have hleft : step (.directive name) .endOfText = ⟨false, .start, [symbol .directive name]⟩ :=
    if_neg hinclude
  exact hscans.append (.declined hleft (.of_taken rfl))

theorem Sheds.scans_name {mode : Mode} {items : List Item} (hsheds : Sheds mode items)
    {name : List Char} (hname : IsIdentifier name) (hinclude : name ≠ "include".toList) :
    Scans step mode (.run '.' 1 :: (runs name ++ [Token.endOfText])) .start
      (items ++ [symbol .directive name, .symbol .endOfData]) := by
  have hdirective := Mode.scans_name hname hinclude
  obtain ⟨first, rest, rfl, hlower⟩ := hname.isLower_head
  obtain ⟨count, tokens, hruns⟩ := Token.runsFrom_eq_cons first 1 rest
  rw [runs, hruns] at hdirective ⊢
  exact hsheds.opens hlower hdirective

theorem runs_dot_name {text name : List Char} (hlast : text.getLast? ≠ some '.')
    (hname : IsIdentifier name) :
    runs (text ++ '.' :: name) = runs text ++ Token.run '.' 1 :: runs name := by
  have hhead : name.head? ≠ some '.' := by
    obtain ⟨first, rest, rfl, hlower⟩ := hname.isLower_head
    rintro ⟨⟩
    exact absurd hlower (by decide)
  have haround := Token.runs_around hlast hhead (by omega : 0 < 1)
  rwa [List.append_assoc] at haround

/-! ### Dates with times -/

/-- No timestamp goes on with a lower case letter. -/
theorem shape_append_lowercase {c : Char} (hc : isLowercase c = true) {count : Nat}
    (hcount : 0 < count) (text : List Char) :
    Timestamp.shape (text ++ List.replicate count c) = .hopeless := by
  refine Timestamp.shape_append_foreign ?_ hcount text
  rintro (hdigit | hmark)
  · rw [isDigit_of_isLowercase hc] at hdigit
    cases hdigit
  · have hmarks : ['-', 'T', ':', '.', 'Z'].all (!isLowercase ·) = true := by decide
    simpa [hc] using List.all_eq_true.1 hmarks c hmark

/-- A date and a time take up a dot and the name behind it, all of which is a plain word. -/
theorem scans_dateTime {text name : List Char} (htext : Timestamp.IsDateTime text)
    (hname : IsIdentifier name) :
    Scans step .start (runs (text ++ '.' :: name) ++ [Token.endOfText]) .start
      [symbol .text (text ++ '.' :: name), .symbol .endOfData] := by
  have hlast : text.getLast? ≠ some '.' :=
    fun hlast => htext.dot_not_mem (List.mem_of_getLast? hlast)
  have hfraction : Timestamp.shape (text ++ ['.']) = .unfinished := by
    rw [Timestamp.shape_append_dot, if_pos htext]
  have htaken := step_timestamp_fraction text.length hfraction
  have hword : Scans step (.timestamp (text ++ ['.']) text.length) (runs name)
      (.word (text ++ '.' :: name)) [] := by
    have hcollected : Scans step (.word (text ++ ['.'])) (runs name)
        (.word (text ++ ['.'] ++ name)) [] :=
      Scans.accumulate_of_forall Mode.word
        (fun seen c count hc _ => step_word_inner (isInner_of_isNameChar hc) seen count)
        hname.isNameChar
    rw [List.append_assoc] at hcollected
    obtain ⟨first, rest, rfl, hlower⟩ := hname.isLower_head
    refine .enter (fun count hcount => ?_) hcollected
    have hinner := isInner_of_isNameChar (hname.isNameChar first List.mem_cons_self)
    rw [step_timestamp_over (.inr (shape_append_lowercase hlower hcount _)), leaveTimestamp,
      isDelimiter_inner hinner]
    rfl
  have hends := (sheds_word (text ++ '.' :: name)).ends
  have hflush : flush (text ++ '.' :: name) = [symbol .text (text ++ '.' :: name)] := by
    simp [flush]
  rw [hflush] at hends
  rw [runs_dot_name hlast hname, List.append_assoc]
  exact (scans_whole htext.shape_eq).append (.taken htaken (hword.append hends))

/-! ### Words -/

theorem length_le_characters {s : Symbol} {items : List Item} (hmem : .symbol s ∈ items) :
    s.text.toList.length ≤ (characters items).length := by
  obtain ⟨before, after, rfl⟩ := List.append_of_mem hmem
  rw [characters_append, characters_symbol_cons, List.length_append, List.length_append]
  omega

section

variable {mode : Mode} {before after : List Item} {s : Symbol}
  (hafter : Scans step mode [.endOfText] .start after)
  (hitems : (before ++ after).filter (!isBreak ·) = [Item.symbol s, .symbol .endOfData])

include hafter hitems

/-- What a mode hands on at the end of a text that is read as one symbol is the symbol. -/
theorem item_eq_of_ends {item : Item}
    (hscans : Scans step mode [.endOfText] .start [item, .symbol .endOfData])
    (hitem : isBreak item = false) : item = .symbol s := by
  obtain ⟨-, rfl⟩ := hafter.unique hscans
  have hkept : [item, .symbol .endOfData].filter (!isBreak ·) = [item, .symbol .endOfData] := by
    rw [List.filter_cons_of_pos (by rw [hitem]; rfl)]
    rfl
  rw [List.filter_append, hkept] at hitems
  have hlength := congrArg List.length hitems
  have hnone : before.filter (!isBreak ·) = [] := by
    apply List.eq_nil_of_length_eq_zero
    simp only [List.length_append, List.length_cons, List.length_nil] at hlength
    omega
  rw [hnone] at hitems
  exact (List.cons.inj hitems).1

theorem text_eq_of_ends {kind : SymbolKind} (hkind : kind ≠ .newline) {read : List Char}
    (hscans : Scans step mode [.endOfText] .start [symbol kind read, .symbol .endOfData]) :
    s.text.toList = read := by
  cases item_eq_of_ends hafter hitems hscans (decide_eq_false hkind)
  exact String.toList_ofList

end

/-- A date with a time is handed on at the end as it was read, whether or not it is one of the
calendar. -/
theorem exists_scans_dateTime {read : List Char} (hread : Timestamp.IsDateTime read) (whole : Nat) :
    ∃ kind, kind ≠ .newline ∧ Scans step (.timestamp read whole) [.endOfText] .start
      [symbol kind read, .symbol .endOfData] := by
  have hcloses : Closes .endOfText := .inl rfl
  have hleft := hcloses.step_timestamp hread.dot_not_mem whole
  split at hleft
  · exact ⟨.timestamp, by decide, .declined hleft sheds_start.ends⟩
  · have hword := (sheds_word read).ends
    have hflush : flush read = [symbol .text read] := by
      rw [flush, if_neg]
      rw [List.isEmpty_iff, ← List.length_eq_zero_iff, hread.1]
      decide
    rw [hflush] at hword
    exact ⟨.text, by decide, .declined hleft hword⟩

/-- A text that is read as one symbol with its own characters does not end where a dot would be
something else than the start of a directive, unless it is a date with a time. -/
theorem not_seals_of_word {text : List Char} {mode : Mode} {before after : List Item} {s : Symbol}
    (hbefore : Scans step .start (runs text) mode before)
    (hafter : Scans step mode [.endOfText] .start after)
    (hitems : (before ++ after).filter (!isBreak ·) = [Item.symbol s, .symbol .endOfData])
    (htext : s.text.toList = text) (hquote : text.head? ≠ some '\'')
    (hplain : ¬ Timestamp.IsDateTime text) :
    ¬ mode.Seals := by
  intro hseals
  cases mode with
  | start | breaks | word | dot | directive | inclusion | sign | number | numberDot | float | color =>
    exact hseals
  | comment =>
    -- the symbol stands before the comment, for which there are no characters left
    have hleft : step .comment .endOfText = ⟨false, .start, []⟩ := rfl
    obtain ⟨-, rfl⟩ := hafter.unique (.declined hleft sheds_start.ends)
    have hmem : .symbol s ∈ before := by
      have hone : before.filter (!isBreak ·) ++ [Item.symbol .endOfData] =
        [Item.symbol s] ++ [Item.symbol .endOfData] := (List.filter_append ..).symm.trans hitems
      refine (List.mem_filter.1 (?_ : _ ∈ before.filter (!isBreak ·))).1
      rw [List.append_cancel_right hone]
      exact List.mem_cons_self
    have hlength := length_le_characters hmem
    have hload := load_of_scans hbefore
    rw [Token.flatMap_expand_runs] at hload
    rw [htext] at hlength
    simp only [load] at hload
    omega
  | path request =>
    have hleft : step (.path request) .endOfText =
      ⟨false, .start, [.inclusion (String.ofList (Text.trim request))]⟩ := rfl
    cases item_eq_of_ends hafter hitems (.declined hleft sheds_start.ends) rfl
  | literal read =>
    have hleft : step (.literal read) .endOfText = ⟨false, .word ('\'' :: read), []⟩ := rfl
    have hscans := Scans.declined hleft (sheds_word ('\'' :: read)).ends
    rw [← htext, text_eq_of_ends hafter hitems (by decide) hscans] at hquote
    exact hquote rfl
  | escape read =>
    have hleft : step (.escape read) .endOfText =
      ⟨false, .word [], [symbol .text ('\'' :: read ++ ['\\'])]⟩ := rfl
    have hscans := Scans.declined hleft (sheds_word []).ends
    rw [← htext, text_eq_of_ends hafter hitems (by decide) hscans] at hquote
    exact hquote rfl
  | timestamp read whole =>
    have hdateTime : Timestamp.IsDateTime read := by
      by_contra hother
      exact hseals (by rw [Timestamp.shape_append_dot, if_neg hother])
    obtain ⟨kind, hkind, hscans⟩ := exists_scans_dateTime hdateTime whole
    rw [← text_eq_of_ends hafter hitems hkind hscans, htext] at hdateTime
    exact hplain hdateTime

end Mode

/-! ## Documents -/

theorem Scanner.handOnAll_directive (scanner : Scanner) (name : List Char) :
    (scanner.handOnAll [Mode.symbol .directive name, .symbol .endOfData]).2 =
      [Mode.symbol .directive name, .symbol .endOfData] := by
  simp [handOnAll, handOn, startsParagraph, Mode.symbol, Symbol.endOfData]

/-- What is lexed into a paragraph with one symbol that has all its characters was read as that
symbol, and has no carriage returns to drop. -/
theorem scans_of_lex {word : String} {s : Symbol} {items : List Item} (hlex : lex word = .ok items)
    (hitems : unmarked items = [Item.symbol .newline, .symbol s, .symbol .endOfData])
    (hkind : s.kind ≠ .newline) (htext : s.text = word) :
    ∃ raw, Scans Mode.step .start (runs word.toList ++ [Token.endOfText]) .start raw ∧
      (Scanner.initial.handOnAll raw).2 = [Item.symbol .newline, .symbol s, .symbol .endOfData] ∧
      raw.filter (!isBreak ·) = [Item.symbol s, .symbol .endOfData] ∧
      dropReturns word.toList = word.toList := by
  have hstart : Scanner.initial.mode = .start := rfl
  obtain ⟨_, raw, hlex', hmarked, hraw⟩ := lex_eq_handOnAll hstart word
  cases hlex.symm.trans hlex'
  have hhanded : (Scanner.initial.handOnAll raw).2 =
      [Item.symbol .newline, .symbol s, .symbol .endOfData] := by
    rw [← unmarked_handOnAll hraw, ← hmarked.unmarked_eq, hitems]
  have hkept : raw.filter (!isBreak ·) = [Item.symbol s, .symbol .endOfData] := by
    rw [← Scanner.filter_handOnAll .initial raw, hhanded]
    simp [isBreak, hkind, Symbol.newline, Symbol.endOfData]
  have hreturns : dropReturns word.toList = word.toList := by
    refine (dropReturns_sublist word.toList).eq_of_length_le ?_
    have hmem : .symbol s ∈ raw := (List.mem_filter.1 (hkept ▸ List.mem_cons_self)).1
    have hlength := Mode.length_le_characters hmem
    have hload := Mode.load_of_scans hraw
    rw [List.flatMap_append, Token.flatMap_expand_runs] at hload
    simp only [Mode.load, Token.expand, List.flatMap_cons, List.flatMap_nil, List.append_nil]
      at hload
    rw [htext] at hlength
    omega
  rw [hreturns] at hraw
  exact ⟨raw, hraw, hhanded, hkept, hreturns⟩

/-- A dot and a name behind a word that is lexed into one symbol are lexed into a directive behind
that symbol.  A date with a time is no such word: with the dot and the name it becomes plain
text. -/
theorem lex_directive_behind_word {word name : String} {s : Symbol} {items : List Item}
    (hlex : lex word = .ok items)
    (hitems : unmarked items = [Item.symbol .newline, .symbol s, .symbol .endOfData])
    (hkind : s.kind ∈ [SymbolKind.text, .number, .signed, .float, .timestamp, .color])
    (htext : s.text = word) (hquote : word.toList.head? ≠ some '\'')
    (hdot : word.toList.getLast? ≠ some '.') (hname : IsIdentifier name.toList)
    (hinclude : name ≠ "include") :
    ∃ more, lex (word ++ "." ++ name) = .ok more ∧ unmarked more =
      if Timestamp.IsDateTime word.toList then
        [Item.symbol .newline, .symbol ⟨.text, word ++ "." ++ name⟩, .symbol .endOfData]
      else
        [Item.symbol .newline, .symbol s, .symbol ⟨.directive, name⟩, .symbol .endOfData] := by
  have hne : s.kind ≠ .newline := by
    intro hnewline
    rw [hnewline] at hkind
    exact absurd hkind (by decide)
  obtain ⟨raw, hraw, hhanded, hkept, hreturns⟩ := scans_of_lex hlex hitems hne htext
  obtain ⟨mode, before, after, hbefore, hafter, rfl⟩ := hraw.split
  have htokens : runs (dropReturns (word ++ "." ++ name).toList) =
      runs (word.toList ++ '.' :: name.toList) := by
    have hreturn : '\r' ∉ '.' :: name.toList := by
      rintro (_ | ⟨_, hmem⟩)
      exact absurd (hname.isNameChar '\r' hmem) (by decide)
    have happend : (word ++ "." ++ name).toList = word.toList ++ '.' :: name.toList := by simp
    rw [happend, dropReturns_append, hreturns, dropReturns_of_not_mem hreturn]
    rintro c ⟨⟩
    decide
  split
  · rename_i hdateTime
    have hscans := Mode.scans_dateTime hdateTime hname
    rw [← htokens] at hscans
    obtain ⟨more, hmore, hunmarked⟩ := lex_initial_of_scans hscans
    refine ⟨more, hmore, hunmarked.trans ?_⟩
    have hall : String.ofList (word.toList ++ '.' :: name.toList) = word ++ "." ++ name := by
      rw [← String.toList_inj]
      simp
    rw [← hall]
    rfl
  · rename_i hother
    have hseals := Mode.not_seals_of_word hbefore hafter hkept (by rw [htext]) hquote hother
    obtain ⟨shed, hsheds⟩ := Mode.exists_sheds hseals
    obtain ⟨-, rfl⟩ := hafter.unique hsheds.ends
    have hdirective := hsheds.scans_name hname (mt String.toList_inj.1 hinclude)
    have hscans := hbefore.append hdirective
    rw [← List.cons_append, ← List.append_assoc, ← Mode.runs_dot_name hdot hname, ← htokens,
      ← List.append_assoc] at hscans
    obtain ⟨more, hmore, hunmarked⟩ := lex_initial_of_scans hscans
    refine ⟨more, hmore, hunmarked.trans ?_⟩
    have hend : (Scanner.initial.handOnAll (before ++ shed)).2 ++ [Item.symbol .endOfData] =
        [Item.symbol .newline, .symbol s] ++ [Item.symbol .endOfData] := by
      rw [← Scanner.handOnAll_concat_endOfData, List.append_assoc, hhanded]
      rfl
    have hword := List.append_cancel_right hend
    rw [Scanner.handOnAll_append, hword, Scanner.handOnAll_directive, Mode.symbol,
      String.ofList_toList]
    rfl

/-- A number with a fraction, which another dot does not belong to. -/
theorem lex_directive_behind_fraction :
    lex "-1.50" = .ok [.symbol (.lineMark 1), .symbol .newline, .symbol ⟨.float, "-1.50"⟩,
      .symbol .endOfData] ∧
    ∃ more, lex "-1.50.b_2" = .ok more ∧ unmarked more =
      [Item.symbol .newline, .symbol ⟨.float, "-1.50"⟩, .symbol ⟨.directive, "b_2"⟩,
        .symbol .endOfData] := by
  have hlex : lex "-1.50" = .ok [.symbol (.lineMark 1), .symbol .newline,
      .symbol ⟨.float, "-1.50"⟩, .symbol .endOfData] := by
    decide +kernel
  have hname : IsIdentifier "b_2".toList := ⟨List.all_eq_true.1 rfl, _, _, rfl, rfl⟩
  obtain ⟨more, hmore, hunmarked⟩ := lex_directive_behind_word hlex rfl (by decide) rfl (by decide)
    (by decide) hname (by decide)
  exact ⟨hlex, more, hmore, hunmarked⟩

/-- A date with a time is lexed as one, but a directive behind it is not. -/
theorem lex_dateTime_before_name :
    lex "2024-01-02T10:11:12" = .ok [.symbol (.lineMark 1), .symbol .newline,
      .symbol ⟨.timestamp, "2024-01-02T10:11:12"⟩, .symbol .endOfData] ∧
    lex "2024-01-02T10:11:12.p" = .ok [.symbol (.lineMark 1), .symbol .newline,
      .symbol ⟨.text, "2024-01-02T10:11:12.p"⟩, .symbol .endOfData] := by
  decide +kernel

end Docpress.Document
