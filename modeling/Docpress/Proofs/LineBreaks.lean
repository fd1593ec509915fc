import Docpress.Proofs.AssemblyLexemes
import Docpress.Proofs.Patience

/-!
# Scanning across line breaks

Whatever the scanner of assembly text is in the middle of, the end of a line finishes it and
leads back between words (`Mode.exists_ends`).  A line break and the end of the text do so in the
same way.  Therefore a text is scanned line by line: what is handed on for two texts with a line
break between them is made up of what is handed on for each of them (`scans_lines`).
-/

namespace Docpress

/-- Whether the item is the end of the data. -/
def Item.isEnd : Item → Bool
  | .symbol s => s.kind = .endOfData
  | .inclusion _ => false

/-- Line marks do not end the data. -/
theorem isEnd_of_unmarked {items raw : List Item} (hitems : unmarked items = unmarked raw)
    (hraw : ∀ item ∈ raw, item.isEnd = false) : ∀ item ∈ items, item.isEnd = false := by
  intro item hmem
  cases hmark : item.isLineMark with
  | true =>
    cases item with
    | inclusion path => rfl
    | symbol symbol =>
      have hkind : symbol.kind = .lineMark := of_decide_eq_true hmark
      rw [Item.isEnd, hkind]
      rfl
  | false =>
    have hmem' : item ∈ unmarked raw := by
      rw [← hitems]
      exact List.mem_filter.2 ⟨hmem, by rw [hmark]; rfl⟩
    exact hraw item (List.mem_filter.1 hmem').1

namespace Assembly

open Mode

/-! ## Line ends -/

/-- The token ends a line: line breaks, or the end of the text. -/
inductive EndsLine : Token → Symbol → Prop where
  | breaks {count : Nat} (hcount : 0 < count) : EndsLine (.run '\n' count) .newline
  | endOfText : EndsLine .endOfText .endOfData

/-- What the scanner hands on from the mode at the end of a line, before the symbol for the line
end itself. -/
def Ends (mode : Mode) (items : List Item) : Prop :=
  ∀ token symbol, EndsLine token symbol →
    Scans step mode [token] .start (items ++ [.symbol symbol])

theorem ends_start : Ends .start [] := by
  intro token symbol hends
  cases hends with
  | breaks hcount => exact .of_taken rfl
  | endOfText => exact .of_taken rfl

/-- A mode that declines a line end leaves the rest to the next one. -/
theorem Ends.of_declined {mode next : Mode} {items more : List Item}
    (hdeclined : ∀ token symbol, EndsLine token symbol → step mode token = decline next items)
    (hnext : Ends next more) : Ends mode (items ++ more) := by
  intro token symbol hends
  rw [List.append_assoc]
  exact .declined (hdeclined token symbol hends) (hnext token symbol hends)

theorem Ends.of_start {mode : Mode} {items : List Item}
    (hdeclined : ∀ token symbol, EndsLine token symbol → step mode token = decline .start items) :
    Ends mode items := by
  rw [← List.append_nil items]
  exact .of_declined hdeclined ends_start

/-! ### What a line end is not -/

variable {token : Token} {symbol : Symbol}

theorem EndsLine.continuesWord (hends : EndsLine token symbol) :
    Mode.continuesWord token = false := by
  cases hends with
  | breaks hcount =>
    show isWordChar '\n' = false
    decide
  | endOfText => rfl

theorem EndsLine.continuesDirective (hends : EndsLine token symbol) :
    Mode.continuesDirective token = false := by
  cases hends with
  | breaks hcount =>
    show ('\n'.isAlphanum || '\n' == '_') = false
    decide
  | endOfText => rfl

theorem EndsLine.isHexDigits (hends : EndsLine token symbol) : Mode.isHexDigits token = false := by
  cases hends with
  | breaks hcount =>
    show Text.isHexDigit '\n' = false
    decide
  | endOfText => rfl

theorem EndsLine.isDelimiter (hends : EndsLine token symbol) :
    Assembly.isDelimiter token = true := by
  cases hends with
  | breaks hcount =>
    show (Text.isBlank '\n' || [',', ';', ':', '(', ')'].contains '\n') = true
    decide
  | endOfText => rfl

theorem EndsLine.isRunOf_colon (hends : EndsLine token symbol) : token.isRunOf ':' = false := by
  cases hends with
  | breaks hcount =>
    show ('\n' == ':') = false
    decide
  | endOfText => rfl

/-- No timestamp goes on with a line break. -/
theorem EndsLine.shape_hopeless (hends : EndsLine token symbol) (text : List Char) :
    ¬ (token ≠ .endOfText ∧ Timestamp.shape (text ++ token.expand) ≠ .hopeless) := by
  rintro ⟨hne, hshape⟩
  cases hends with
  | endOfText => exact hne rfl
  | @breaks count hcount =>
    obtain ⟨count, rfl⟩ : ∃ rest, count = rest + 1 := ⟨count - 1, by omega⟩
    have hlonger : Timestamp.shape (text ++ ['\n'] ++ List.replicate count '\n') ≠ .hopeless := by
      rwa [List.append_assoc]
    exact Timestamp.shape_of_append hlonger (Timestamp.shape_append_lineFeed text)

/-! ### Modes -/

theorem ends_comment : Ends .comment [] := by
  refine .of_start fun token symbol hends => ?_
  simp only [step, stepComment]
  cases hends with
  | breaks hcount => exact if_pos (Or.inr rfl)
  | endOfText => exact if_pos (Or.inl rfl)

theorem ends_word {text : List Char} (htext : text ≠ []) : Ends (.word text) [wordSymbol text] := by
  refine .of_start fun token symbol hends => ?_
  simp [step, stepWord, hends.continuesWord, htext, hends.isRunOf_colon]

theorem exists_ends_word (text : List Char) : ∃ items, Ends (.word text) items := by
  by_cases htext : text = []
  · refine ⟨[], .of_start fun token symbol hends => ?_⟩
    simp [step, stepWord, hends.continuesWord, htext]
  · exact ⟨[wordSymbol text], ends_word htext⟩

theorem exists_ends_directive (name : List Char) : ∃ items, Ends (.directive name) items := by
  by_cases hempty : name.isEmpty = true
  · refine ⟨[.symbol (.punct '.')], .of_start fun token symbol hends => ?_⟩
    simp [step, stepDirective, hends.continuesDirective, hempty]
  · refine ⟨[Mode.symbol .directive name], .of_start fun token symbol hends => ?_⟩
    simp [step, stepDirective, hends.continuesDirective, hempty]

/-- A mode that goes over to words at the end of a line. -/
theorem exists_ends_of_word {mode : Mode} (text : List Char) (items : List Item)
    (hdeclined : ∀ token symbol, EndsLine token symbol →
      step mode token = decline (.word text) items) : ∃ items, Ends mode items := by
  obtain ⟨more, hword⟩ := exists_ends_word text
  exact ⟨items ++ more, .of_declined hdeclined hword⟩

theorem EndsLine.leaveNumber (hends : EndsLine token symbol) (text suffix : List Char) :
    Mode.leaveNumber text suffix token = decline .start [numberSymbol text suffix] :=
  if_pos hends.isDelimiter

/-- A line break is none of the characters that continue a number. -/
theorem stepDigits_lineFeed (part : NumberPart) (text : List Char) (count : Nat) :
    stepDigits part text '\n' count = leaveNumber text [] (.run '\n' count) := by
  have hdigit : '\n'.isDigit = false := by decide
  simp [stepDigits, hdigit]

/-- An exponent without digits goes on as a word. -/
theorem step_exponent_lineEnd {part : NumberPart}
    (hpart : part = .exponentMark ∨ part = .exponentSign) (hends : EndsLine token symbol)
    (text : List Char) : step (.number part text) token = decline (.word text) [] := by
  have hdigit : '\n'.isDigit = false := by decide
  cases hends with
  | breaks hcount => rcases hpart with rfl | rfl <;> simp [step, stepNumber, hdigit]
  | endOfText => rcases hpart with rfl | rfl <;> rfl

theorem exists_ends_number (part : NumberPart) (text : List Char) :
    ∃ items, Ends (.number part text) items := by
  have hdigit : '\n'.isDigit = false := by decide
  have hletter : '\n'.isAlphanum = false := by decide
  cases part with
  | sign =>
    refine ⟨[Mode.symbol .punct text], .of_start fun token symbol hends => ?_⟩
    cases hends with
    | breaks hcount => simp [step, stepNumber, hdigit]
    | endOfText => rfl
  | exponentMark | exponentSign =>
    exact exists_ends_of_word text [] fun token symbol hends =>
      step_exponent_lineEnd (by simp) hends text
  | suffix suffix =>
    refine ⟨[numberSymbol text suffix], .of_start fun token symbol hends => ?_⟩
    rw [← hends.leaveNumber]
    cases hends with
    | breaks hcount => simp [step, stepNumber, hletter]
    | endOfText => rfl
  | whole | fraction | exponent =>
    refine ⟨[numberSymbol text []], .of_start fun token symbol hends => ?_⟩
    rw [← hends.leaveNumber]
    cases hends with
    | breaks hcount => exact stepDigits_lineFeed _ text _
    | endOfText => rfl

/-- What is no timestamp yet goes on as a word. -/
theorem step_timestamp_lineEnd (hends : EndsLine token symbol) {text : List Char}
    (hread : (Timestamp.readChars? text).isSome = false) :
    step (.timestamp text) token = decline (.word ('@' :: text)) [] := by
  simp only [step, stepTimestamp]
  rw [if_neg (hends.shape_hopeless text), hread, if_neg (by simp)]

theorem exists_ends_timestamp (text : List Char) : ∃ items, Ends (.timestamp text) items := by
  cases hread : (Timestamp.readChars? text).isSome with
  | true =>
    refine ⟨[Mode.symbol .timestamp text], .of_start fun token symbol hends => ?_⟩
    simp only [step, stepTimestamp]
    rw [if_neg (hends.shape_hopeless text), hends.isDelimiter, hread]
    rfl
  | false =>
    exact exists_ends_of_word ('@' :: text) [] fun token symbol hends =>
      step_timestamp_lineEnd hends hread

/-- What is no color goes on as a word. -/
theorem step_color_lineEnd (hends : EndsLine token symbol) {text : List Char}
    (hread : (Color.readChars? text).isSome = false) :
    step (.color text) token = decline (.word text) [] := by
  simp [step, stepColor, hends.isHexDigits, hread]

theorem exists_ends_color (text : List Char) : ∃ items, Ends (.color text) items := by
  cases hread : (Color.readChars? text).isSome with
  | true =>
    refine ⟨[Mode.symbol .color text], .of_start fun token symbol hends => ?_⟩
    simp [step, stepColor, hends.isHexDigits, hends.isDelimiter, hread]
  | false =>
    exact exists_ends_of_word text [] fun token symbol hends => step_color_lineEnd hends hread

theorem exists_ends_string (tagged : Bool) (text : List Char) :
    ∃ items, Ends (.string tagged text) items := by
  refine ⟨[Mode.symbol .text (quoteMark tagged :: text)], .of_start fun token symbol hends => ?_⟩
  cases hends with
  | breaks hcount => rfl
  | endOfText => rfl

theorem exists_ends_escape (tagged : Bool) (text : List Char) :
    ∃ items, Ends (.escape tagged text) items := by
  refine exists_ends_of_word [] [Mode.symbol .text (quoteMark tagged :: text ++ ['\\'])]
    fun token symbol hends => ?_
  cases hends with
  | breaks hcount => rfl
  | endOfText => rfl

/-- From every mode the end of a line leads back between words. -/
theorem Mode.exists_ends (mode : Mode) : ∃ items, Ends mode items := by
  cases mode with
  | start => exact ⟨[], ends_start⟩
  | comment => exact ⟨[], ends_comment⟩
  | word text => exact exists_ends_word text
  | directive name => exact exists_ends_directive name
  | number part text => exact exists_ends_number part text
  | timestamp text => exact exists_ends_timestamp text
  | color text => exact exists_ends_color text
  | string tagged text => exact exists_ends_string tagged text
  | escape tagged text => exact exists_ends_escape tagged text

/-! ## The end of the data -/

/-- The end of the data is not among the items. -/
def NoEnd (items : List Item) : Prop := ∀ item ∈ items, item.isEnd = false

@[simp] theorem noEnd_nil : NoEnd [] := by simp [NoEnd]

@[simp] theorem noEnd_cons (item : Item) (items : List Item) :
    NoEnd (item :: items) ↔ item.isEnd = false ∧ NoEnd items :=
  List.forall_mem_cons

@[simp] theorem noEnd_append (first second : List Item) :
    NoEnd (first ++ second) ↔ NoEnd first ∧ NoEnd second :=
  List.forall_mem_append

/-! ### Plain items -/

/-- The items are symbols, none of them a label, a mark or the end of the data. -/
def Plain (items : List Item) : Prop :=
  ∀ item ∈ items, ∃ symbol, item = .symbol symbol ∧ symbol.kind ≠ .label ∧
    symbol.kind ≠ .endOfData ∧ symbol.kind ≠ .fileMark ∧ symbol.kind ≠ .lineMark

theorem Plain.noEnd {items : List Item} (hplain : Plain items) : NoEnd items := by
  intro item hmem
  obtain ⟨symbol, rfl, -, hend, -⟩ := hplain item hmem
  exact decide_eq_false hend

@[simp] theorem plain_nil : Plain [] := by simp [Plain]

@[simp] theorem plain_singleton (symbol : Symbol) :
    Plain [.symbol symbol] ↔ symbol.kind ≠ .label ∧ symbol.kind ≠ .endOfData ∧
      symbol.kind ≠ .fileMark ∧ symbol.kind ≠ .lineMark := by
  simp [Plain]

@[simp] theorem plain_append (first second : List Item) :
    Plain (first ++ second) ↔ Plain first ∧ Plain second :=
  List.forall_mem_append

theorem plain_replicate {item : Item} (hitem : Plain [item]) (count : Nat) :
    Plain (List.replicate count item) := by
  intro other hmem
  rw [List.eq_of_mem_replicate hmem]
  exact hitem item List.mem_cons_self

@[simp] theorem plain_symbol (kind : SymbolKind) (text : List Char) :
    Plain [Mode.symbol kind text] ↔ kind ≠ .label ∧ kind ≠ .endOfData ∧ kind ≠ .fileMark ∧
      kind ≠ .lineMark :=
  plain_singleton _

@[simp] theorem plain_wordSymbol (text : List Char) : Plain [wordSymbol text] := by
  simp only [wordSymbol]
  split
  · simp
  · split <;> simp

@[simp] theorem plain_numberSymbol (text suffix : List Char) :
    Plain [numberSymbol text suffix] := by
  simp only [numberSymbol]
  generalize hkind : (if suffix.isEmpty = true then _ else _ : Option SymbolKind) = kind?
  have hplain : kind? ≠ some .label ∧ kind? ≠ some .endOfData ∧ kind? ≠ some .fileMark ∧
      kind? ≠ some .lineMark := by
    rw [← hkind]
    split_ifs <;> simp
  split
  · simp
  · simpa using hplain
  · simpa using hplain

@[simp] theorem plain_stringSymbols (tagged : Bool) (text : List Char) :
    Plain (stringSymbols tagged text) := by
  unfold stringSymbols
  split
  · split
    · exact (plain_append [_] [_]).2 (by simp)
    · simp
  · simp

/-! ### Answers -/

theorem plain_ite {condition : Prop} [Decidable condition] {first second : Scan Mode}
    (hfirst : Plain first.items) (hsecond : Plain second.items) :
    Plain (if condition then first else second).items := by
  split
  · exact hfirst
  · exact hsecond

variable (c : Char) (count : Nat)

theorem plain_stepStart : Plain (stepStart (.run c count)).items := by
  unfold stepStart
  refine plain_ite (by simp [accept, Symbol.newline]) ?_
  -- blanks, comments, directives, timestamps, colors, signs
  iterate 6 refine plain_ite plain_nil ?_
  refine plain_ite (plain_replicate (by simp) _) ?_
  -- literals, numbers, words
  iterate 3 refine plain_ite plain_nil ?_
  exact plain_replicate (by simp [Symbol.punct]) count

theorem plain_leaveNumber (text suffix : List Char) (token : Token) :
    Plain (leaveNumber text suffix token).items :=
  plain_ite (plain_numberSymbol text suffix) plain_nil

theorem plain_stepDigits (part : NumberPart) (text : List Char) :
    Plain (stepDigits part text c count).items := by
  unfold stepDigits
  iterate 4 refine plain_ite plain_nil ?_
  exact plain_leaveNumber text [] _

theorem plain_stepNumber (part : NumberPart) (text : List Char) :
    Plain (stepNumber part text (.run c count)).items := by
  cases part with
  | whole | fraction | exponent => exact plain_stepDigits c count _ text
  | sign => exact plain_ite plain_nil (by simp [decline])
  | exponentMark => exact plain_ite plain_nil (plain_ite plain_nil plain_nil)
  | exponentSign => exact plain_ite plain_nil plain_nil
  | suffix suffix => exact plain_ite plain_nil (plain_leaveNumber text suffix _)

theorem plain_stepString (tagged : Bool) (text : List Char) :
    Plain (stepString tagged text (.run c count)).items := by
  simp only [stepString]
  refine plain_ite (by simp [decline]) (plain_ite (plain_ite ?_ ?_) (plain_ite ?_ ?_))
  · exact (plain_append _ _).2 ⟨plain_stringSymbols tagged text, plain_stepStart c _⟩
  · exact plain_stringSymbols tagged text
  · exact plain_nil
  · exact plain_nil

theorem plain_stepEscape (tagged : Bool) (text : List Char) :
    Plain (stepEscape tagged text (.run c count)).items := by
  simp only [stepEscape]
  split
  · simp [decline]
  · exact plain_ite (plain_stepString c _ tagged _) plain_nil

/-- Runs of characters stand for labels only behind a word. -/
theorem plain_step {mode : Mode} (hmode : ∀ text, mode ≠ .word text) :
    Plain (step mode (.run c count)).items := by
  cases mode with
  | start => exact plain_stepStart c count
  | comment => exact plain_ite plain_nil plain_nil
  | word text => exact absurd rfl (hmode text)
  | directive name =>
    exact plain_ite plain_nil (plain_ite (by simp [decline, Symbol.punct]) (by simp [decline]))
  | number part text => exact plain_stepNumber c count part text
  | timestamp text => exact plain_ite plain_nil (plain_ite (by simp [decline]) plain_nil)
  | color text => exact plain_ite plain_nil (plain_ite (by simp [decline]) plain_nil)
  | string tagged text => exact plain_stepString c count tagged text
  | escape tagged text => exact plain_stepEscape c count tagged text

/-- A label is handed on behind a word, at a colon. -/
theorem plain_or_label_stepWord (text : List Char) :
    Plain (stepWord text (.run c count)).items ∨
      c = ':' ∧ stepWord text (.run c count) = accept .start [Mode.symbol .label text] := by
  unfold stepWord
  split
  · exact .inl plain_nil
  · split
    · exact .inl plain_nil
    · split
      · rename_i hcolon
        exact .inr ⟨by simpa [Token.isRunOf] using hcolon, rfl⟩
      · exact .inl (plain_wordSymbol text)

/-- Runs of characters never stand for the end of the data. -/
theorem noEnd_step (mode : Mode) : NoEnd (step mode (.run c count)).items := by
  by_cases hword : ∃ text, mode = .word text
  · obtain ⟨text, rfl⟩ := hword
    rcases plain_or_label_stepWord c count text with hplain | ⟨-, hlabel⟩
    · exact hplain.noEnd
    · rw [step, hlabel]
      exact (noEnd_cons _ _).2 ⟨rfl, noEnd_nil⟩
  · exact (plain_step c count fun text hmode => hword ⟨text, hmode⟩).noEnd

/-! ## Texts -/

/-- A text is scanned without the end of the data, before its own end. -/
theorem noEnd_of_scans {text : List Char} {mode last : Mode} {items : List Item}
    (hscans : Scans step mode (Token.runs text) last items) : NoEnd items := by
  refine hscans.forall_items (fun mode _ (_ : True) htoken => ⟨trivial, ?_⟩) trivial
    fun _ hmem => Token.exists_of_mem_runs hmem
  obtain ⟨c, count, -, rfl⟩ := htoken
  exact noEnd_step c count mode

/-- The symbol for the line breaks of a run, if there are any. -/
def breakItems (count : Nat) : List Item :=
  if count = 0 then [] else [.symbol .newline]

/-- Line breaks at the end of a text stay apart from the end of the text. -/
theorem scans_trailing {text : List Char} (hlast : text.getLast? ≠ some '\n') {mode : Mode}
    {before items : List Item} (htext : Scans step .start (Token.runs text) mode before)
    (hends : Ends mode items) (count : Nat) :
    Scans step .start (Token.runs (text ++ List.replicate count '\n') ++ [Token.endOfText]) .start
      (before ++ items ++ breakItems count ++ [Item.symbol .endOfData]) := by
  by_cases hcount : count = 0
  · subst hcount
    have hend := htext.append (hends _ _ .endOfText)
    simpa [breakItems] using hend
  · have hpos := Nat.pos_of_ne_zero hcount
    have hnone : ([] : List Char).head? ≠ some '\n' := nofun
    have hruns := Token.runs_around hlast hnone hpos
    rw [List.append_nil] at hruns
    rw [hruns, breakItems, if_neg hcount]
    have hbreak := (htext.append (hends _ _ (.breaks hpos))).append (ends_start _ _ .endOfText)
    simpa [Token.runs] using hbreak

/-- Line breaks at the start of a text are one symbol. -/
theorem scans_leading {text : List Char} (hhead : text.head? ≠ some '\n') {last : Mode}
    {after : List Item}
    (htext : Scans step .start (Token.runs text ++ [Token.endOfText]) last after) (count : Nat) :
    Scans step .start (Token.runs (List.replicate count '\n' ++ text) ++ [Token.endOfText]) last
      (breakItems count ++ after) := by
  by_cases hcount : count = 0
  · subst hcount
    exact htext
  · have hpos := Nat.pos_of_ne_zero hcount
    have hnone : ([] : List Char).getLast? ≠ some '\n' := nofun
    have hruns := Token.runs_around hnone hhead hpos
    rw [List.nil_append] at hruns
    rw [hruns, breakItems, if_neg hcount]
    exact (ends_start _ _ (.breaks hpos)).append htext

/-- What is handed on for two texts with a line break between them is what is handed on for the
first one, up to its end, and for the second one.  Line breaks that meet are one symbol. -/
theorem scans_lines (first second : List Char) :
    ∃ before after trailing leading last, NoEnd before ∧
      Scans step .start (Token.runs first ++ [Token.endOfText]) .start
        (before ++ breakItems trailing ++ [Item.symbol .endOfData]) ∧
      Scans step .start (Token.runs second ++ [Token.endOfText]) last
        (breakItems leading ++ after) ∧
      Scans step .start (Token.runs (first ++ '\n' :: second) ++ [Token.endOfText]) last
        (before ++ [Item.symbol .newline] ++ after) := by
  obtain ⟨trailing, first, rfl, hlast⟩ := Token.exists_trailing_run '\n' first
  obtain ⟨leading, second, rfl, hhead⟩ := Token.exists_leading_run '\n' second
  obtain ⟨_, mode, before, _, hfirst, _⟩ :=
    Lexer.takeAll_eq_scans Mode.patient { scanner := .start } (Token.runs first)
  obtain ⟨_, last, after, _, hsecond, _⟩ :=
    Lexer.takeAll_eq_scans Mode.patient { scanner := .start }
      (Token.runs second ++ [Token.endOfText])
  obtain ⟨items, hends⟩ := mode.exists_ends
  refine ⟨before ++ items, after, trailing, leading, last, ?_, scans_trailing hlast hfirst hends _,
    scans_leading hhead hsecond leading, ?_⟩
  · have hline := hfirst.append (hends _ _ (.breaks Nat.one_pos))
    rw [← Token.runs_singleton, ← Token.runs_append hlast, ← List.append_assoc] at hline
    exact ((noEnd_append _ _).1 (noEnd_of_scans hline)).1
  · have hbreaks : 0 < trailing + (leading + 1) := by omega
    have htext : first ++ List.replicate trailing '\n' ++
        '\n' :: (List.replicate leading '\n' ++ second) =
          first ++ List.replicate (trailing + (leading + 1)) '\n' ++ second := by
      rw [List.replicate_add, List.replicate_succ]
      simp
    rw [htext, Token.runs_around hlast hhead hbreaks]
    have hwhole := (hfirst.append (hends _ _ (.breaks hbreaks))).append hsecond
    simpa using hwhole

/-- What is handed on for the text behind a line break is what is handed on for it alone. -/
theorem scans_behind (front : List Char) {text : List Char} {last : Mode} {items : List Item}
    (htext : Scans step .start (Token.runs text ++ [Token.endOfText]) last items)
    (hitems : items.head? ≠ some (.symbol .newline)) :
    ∃ before, NoEnd before ∧
      Scans step .start (Token.runs (front ++ '\n' :: text) ++ [Token.endOfText]) last
        (before ++ [Item.symbol .newline] ++ items) := by
  obtain ⟨before, after, _, leading, last', hbefore, _, hafter, hwhole⟩ := scans_lines front text
  obtain ⟨rfl, rfl⟩ := htext.unique hafter
  by_cases hleading : leading = 0
  · refine ⟨before, hbefore, ?_⟩
    simpa [breakItems, hleading] using hwhole
  · simp [breakItems, hleading] at hitems

end Assembly
end Docpress
