import Docpress.Proofs.DirectiveNames
import Docpress.Proofs.Words
import Mathlib.Data.List.Chain

/-!
# The symbols of a document

Whatever a text is, the symbols that it is lexed into have the form of their kind: a number has
digits, a timestamp and a color can be read, a word is not empty.  No two paragraph breaks follow
each other, and a document that starts with text starts with a paragraph break.

* `WellFormed`: the form that symbols of each kind have.
* `Mode.Ready token mode`: what is known of the characters read so far when the token is offered.
  A number begins as an empty text, but only while a run of digits is offered.  Each step keeps
  this and hands on symbols that have their form (`Mode.forms_step`).
* `Mode.exists_formed_of_scans`: a text is read as such symbols, and the end of the data behind
  them.
* `Scanner.isChain_handOnAll`, `Scanner.head?_handOnAll`: what the scanner makes of them with its
  memory of the last symbol.  `lex_eq_formed` puts the two together.
-/

namespace Docpress

namespace Document

/-! ## Forms -/

/-- Digits, and at least one. -/
def IsDigits (text : List Char) : Prop := text ≠ [] ∧ ∀ c ∈ text, c.isDigit = true

/-- Digits, with or without a minus sign. -/
def IsNumeral (text : List Char) : Prop :=
  IsDigits text ∨ ∃ digits, text = '-' :: digits ∧ IsDigits digits

/-- Digits on both sides of a dot, with or without a minus sign. -/
def IsFraction (text : List Char) : Prop :=
  ∃ whole fraction, text = whole ++ '.' :: fraction ∧ IsNumeral whole ∧ IsDigits fraction

/-- The symbol has the form that symbols of its kind have in documents. -/
def WellFormed (symbol : Symbol) : Prop :=
  match symbol.kind with
  | .text => symbol.text ≠ ""
  | .directive => IsIdentifier symbol.text.toList
  | .punct => symbol.text ∈ [".", ",", ";", ":", "?", "!", "(", ")", "\""]
  | .number => IsDigits symbol.text.toList
  | .signed => ∃ digits, symbol.text.toList = '-' :: digits ∧ IsDigits digits
  | .float => IsFraction symbol.text.toList
  | .timestamp => (Timestamp.read? symbol.text).isSome = true
  | .color => (Color.read? symbol.text).isSome = true
  | .literal | .newline | .endOfData => True
  | _ => False

/-- The item is an inclusion, a directive or a symbol that has its form, but not the end of the
data. -/
def Formed : Item → Prop
  | .symbol s => s.kind = .directive ∨ s.kind ≠ .endOfData ∧ WellFormed s
  | .inclusion _ => True

theorem IsDigits.replicate {c : Char} {count : Nat} (hc : c.isDigit = true) (hcount : 0 < count) :
    IsDigits (List.replicate count c) := by
  refine ⟨by simp; omega, fun d hmem => ?_⟩
  rw [List.eq_of_mem_replicate hmem]
  exact hc

theorem IsDigits.append {first second : List Char} (hfirst : ∀ c ∈ first, c.isDigit = true)
    (hsecond : IsDigits second) : IsDigits (first ++ second) := by
  refine ⟨by simp [hsecond.1], ?_⟩
  rw [List.forall_mem_append]
  exact ⟨hfirst, hsecond.2⟩

theorem IsDigits.head?_ne {text : List Char} (hdigits : IsDigits text) : text.head? ≠ some '-' := by
  intro hhead
  have hminus := hdigits.2 '-' (List.mem_of_mem_head? hhead)
  revert hminus
  decide

theorem IsNumeral.append {text more : List Char} (htext : IsNumeral text)
    (hmore : IsDigits more) : IsNumeral (text ++ more) := by
  rcases htext with hdigits | ⟨digits, rfl, hdigits⟩
  · exact .inl (.append hdigits.2 hmore)
  · exact .inr ⟨digits ++ more, rfl, .append hdigits.2 hmore⟩

theorem IsFraction.append {text more : List Char} (htext : IsFraction text)
    (hmore : IsDigits more) : IsFraction (text ++ more) := by
  obtain ⟨whole, fraction, rfl, hwhole, hfraction⟩ := htext
  exact ⟨whole, fraction ++ more, by simp, hwhole, .append hfraction.2 hmore⟩

namespace Mode

/-! ## Modes -/

/-- What is known of the characters read so far when the token is offered. -/
def Ready (token : Token) : Mode → Prop
  | number text =>
    IsNumeral text ∨ isDigits token = true ∧ (text = [] ∨ text = ['-'])
  | numberDot text => IsNumeral text
  | float text => IsFraction text
  | _ => True

/-- The answer keeps what is known, and the symbols that it hands on have their form. -/
def Forms (token : Token) (answer : Scan Mode) : Prop :=
  answer.Keeps Ready token ∧ ∀ item ∈ answer.items, Formed item

section

variable {token : Token} {next : Mode}

/-- The answer hands on nothing. -/
theorem forms_accept (hnext : ∀ other, next.Ready other) : Forms token (accept next []) :=
  ⟨hnext, by simp⟩

theorem forms_decline (hnext : next.Ready token) : Forms token (decline next []) :=
  ⟨hnext, by simp⟩

/-- The answer hands on one symbol. -/
theorem forms_symbol {kind : SymbolKind} {text : List Char} (hnext : next.Ready token)
    (hitem : Formed (symbol kind text)) : Forms token (decline next [symbol kind text]) :=
  ⟨hnext, List.forall_mem_singleton.2 hitem⟩

end

/-! ### Parts of answers -/

theorem formed_text {text : List Char} (htext : text ≠ []) : Formed (symbol .text text) := by
  refine .inr ⟨by simp, ?_⟩
  show String.ofList text ≠ ""
  rw [Ne, String.ofList_eq_empty_iff]
  exact htext

theorem formed_flush (text : List Char) : ∀ item ∈ flush text, Formed item := by
  unfold flush
  split
  · simp
  · rename_i hempty
    exact List.forall_mem_singleton.2 (formed_text (by simpa using hempty))

theorem formed_dots (text : List Char) (count : Nat) :
    (∀ other, (dots text count).1.Ready other) ∧ ∀ item ∈ (dots text count).2, Formed item := by
  unfold dots
  dsimp only
  split
  · exact ⟨fun _ => trivial, formed_flush _⟩
  · exact ⟨fun _ => trivial, by simp⟩

theorem formed_punct {c : Char} (hc : c = '.' ∨ punctuation.contains c = true) :
    Formed (.symbol (.punct c)) := by
  refine .inr ⟨by simp [Symbol.punct], ?_⟩
  show String.singleton c ∈ _
  rcases hc with rfl | hc
  · decide
  · simp only [punctuation, List.contains_eq_mem, decide_eq_true_eq, List.mem_cons,
      List.not_mem_nil, or_false] at hc
    rcases hc with rfl | rfl | rfl | rfl | rfl | rfl | rfl | rfl <;> decide

theorem formed_numeral {text : List Char} (htext : IsNumeral text) :
    Formed (symbol (numberKind text) text) := by
  rcases htext with hdigits | ⟨digits, rfl, hdigits⟩
  · rw [numberKind, if_neg hdigits.head?_ne]
    refine .inr ⟨by simp, ?_⟩
    show IsDigits (String.ofList text).toList
    rwa [String.toList_ofList]
  · refine .inr ⟨by simp [numberKind], ?_⟩
    show ∃ rest, (String.ofList ('-' :: digits)).toList = '-' :: rest ∧ IsDigits rest
    rw [String.toList_ofList]
    exact ⟨digits, rfl, hdigits⟩

theorem isDigits_expand {token : Token} (htoken : token.Solid) (hdigits : isDigits token = true) :
    IsDigits token.expand := by
  cases token with
  | endOfText => cases hdigits
  | run c count => exact .replicate hdigits (htoken c count rfl)

/-! ### Steps -/

section

variable (text : List Char) (token : Token)

/-- Between words only the end of the text stands for the end of the data. -/
theorem forms_stepStart (hend : token ≠ .endOfText) : Forms token (stepStart token) := by
  cases token with
  | endOfText => exact absurd rfl hend
  | run c count =>
    unfold stepStart
    iterate 2 refine iteInduction (fun _ => forms_accept fun _ => trivial) fun _ => ?_
    refine iteInduction (fun _ => formed_dots [] count) fun _ => ?_
    -- comments, literals, colors, signs
    iterate 4 refine iteInduction (fun _ => forms_accept fun _ => trivial) fun _ => ?_
    refine iteInduction (fun hdigit => forms_decline (.inr ⟨hdigit, .inl rfl⟩)) fun _ => ?_
    refine iteInduction (fun hpunct => ⟨fun _ => trivial, fun item hmem => ?_⟩)
      fun _ => forms_decline trivial
    rw [List.eq_of_mem_replicate hmem]
    exact formed_punct (.inr hpunct)

theorem forms_stepBreaks (count : Nat) : Forms token (stepBreaks count token) := by
  refine iteInduction (fun _ => forms_accept fun _ => trivial) fun _ =>
    iteInduction (fun _ => forms_accept fun _ => trivial) fun _ => ⟨trivial, ?_⟩
  show ∀ item ∈ (if 1 < count then [Item.symbol .newline] else []), Formed item
  split
  · exact List.forall_mem_singleton.2 (.inr ⟨by simp [Symbol.newline], trivial⟩)
  · simp

theorem forms_stepComment : Forms token (stepComment token) :=
  iteInduction (fun _ => forms_decline trivial) fun _ => forms_accept fun _ => trivial

theorem forms_stepWord : Forms token (stepWord text token) := by
  unfold stepWord
  split
  · exact formed_dots text _
  · exact iteInduction (fun _ => ⟨trivial, formed_flush text⟩) fun _ =>
      forms_accept fun _ => trivial

theorem forms_stepDot : Forms token (stepDot token) := by
  have hpunct : Forms token (decline .start [.symbol (.punct '.')]) :=
    ⟨trivial, List.forall_mem_singleton.2 (formed_punct (.inl rfl))⟩
  cases token with
  | endOfText => exact hpunct
  | run c count =>
    refine iteInduction (fun _ => forms_accept fun _ => trivial) fun _ =>
      iteInduction (fun _ => ⟨fun _ => trivial, List.forall_mem_singleton.2 ?_⟩) fun _ => hpunct
    exact .inr ⟨by simp, by simp [WellFormed, arrow]⟩

theorem forms_stepDirective (name : List Char) : Forms token (stepDirective name token) :=
  iteInduction (fun _ => forms_accept fun _ => trivial) fun _ =>
    iteInduction (fun _ => forms_decline trivial) fun _ => forms_symbol trivial (.inl rfl)

theorem forms_stepInclusion : Forms token (stepInclusion token) :=
  iteInduction (fun _ => forms_accept fun _ => trivial) fun _ =>
    iteInduction (fun _ => forms_accept fun _ => trivial) fun _ =>
      ⟨trivial, List.forall_mem_singleton.2 (.inl rfl)⟩

theorem forms_stepPath : Forms token (stepPath text token) :=
  iteInduction (fun _ => ⟨fun _ => trivial, List.forall_mem_singleton.2 trivial⟩) fun _ =>
    iteInduction (fun _ => ⟨trivial, List.forall_mem_singleton.2 trivial⟩) fun _ =>
      forms_accept fun _ => trivial

theorem forms_stepSign : Forms token (stepSign token) :=
  iteInduction (fun hdigits => forms_decline (.inr ⟨hdigits, .inr rfl⟩)) fun _ =>
    forms_decline trivial

/-- A number that is left has digits, since it was not empty or took the digits offered first. -/
theorem forms_stepNumber (hready : Ready token (.number text)) (htoken : token.Solid) :
    Forms token (stepNumber text token) := by
  refine iteInduction (fun hdigits => forms_accept fun _ => .inl ?_) fun hdigits => ?_
  · have hmore := isDigits_expand htoken hdigits
    rcases hready with hnumeral | ⟨-, rfl | rfl⟩
    · exact hnumeral.append hmore
    · exact .inl hmore
    · exact .inr ⟨_, rfl, hmore⟩
  · have hnumeral : IsNumeral text := hready.resolve_right fun hpending => hdigits hpending.1
    exact iteInduction (fun _ => forms_accept fun _ => trivial) fun _ =>
      iteInduction (fun _ => forms_accept fun _ => hnumeral) fun _ =>
        iteInduction (fun _ => forms_decline trivial) fun _ =>
          forms_symbol trivial (formed_numeral hnumeral)

theorem forms_stepNumberDot (hnumeral : IsNumeral text) (htoken : token.Solid) :
    Forms token (stepNumberDot text token) :=
  iteInduction (fun hdigits => forms_accept fun _ =>
      ⟨text, token.expand, rfl, hnumeral, isDigits_expand htoken hdigits⟩) fun _ =>
    forms_symbol trivial (formed_numeral hnumeral)

theorem forms_stepFloat (hfraction : IsFraction text) (htoken : token.Solid) :
    Forms token (stepFloat text token) := by
  refine iteInduction (fun hdigits => forms_accept fun _ =>
      hfraction.append (isDigits_expand htoken hdigits)) fun _ =>
    iteInduction (fun _ => forms_decline trivial) fun _ =>
      forms_symbol trivial (.inr ⟨by simp, ?_⟩)
  show IsFraction (String.ofList text).toList
  rwa [String.toList_ofList]

theorem formed_timestamp {text : List Char} (hread : (Timestamp.readChars? text).isSome = true) :
    Formed (symbol .timestamp text) := by
  refine .inr ⟨by simp, ?_⟩
  show (Timestamp.readChars? (String.ofList text).toList).isSome = true
  rwa [String.toList_ofList]

theorem forms_leaveTimestamp (whole : Nat) : Forms token (leaveTimestamp text whole token) := by
  refine iteInduction (fun hwhole => forms_symbol trivial ?_) fun _ =>
    iteInduction (fun hstamp => ?_) fun _ => forms_decline trivial
  · exact formed_timestamp (Bool.and_eq_true_iff.1 hwhole).2
  · obtain ⟨hnext, hitems⟩ := formed_dots [] (text.drop whole).length
    exact ⟨hnext token, List.forall_mem_cons.2
      ⟨formed_timestamp (Bool.and_eq_true_iff.1 hstamp).2, hitems⟩⟩

theorem forms_stepTimestamp (whole : Nat) : Forms token (stepTimestamp text whole token) := by
  unfold stepTimestamp
  dsimp only
  split
  · exact forms_accept fun _ => trivial
  · exact forms_accept fun _ => trivial
  · exact forms_leaveTimestamp text _ whole

theorem forms_stepColor : Forms token (stepColor text token) := by
  refine iteInduction (fun _ => forms_accept fun _ => trivial) fun _ =>
    iteInduction (fun hcolor => forms_symbol trivial (.inr ⟨by simp, ?_⟩)) fun _ =>
      forms_decline trivial
  show (Color.readChars? (String.ofList text).toList).isSome = true
  rw [String.toList_ofList]
  exact (Bool.and_eq_true_iff.1 hcolor).2

/-- A literal is never left for a number, so that the answer suits every token. -/
theorem forms_stepLiteral (offered : Token) : Forms offered (stepLiteral text token) := by
  unfold stepLiteral
  split
  · exact forms_decline trivial
  · refine iteInduction (fun _ => forms_decline trivial) fun _ =>
      iteInduction (fun _ => ⟨fun other => ?_, List.forall_mem_singleton.2 ?_⟩) fun _ =>
        iteInduction (fun _ => forms_accept fun other => ?_) fun _ => forms_accept fun _ => trivial
    · show Ready other (if _ then _ else _)
      split <;> trivial
    · exact .inr ⟨by simp, trivial⟩
    · split <;> trivial

theorem forms_stepEscape : Forms token (stepEscape text token) := by
  have hbroken : Forms token (decline (.word []) [symbol .text ('\'' :: text ++ ['\\'])]) :=
    forms_symbol trivial (formed_text (by simp))
  unfold stepEscape
  dsimp only
  split
  · exact hbroken
  · split
    · exact hbroken
    · exact iteInduction (fun _ => forms_stepLiteral _ _ _) fun _ => forms_accept fun _ => trivial

end

/-- Each step keeps what is known of the characters read so far, and hands on symbols that have
their form. -/
theorem forms_step {mode : Mode} {token : Token} (hready : mode.Ready token)
    (htoken : token.Solid) (hend : ¬(mode = .start ∧ token = .endOfText)) :
    Forms token (mode.step token) := by
  cases mode with
  | start => exact forms_stepStart token fun heq => hend ⟨rfl, heq⟩
  | breaks count => exact forms_stepBreaks token count
  | comment => exact forms_stepComment token
  | word text => exact forms_stepWord text token
  | dot => exact forms_stepDot token
  | directive name => exact forms_stepDirective token name
  | inclusion => exact forms_stepInclusion token
  | path text => exact forms_stepPath text token
  | sign => exact forms_stepSign token
  | number text => exact forms_stepNumber text token hready htoken
  | numberDot text => exact forms_stepNumberDot text token hready htoken
  | float text => exact forms_stepFloat text token hready htoken
  | timestamp text whole => exact forms_stepTimestamp text token whole
  | color text => exact forms_stepColor text token
  | literal text => exact forms_stepLiteral text token token
  | escape text => exact forms_stepEscape text token

/-! ## Texts -/

/-- Only between words the end of the text is taken. -/
theorem eq_start_of_taken {mode : Mode} (htaken : (mode.step .endOfText).taken = true) :
    mode = .start := by
  cases mode with
  | start => rfl
  | breaks count => cases htaken
  | comment => cases htaken
  | word text => cases htaken
  | dot => cases htaken
  | directive name =>
    simp only [step, stepDirective, continuesDirective, Bool.false_eq_true, if_false] at htaken
    split at htaken <;> cases htaken
  | inclusion => cases htaken
  | path text => cases htaken
  | sign => cases htaken
  | number text => cases htaken
  | numberDot text => cases htaken
  | float text => cases htaken
  | timestamp text whole =>
    simp only [step, stepTimestamp, leaveTimestamp] at htaken
    split_ifs at htaken <;> cases htaken
  | color text =>
    simp only [step, stepColor, isHexDigits, Bool.false_eq_true, if_false] at htaken
    split at htaken <;> cases htaken
  | literal text => cases htaken
  | escape text => cases htaken

/-- The end of a text is read as what was read before it, and the end of the data.  It is taken
between words. -/
theorem exists_formed_of_endOfText {mode last : Mode} {items : List Item}
    (hscans : Scans step mode [.endOfText] last items) (hready : mode.Ready .endOfText) :
    last = .start ∧
      ∃ before, items = before ++ [Item.symbol .endOfData] ∧ ∀ item ∈ before, Formed item := by
  generalize htokens : [Token.endOfText] = tokens at hscans
  induction hscans with
  | nil _ => cases htokens
  | @taken mode next _ token rest items more hstep hrest _ =>
    cases htokens
    cases hrest
    obtain rfl : mode = .start := eq_start_of_taken (by rw [hstep])
    cases hstep
    exact ⟨rfl, [], rfl, by simp⟩
  | @declined mode next _ token rest items more hstep _ ih =>
    cases htokens
    have hmode : ¬(mode = .start ∧ Token.endOfText = .endOfText) := by
      rintro ⟨rfl, -⟩
      cases hstep
    obtain ⟨hnext, hitems⟩ := forms_step hready nofun hmode
    rw [hstep] at hnext hitems
    obtain ⟨hlast, before, rfl, hbefore⟩ := ih hnext rfl
    exact ⟨hlast, items ++ before, (List.append_assoc ..).symm,
      List.forall_mem_append.2 ⟨hitems, hbefore⟩⟩

/-- A text is read as symbols that have their form, and the end of the data behind them. -/
theorem exists_formed_of_scans {text : List Char} {last : Mode} {items : List Item}
    (hscans : Scans step .start (Token.runs text ++ [Token.endOfText]) last items) :
    last = .start ∧
      ∃ before, items = before ++ [Item.symbol .endOfData] ∧ ∀ item ∈ before, Formed item := by
  obtain ⟨between, first, second, hfirst, hsecond, rfl⟩ := hscans.split
  have hruns (token : Token) (hmem : token ∈ Token.runs text) :
      token.Solid ∧ token ≠ .endOfText := by
    obtain ⟨c, count, hcount, rfl⟩ := Token.exists_of_mem_runs hmem
    refine ⟨?_, nofun⟩
    rintro _ _ ⟨⟩
    exact hcount
  obtain ⟨hready, hformed⟩ := hfirst.keeps (Q := fun token => token.Solid ∧ token ≠ .endOfText)
    (fun mode token hready htoken =>
      forms_step hready htoken.1 fun hend => htoken.2 hend.2) hruns fun _ => trivial
  obtain ⟨hlast, before, rfl, hbefore⟩ := exists_formed_of_endOfText hsecond (hready _)
  exact ⟨hlast, first ++ before, (List.append_assoc ..).symm,
    List.forall_mem_append.2 ⟨hformed, hbefore⟩⟩

end Mode

/-! ## Paragraph breaks -/

/-- The symbols among the items. -/
def symbols (items : List Item) : List Symbol :=
  items.filterMap fun
    | .symbol symbol => some symbol
    | .inclusion _ => none

@[simp] theorem symbols_nil : symbols [] = [] := rfl

@[simp] theorem symbols_symbol_cons (symbol : Symbol) (items : List Item) :
    symbols (.symbol symbol :: items) = symbol :: symbols items := rfl

@[simp] theorem symbols_inclusion_cons (path : String) (items : List Item) :
    symbols (.inclusion path :: items) = symbols items := rfl

theorem mem_symbols {symbol : Symbol} {items : List Item} :
    symbol ∈ symbols items ↔ .symbol symbol ∈ items := by
  induction items with
  | nil => simp
  | cons item items ih => cases item <;> simp [ih]

/-- The kinds are not both those of paragraph breaks. -/
def Parts (first second : SymbolKind) : Prop := ¬(first = .newline ∧ second = .newline)

namespace Scanner

/-- The end of the data is handed on as it is. -/
theorem handOnAll_concat_endOfData (scanner : Scanner) (items : List Item) :
    (scanner.handOnAll (items ++ [Item.symbol .endOfData])).2 =
      (scanner.handOnAll items).2 ++ [Item.symbol .endOfData] := by
  rw [handOnAll_append]
  simp [handOnAll, handOn, startsParagraph, Symbol.endOfData]

/-- While the scanner is fresh, it has handed on nothing. -/
def Remembers (scanner : Scanner) : Prop := scanner.fresh = true → scanner.last = none

/-- No paragraph break is handed on behind another one, the one that the scanner remembers
included. -/
theorem isChain_handOnAll {scanner : Scanner} (hscanner : scanner.Remembers) (items : List Item) :
    (scanner.last.toList ++
      (symbols (scanner.handOnAll items).2).map Symbol.kind).IsChain Parts := by
  induction items generalizing scanner with
  | nil => cases scanner.last <;> simp [handOnAll]
  | cons item items ih =>
    cases item with
    | inclusion path => exact ih hscanner
    | symbol symbol =>
      simp only [handOnAll, handOn]
      split
      · exact ih hscanner
      · rename_i hkept
        have hnext : Remembers { scanner with fresh := false, last := some symbol.kind } := by
          intro hfresh
          cases hfresh
        have hrest := ih hnext
        by_cases hopening : scanner.fresh = true ∧ startsParagraph symbol.kind = true
        · -- only a fresh scanner opens a paragraph, and it remembers no break
          have hparts : Parts .newline symbol.kind := by
            rintro ⟨-, hkind⟩
            rw [hkind] at hopening
            cases hopening.2
          rw [if_pos hopening, hscanner hopening.1]
          exact List.isChain_cons_cons.2 ⟨hparts, hrest⟩
        · rw [if_neg hopening]
          cases hlast : scanner.last with
          | none => exact hrest
          | some kind =>
            have hparts : Parts kind symbol.kind := by
              rintro ⟨rfl, hkind⟩
              exact hkept ⟨hkind, hlast⟩
            exact List.isChain_cons_cons.2 ⟨hparts, hrest⟩

/-- A document that starts here starts with no symbol that a paragraph has to hold. -/
theorem head?_handOnAll {scanner : Scanner} (hscanner : scanner.Remembers)
    (hfresh : scanner.fresh = true) (items : List Item) :
    ∀ first ∈ (symbols (scanner.handOnAll items).2).head?, startsParagraph first.kind = false := by
  induction items with
  | nil => simp [handOnAll]
  | cons item items ih =>
    cases item with
    | inclusion path => exact ih
    | symbol symbol =>
      have hkept : ¬(symbol.kind = .newline ∧ scanner.last = some .newline) := by
        simp [hscanner hfresh]
      simp only [handOnAll, handOn, if_neg hkept, hfresh, true_and]
      split
      · simp [startsParagraph, Symbol.newline]
      · rename_i hkind
        simpa using hkind

end Scanner

/-! ## Documents -/

/-- The rank of a mode bounds how often a token is declined. -/
def Mode.patient : Patient Mode.step where
  rank := Mode.rank
  rank_lt mode token := Nat.lt_of_le_of_lt (Mode.rank_le mode token) (by decide)
  declined_lt {mode token} hdeclined := Mode.nears_step mode token hdeclined

theorem Formed.isLineMark {item : Item} (hformed : Formed item) : item.isLineMark = false := by
  cases item with
  | inclusion path => rfl
  | symbol symbol =>
    apply decide_eq_false
    intro hkind
    rcases hformed with hdirective | ⟨-, hform⟩
    · rw [hkind] at hdirective
      cases hdirective
    · rw [WellFormed, hkind] at hform
      exact hform

theorem isLineMark_handOnAll (scanner : Scanner) {items : List Item}
    (hitems : ∀ item ∈ items, Formed item) :
    ∀ item ∈ (scanner.handOnAll items).2, item.isLineMark = false := by
  intro item hmem
  rcases Scanner.mem_handOnAll hmem with rfl | hmem
  · rfl
  · exact (hitems item hmem).isLineMark

/-- A text is lexed into what the modes read it as, in the way the scanner hands it on. -/
theorem lex_eq_handOnAll {start : Scanner} (hstart : start.mode = .start) (text : String) :
    ∃ items raw, Docpress.lex Scanner.scan start text = .ok items ∧
      LineMarked items (start.handOnAll raw).2 ∧
      Scans Mode.step .start (Token.runs (dropReturns text.toList) ++ [Token.endOfText])
        .start raw := by
  obtain ⟨_, last, raw, -, hraw, -⟩ := lex_eq_scans Mode.patient .start text
  obtain ⟨items, _, handed, hlex, hhanded, hitems⟩ := lex_eq_lineMarked Scanner.patient start text
  obtain ⟨-, rfl⟩ := hhanded.unique (Scanner.scans_of_mode hraw start hstart)
  obtain ⟨rfl, -⟩ := Mode.exists_formed_of_scans hraw
  exact ⟨items, raw, hlex, hitems, hraw⟩

/-- A text is lexed into symbols that have their form and into the end of the data behind them, as
the scanner hands them on. -/
theorem lex_eq_formed {start : Scanner} (hstart : start.mode = .start) (text : String) :
    ∃ items before, Docpress.lex Scanner.scan start text = .ok items ∧
      LineMarked items ((start.handOnAll before).2 ++ [Item.symbol .endOfData]) ∧
      ∀ item ∈ before, Formed item := by
  obtain ⟨items, raw, hlex, hitems, hraw⟩ := lex_eq_handOnAll hstart text
  obtain ⟨-, before, rfl, hformed⟩ := Mode.exists_formed_of_scans hraw
  rw [Scanner.handOnAll_concat_endOfData] at hitems
  exact ⟨items, before, hlex, hitems, hformed⟩

/-- The modes read no text as line marks. -/
theorem unmarked_handOnAll {text : List Char} {last : Mode} {raw : List Item}
    (hraw : Scans Mode.step .start (Token.runs text ++ [Token.endOfText]) last raw)
    (scanner : Scanner) : unmarked (scanner.handOnAll raw).2 = (scanner.handOnAll raw).2 := by
  obtain ⟨-, before, rfl, hformed⟩ := Mode.exists_formed_of_scans hraw
  rw [Scanner.handOnAll_concat_endOfData, unmarked_append,
    unmarked_eq_self (isLineMark_handOnAll scanner hformed),
    unmarked_eq_self (List.forall_mem_singleton.2 rfl)]

/-- What is handed on has its form, directives left aside. -/
theorem wellFormed_of_mem_handOnAll {scanner : Scanner} {before : List Item}
    (hformed : ∀ item ∈ before, Formed item) {symbol : Symbol}
    (hmem : .symbol symbol ∈ (scanner.handOnAll (before ++ [Item.symbol .endOfData])).2)
    (hkind : symbol.kind ≠ .directive) : WellFormed symbol := by
  rcases Scanner.mem_handOnAll hmem with hbreak | hmem
  · cases hbreak
    trivial
  · rcases List.mem_append.1 hmem with hbefore | hend
    · exact ((hformed _ hbefore).resolve_left hkind).2
    · cases List.mem_singleton.1 hend
      trivial

/-- A symbol of a document, or of one that continues it, has its form. -/
theorem wellFormed_of_lex {start : Scanner} (hstart : start.mode = .start) {text : String}
    {items : List Item} (hlex : Docpress.lex Scanner.scan start text = .ok items)
    {symbol : Symbol} (hmem : .symbol symbol ∈ items) (hdirective : symbol.kind ≠ .directive)
    (hmark : symbol.kind ≠ .lineMark) : WellFormed symbol := by
  obtain ⟨_, before, hlex', hmarked, hformed⟩ := lex_eq_formed hstart text
  cases hlex.symm.trans hlex'
  have hunmarked : .symbol symbol ∈ unmarked items :=
    List.mem_filter.2 ⟨hmem, by simpa [Item.isLineMark] using hmark⟩
  rw [hmarked.unmarked_eq, ← Scanner.handOnAll_concat_endOfData] at hunmarked
  exact wellFormed_of_mem_handOnAll hformed (List.mem_filter.1 hunmarked).1 hdirective

/-- Every text is lexed into symbols that have the form of their kinds.  No two paragraph breaks
follow each other, and the first symbol is none that a paragraph has to hold. -/
theorem wellFormed_symbols_lex (text : String) :
    ∃ items, lex text = .ok items ∧
      (symbols (unmarked items)).IsChain
        (fun first second => ¬(first.kind = .newline ∧ second.kind = .newline)) ∧
      (∀ first ∈ (symbols (unmarked items)).head?, first.kind ∉ [SymbolKind.text, .literal, .punct,
        .number, .signed, .float, .timestamp, .color]) ∧
      ∀ symbol ∈ symbols (unmarked items), WellFormed symbol := by
  have hmode : Scanner.initial.mode = .start := rfl
  have hremembers : Scanner.initial.Remembers := fun _ => rfl
  obtain ⟨items, before, hlex, hmarked, hformed⟩ := lex_eq_formed hmode text
  have hitems : unmarked items =
      (Scanner.initial.handOnAll (before ++ [.symbol .endOfData])).2 := by
    rw [hmarked.unmarked_eq, unmarked_append,
      unmarked_eq_self (isLineMark_handOnAll .initial hformed),
      unmarked_eq_self (List.forall_mem_singleton.2 rfl), Scanner.handOnAll_concat_endOfData]
  refine ⟨items, hlex, ?_, fun first hfirst hkind => ?_, fun symbol hmem => ?_⟩
  · have hchain := Scanner.isChain_handOnAll hremembers (before ++ [.symbol .endOfData])
    rw [hitems]
    exact (List.isChain_map _).1 hchain
  · rw [hitems] at hfirst
    have hstarts := Scanner.head?_handOnAll hremembers rfl _ first hfirst
    generalize first.kind = kind at hkind hstarts
    cases kind <;> simp [startsParagraph] at hkind hstarts
  · rw [mem_symbols] at hmem
    by_cases hkind : symbol.kind = .directive
    · have hnamed : Scanner.initial.mode.Named := trivial
      have hname := isIdentifier_of_lex hnamed hlex (List.mem_filter.1 hmem).1 hkind
      rw [WellFormed, hkind]
      exact hname
    · rw [hitems] at hmem
      exact wellFormed_of_mem_handOnAll hformed hmem hkind

end Document
end Docpress
