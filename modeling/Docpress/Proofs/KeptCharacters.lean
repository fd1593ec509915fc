import Docpress.Proofs.AssemblyStrings
import Docpress.Proofs.Placement
import Docpress.Proofs.SymbolForms

/-!
# No character is lost

Numbers, timestamps and colors are read ahead of knowing what they are, and are given up for plain
words at the first character that does not fit.  Whatever is given up where, the symbols of a text
have the characters of the text, in order and once each.  Left out are blanks and dots, which
separate words and open directives.  All of this is about texts in which nothing else is meant to
disappear (`Plain`).

* `Mode.held`: the characters that a mode has read and not yet handed on.
* `Mode.Behind before mode`: what is known of the text before a mode.  A directive, for instance,
  stands behind a dot.
* `Mode.saves_step`: a step hands on what it does not hold, so that nothing is lost.
  `Mode.saves_of_scans` says the same of a text.
-/

namespace Docpress.Document

/-! ## Characters -/

/-- The text without its dots. -/
def dotless (text : List Char) : List Char := text.filter (· != '.')

/-- The text without its blanks and dots. -/
def ink (text : List Char) : List Char := text.filter fun c => !Text.isBlank c && c != '.'

/-- The texts of the symbols among the items, one behind the other. -/
def characters (items : List Item) : List Char :=
  (symbols items).flatMap (·.text.toList)

@[simp] theorem dotless_nil : dotless [] = [] := rfl

@[simp] theorem dotless_append (first second : List Char) :
    dotless (first ++ second) = dotless first ++ dotless second :=
  List.filter_append ..

theorem dotless_dots (count : Nat) : dotless (List.replicate count '.') = [] := by
  simp [dotless]

theorem dotless_of_all {text : List Char} (hdots : text.all (· == '.') = true) :
    dotless text = [] := by
  rw [dotless, List.filter_eq_nil_iff]
  intro c hmem
  simpa using List.all_eq_true.1 hdots c hmem

@[simp] theorem ink_append (first second : List Char) :
    ink (first ++ second) = ink first ++ ink second :=
  List.filter_append ..

/-- Of a text without blanks only the dots are left out. -/
theorem ink_eq_dotless {text : List Char} (htext : ∀ c ∈ text, Text.isBlank c = false) :
    ink text = dotless text := by
  refine List.filter_congr fun c hmem => ?_
  rw [htext c hmem]
  rfl

theorem ink_of_isBlank {c : Char} (hc : Text.isBlank c = true) (count : Nat) :
    ink (List.replicate count c) = [] := by
  simp [ink, hc]

theorem ink_dots (count : Nat) : ink (List.replicate count '.') = [] := by
  simp [ink]

@[simp] theorem characters_nil : characters [] = [] := rfl

@[simp] theorem characters_symbol_cons (symbol : Symbol) (items : List Item) :
    characters (.symbol symbol :: items) = symbol.text.toList ++ characters items := rfl

@[simp] theorem characters_inclusion_cons (path : String) (items : List Item) :
    characters (.inclusion path :: items) = characters items := rfl

@[simp] theorem characters_append (first second : List Item) :
    characters (first ++ second) = characters first ++ characters second := by
  simp [characters, symbols]

namespace Mode

theorem characters_symbol (kind : SymbolKind) (text : List Char) :
    characters [symbol kind text] = text := by
  simp [symbol]

theorem characters_flush (text : List Char) : characters (flush text) = text := by
  unfold flush
  split
  · rename_i hempty
    exact (List.isEmpty_iff.1 hempty).symm
  · exact characters_symbol .text text

theorem characters_puncts (c : Char) (count : Nat) :
    characters (List.replicate count (.symbol (.punct c))) = List.replicate count c := by
  induction count with
  | zero => rfl
  | succ count ih =>
    rw [List.replicate_succ, List.replicate_succ, characters_symbol_cons, ih]
    simp [Symbol.punct]

end Mode

/-- The paragraph breaks among the items have no text. -/
def BlankBreaks (items : List Item) : Prop :=
  ∀ symbol, .symbol symbol ∈ items → symbol.kind = .newline → symbol.text = ""

theorem BlankBreaks.append_iff {first second : List Item} :
    BlankBreaks (first ++ second) ↔ BlankBreaks first ∧ BlankBreaks second := by
  simp [BlankBreaks, or_imp, forall_and]

/-- Nothing in the text stands for a literal, a comment, an arrow or the request for a file. -/
structure Plain (text : List Char) : Prop where
  noLiteral : '\'' ∉ text
  noComment : ¬ [';', ';'] <:+: text
  noArrow : ¬ ['.', '\t'] <:+: text
  noInclusion (gap : List Char) (hgap : ∀ c ∈ gap, Text.isBlank c = true ∧ c ≠ '\n') :
    ¬ ".include".toList ++ gap ++ ['('] <:+: text

/-- A text without the word `include` requests no file. -/
theorem Plain.of_no_include {text : List Char} (hliteral : '\'' ∉ text)
    (hcomment : ¬ [';', ';'] <:+: text) (harrow : ¬ ['.', '\t'] <:+: text)
    (hinclude : ¬ "include".toList <:+: text) : Plain text where
  noLiteral := hliteral
  noComment := hcomment
  noArrow := harrow
  noInclusion gap _ hinclusion :=
    hinclude (.trans ⟨['.'], gap ++ ['('], by simp⟩ hinclusion)

theorem Plain.of_infix {part text : List Char} (htext : Plain text) (hpart : part <:+: text) :
    Plain part where
  noLiteral hmem := htext.noLiteral (hpart.subset hmem)
  noComment hcomment := htext.noComment (hcomment.trans hpart)
  noArrow harrow := htext.noArrow (harrow.trans hpart)
  noInclusion gap hgap hinclusion := htext.noInclusion gap hgap (hinclusion.trans hpart)

/-! ## Modes -/

namespace Mode

/-- The characters that were read and are not yet handed on. -/
def held : Mode → List Char
  | word text | number text | numberDot text | float text | timestamp text _ | color text => text
  | directive name => name
  | inclusion => "include".toList
  | sign => ['-']
  | start | breaks _ | comment | dot | path _ | literal _ | escape _ => []

@[simp] theorem held_start : held start = [] := rfl

@[simp] theorem held_word (text : List Char) : (word text).held = text := rfl

@[simp] theorem held_dot : held dot = [] := rfl

@[simp] theorem held_float (text : List Char) : (float text).held = text := rfl

/-- What is known of the text before a mode, where the text is plain. -/
def Behind (before : List Char) : Mode → Prop
  | dot | numberDot _ => ['.'] <:+ before
  | directive name => '.' :: name <:+ before
  | inclusion => ∃ gap, (∀ c ∈ gap, Text.isBlank c = true ∧ c ≠ '\n') ∧
      ".include".toList ++ gap <:+ before
  | sign => ['-'] <:+ before
  | number text | timestamp text _ => text <:+ before
  | comment | path _ | literal _ | escape _ => False
  | start | breaks _ | word _ | float _ | color _ => True

/-- The answer to a token behind the text `before` hands on what was held and the characters of
the token, if it takes it, as far as the next mode does not hold them. -/
structure Saves (before held : List Char) (token : Token) (answer : Scan Mode) : Prop where
  characters : dotless held ++ (if answer.taken then ink token.expand else []) =
    dotless (Document.characters answer.items) ++ dotless answer.next.held
  behind : answer.next.Behind (if answer.taken then before ++ token.expand else before)
  breaks : BlankBreaks answer.items

section

variable {before text : List Char} {token : Token} {next : Mode}

/-- A token without characters of its own is taken. -/
theorem saves_skip (hink : ink token.expand = []) (hheld : dotless next.held = dotless text)
    (hbehind : next.Behind (before ++ token.expand)) :
    Saves before text token (accept next []) where
  characters := by simp [accept, hink, hheld]
  behind := hbehind
  breaks := by simp [accept, BlankBreaks]

/-- A token is taken and held. -/
theorem saves_collect (hblank : ∀ c ∈ token.expand, Text.isBlank c = false)
    (hheld : next.held = text ++ token.expand) (hbehind : next.Behind (before ++ token.expand)) :
    Saves before text token (accept next []) where
  characters := by simp [accept, hheld, ink_eq_dotless hblank]
  behind := hbehind
  breaks := by simp [accept, BlankBreaks]

/-- The token is left to another mode, which holds the same. -/
theorem saves_pass (hheld : next.held = text) (hbehind : next.Behind before) :
    Saves before text token (decline next []) where
  characters := by simp [decline, hheld]
  behind := hbehind
  breaks := by simp [decline, BlankBreaks]

/-- What was held is handed on. -/
theorem saves_emit {kind : SymbolKind} (hkind : kind ≠ .newline) (hheld : next.held = [])
    (hbehind : next.Behind before) :
    Saves before text token (decline next [symbol kind text]) where
  characters := by simp [decline, characters_symbol, hheld]
  behind := hbehind
  breaks := by simp [decline, symbol, hkind, BlankBreaks]

theorem blankBreaks_flush (text : List Char) : BlankBreaks (flush text) := by
  unfold flush
  split
  · simp [BlankBreaks]
  · simp [BlankBreaks, symbol]

/-- A word is handed on if there is one. -/
theorem saves_flush (hheld : next.held = []) (hbehind : next.Behind before) :
    Saves before text token (decline next (flush text)) where
  characters := by simp [decline, characters_flush, hheld]
  behind := hbehind
  breaks := blankBreaks_flush text

theorem suffix_append_dots {count : Nat} (hcount : 0 < count) (before : List Char) :
    ['.'] <:+ before ++ List.replicate count '.' := by
  obtain ⟨count, rfl⟩ : ∃ rest, count = rest + 1 := ⟨count - 1, by omega⟩
  rw [List.replicate_succ', ← List.append_assoc]
  exact List.suffix_append _ _

/-- Dots are dots, be they handed on or held. -/
theorem characters_dots (text : List Char) (count : Nat) :
    dotless (characters (dots text count).2) ++ dotless (dots text count).1.held =
      dotless text := by
  unfold dots
  dsimp only
  split
  · simp [characters_flush, dotless_dots]
  · simp [dotless_dots]

theorem behind_dots (text : List Char) {count : Nat} (hodd : count % 2 = 1 → ['.'] <:+ before) :
    (dots text count).1.Behind before := by
  unfold dots
  dsimp only
  split
  · exact hodd ‹_›
  · trivial

theorem blankBreaks_dots (text : List Char) (count : Nat) : BlankBreaks (dots text count).2 := by
  unfold dots
  dsimp only
  split
  · exact blankBreaks_flush _
  · simp [BlankBreaks]

theorem saves_dots (text : List Char) (count : Nat) :
    Saves before text (.run '.' count) (accept (dots text count).1 (dots text count).2) where
  characters := by simp [accept, characters_dots, Token.expand, ink_dots]
  behind := behind_dots text fun hodd => suffix_append_dots (by omega) before
  breaks := blankBreaks_dots text count

end

/-! ### Steps -/

theorem forall_mem_expand {P : Char → Prop} {token : Token}
    (hrun : ∀ c count, token = .run c count → P c) : ∀ c ∈ token.expand, P c := by
  cases token with
  | endOfText => simp [Token.expand]
  | run c count =>
    intro d hmem
    rw [List.eq_of_mem_replicate hmem]
    exact hrun c count rfl

theorem isBlank_of_run {c : Char} (hc : Text.isBlank c = false) (count : Nat) :
    ∀ d ∈ (Token.run c count).expand, Text.isBlank d = false := by
  refine forall_mem_expand ?_
  rintro d number heq
  cases heq
  exact hc

theorem isBlank_of_isDigit {c : Char} (hc : c.isDigit = true) : Text.isBlank c = false :=
  Assembly.isBlank_of_isGraphic (Assembly.isGraphic_of_isDigit hc)

theorem isBlank_of_isDigits {token : Token} (hdigits : isDigits token = true) :
    ∀ c ∈ token.expand, Text.isBlank c = false := by
  refine forall_mem_expand ?_
  rintro c count rfl
  exact isBlank_of_isDigit hdigits

theorem isBlank_of_isHexDigits {token : Token} (hdigits : isHexDigits token = true) :
    ∀ c ∈ token.expand, Text.isBlank c = false := by
  refine forall_mem_expand ?_
  rintro c count rfl
  exact Assembly.isBlank_of_isGraphic (Assembly.isGraphic_of_isHexDigit hdigits)

theorem isBlank_of_continuesDirective {token : Token}
    (hcontinues : continuesDirective token = true) :
    ∀ c ∈ token.expand, Text.isBlank c = false := by
  refine forall_mem_expand ?_
  rintro c count rfl
  exact Assembly.isBlank_of_isGraphic (Assembly.isGraphic_of_isNameChar hcontinues)

theorem isBlank_of_not_isDelimiter {token : Token} (hdelimiter : ¬ isDelimiter token = true) :
    ∀ c ∈ token.expand, Text.isBlank c = false := by
  refine forall_mem_expand ?_
  rintro c count rfl
  simp only [isDelimiter, Bool.or_eq_true, not_or, Bool.not_eq_true] at hdelimiter
  exact hdelimiter.1.1

theorem isBlank_of_mem_timestamp {c : Char}
    (hc : c.isDigit = true ∨ c ∈ ['-', 'T', ':', '.', 'Z']) : Text.isBlank c = false := by
  rcases hc with hdigit | hmem
  · exact isBlank_of_isDigit hdigit
  · have hmarks : ['-', 'T', ':', '.', 'Z'].all (!Text.isBlank ·) = true := by decide
    simpa using List.all_eq_true.1 hmarks c hmem

theorem numberKind_ne (text : List Char) : numberKind text ≠ .newline := by
  unfold numberKind
  split <;> decide

section

variable {before : List Char} (text : List Char) {token : Token}

theorem saves_stepBreaks (count : Nat) : Saves before [] token (stepBreaks count token) := by
  refine iteInduction (fun hline => ?_) fun _ => iteInduction (fun hblank => ?_) fun _ => ?_
  · cases token with
    | endOfText => cases hline
    | run c number =>
      obtain rfl : c = '\n' := by simpa [Token.isRunOf] using hline
      exact saves_skip (ink_of_isBlank (by decide) number) rfl trivial
  · cases token with
    | endOfText => cases hblank
    | run c number => exact saves_skip (ink_of_isBlank hblank number) rfl trivial
  · split
    · exact ⟨rfl, trivial, by simp [decline, Symbol.newline, BlankBreaks]⟩
    · exact saves_pass rfl trivial

theorem saves_stepWord : Saves before text token (stepWord text token) := by
  unfold stepWord
  split
  · exact saves_dots text _
  · exact iteInduction (fun _ => saves_flush rfl trivial) fun hdelimiter =>
      saves_collect (isBlank_of_not_isDelimiter hdelimiter) rfl trivial

theorem saves_stepDirective {name : List Char} (hbehind : Behind before (.directive name)) :
    Saves before name token (stepDirective name token) := by
  refine iteInduction (fun hcontinues => ?_) fun _ =>
    iteInduction (fun hinclude => ?_) fun _ => saves_emit (by decide) rfl trivial
  · refine saves_collect (isBlank_of_continuesDirective hcontinues) rfl ?_
    rw [Behind, ← List.cons_append]
    exact List.suffix_append_self_iff.2 hbehind
  · subst hinclude
    exact saves_pass rfl ⟨[], by simp, hbehind⟩

theorem saves_stepSign (hbehind : Behind before .sign) :
    Saves before ['-'] token (stepSign token) :=
  iteInduction (fun _ => saves_pass rfl hbehind) fun _ => saves_pass rfl trivial

theorem saves_stepNumber (hbehind : Behind before (.number text)) :
    Saves before text token (stepNumber text token) := by
  refine iteInduction (fun hdigits => ?_) fun _ => iteInduction (fun hminus => ?_) fun _ =>
    iteInduction (fun hdot => ?_) fun _ => iteInduction (fun _ => saves_pass rfl trivial) fun _ =>
      saves_emit (numberKind_ne text) rfl trivial
  · exact saves_collect (isBlank_of_isDigits hdigits) rfl (List.suffix_append_self_iff.2 hbehind)
  · obtain ⟨rfl, -, -⟩ := hminus
    exact saves_collect (isBlank_of_run (by decide) _) rfl (List.suffix_append_self_iff.2 hbehind)
  · subst hdot
    exact saves_skip rfl rfl (List.suffix_append _ _)

theorem saves_stepNumberDot (hbehind : Behind before (.numberDot text)) :
    Saves before text token (stepNumberDot text token) := by
  refine iteInduction (fun hdigits => ⟨?_, trivial, by simp [accept, BlankBreaks]⟩) fun _ =>
    saves_emit (numberKind_ne text) rfl hbehind
  -- the dot becomes part of the number, which changes nothing about its other characters
  have hdot : dotless ('.' :: token.expand) = dotless token.expand := rfl
  simp [accept, hdot, ink_eq_dotless (isBlank_of_isDigits hdigits)]

theorem saves_stepFloat : Saves before text token (stepFloat text token) :=
  iteInduction (fun hdigits => saves_collect (isBlank_of_isDigits hdigits) rfl trivial) fun _ =>
    iteInduction (fun _ => saves_pass rfl trivial) fun _ => saves_emit (by decide) rfl trivial

/-- A timestamp may be left with dots behind it, which are then read as such. -/
theorem saves_leaveTimestamp {whole : Nat} (hbehind : text <:+ before) :
    Saves before text token (leaveTimestamp text whole token) := by
  refine iteInduction (fun _ => saves_emit (by decide) rfl trivial) fun _ =>
    iteInduction (fun hstamp => ?_) fun _ => saves_pass rfl trivial
  simp only [Bool.and_eq_true] at hstamp
  obtain ⟨⟨-, hdots⟩, -⟩ := hstamp
  have hrest : text.drop whole = List.replicate (text.drop whole).length '.' :=
    List.eq_replicate_of_mem fun c hmem => by simpa using List.all_eq_true.1 hdots c hmem
  refine ⟨?_, behind_dots [] fun hodd => ?_, fun symbol hmem => ?_⟩
  · have hcharacters := characters_dots [] (text.drop whole).length
    have hstamp : characters (Mode.symbol .timestamp (text.take whole) ::
        (dots [] (text.drop whole).length).2) =
          text.take whole ++ characters (dots [] (text.drop whole).length).2 := by
      simp [Mode.symbol]
    calc dotless text ++ []
        = dotless (text.take whole) ++ dotless (text.drop whole) := by
          rw [← dotless_append, List.take_append_drop, List.append_nil]
      _ = dotless (text.take whole) ++ [] := by rw [dotless_of_all hdots]
      _ = _ := by
          rw [dotless_nil] at hcharacters
          simp only [decline, hstamp, dotless_append, List.append_assoc, hcharacters]
  · have hsuffix : text.drop whole <:+ before := (List.drop_suffix whole text).trans hbehind
    rw [hrest] at hsuffix
    exact (suffix_append_dots (by omega) []).trans hsuffix
  · rcases List.mem_cons.1 hmem with hsymbol | hmem
    · cases hsymbol
      simp
    · exact blankBreaks_dots _ _ symbol hmem

theorem saves_stepTimestamp {whole : Nat} (hbehind : text <:+ before) :
    Saves before text token (stepTimestamp text whole token) := by
  have hcollect (hshape : Timestamp.shape (text ++ token.expand) ≠ .hopeless) (length : Nat) :
      Saves before text token (accept (.timestamp (text ++ token.expand) length) []) := by
    refine saves_collect (fun c hmem => ?_) rfl (List.suffix_append_self_iff.2 hbehind)
    exact isBlank_of_mem_timestamp (Timestamp.mem_of_shape hshape (List.mem_append_right _ hmem))
  unfold stepTimestamp
  dsimp only
  split
  · rename_i hshape
    exact hcollect (by simp [hshape]) _
  · rename_i hshape
    exact hcollect (by simp [hshape]) _
  · exact saves_leaveTimestamp text hbehind

theorem saves_stepColor : Saves before text token (stepColor text token) :=
  iteInduction (fun hdigits => saves_collect (isBlank_of_isHexDigits hdigits) rfl trivial) fun _ =>
    iteInduction (fun _ => saves_emit (by decide) rfl trivial) fun _ => saves_pass rfl trivial

/-! The other steps need the text to be plain. -/

variable (hplain : Plain (before ++ token.expand)) (htoken : token.Solid)

include hplain htoken

theorem saves_stepStart : Saves before [] token (stepStart token) := by
  cases token with
  | endOfText =>
    exact ⟨rfl, trivial, by simp [stepStart, accept, Symbol.endOfData, BlankBreaks]⟩
  | run c count =>
    have hcount : 0 < count := htoken c count rfl
    unfold stepStart
    refine iteInduction (fun hline => ?_) fun _ =>
      iteInduction (fun hblank => saves_skip (ink_of_isBlank hblank count) rfl trivial) fun hblank =>
      iteInduction (fun hdot => ?_) fun _ => iteInduction (fun hcomment => ?_) fun _ =>
      iteInduction (fun hquote => ?_) fun _ => iteInduction (fun hhash => ?_) fun _ =>
      iteInduction (fun hminus => ?_) fun _ =>
      iteInduction (fun _ => saves_pass rfl List.nil_suffix) fun _ =>
      iteInduction (fun hpunct => ?_) fun _ => saves_pass rfl trivial
    · subst hline
      exact saves_skip (ink_of_isBlank (by decide) count) rfl trivial
    · subst hdot
      exact saves_dots [] count
    · -- two semicolons would start a comment
      obtain ⟨rfl, hmany⟩ := hcomment
      obtain ⟨more, rfl⟩ : ∃ more, count = more + 2 := ⟨count - 2, by omega⟩
      exact absurd ⟨before, List.replicate more ';', by simp [Token.expand, List.replicate_succ]⟩
        hplain.noComment
    · obtain ⟨rfl, rfl⟩ := hquote
      exact absurd (by simp [Token.expand]) hplain.noLiteral
    · obtain ⟨rfl, rfl⟩ := hhash
      exact saves_collect (isBlank_of_run (by decide) 1) rfl trivial
    · obtain ⟨rfl, rfl⟩ := hminus
      exact saves_collect (isBlank_of_run (by decide) 1) rfl (List.suffix_append _ _)
    · have hkept : ∀ d ∈ List.replicate count c, Text.isBlank d = false :=
        isBlank_of_run (by simpa using hblank) count
      refine ⟨?_, trivial, ?_⟩
      · simp [accept, Token.expand, ink_eq_dotless hkept, characters_puncts]
      · intro symbol hmem hkind
        cases List.eq_of_mem_replicate hmem
        cases hkind

/-- No tab follows the dot, which would make an arrow of it. -/
theorem saves_stepDot (hbehind : Behind before .dot) : Saves before [] token (stepDot token) := by
  have hpunct : Saves before [] token (decline .start [.symbol (.punct '.')]) :=
    ⟨rfl, trivial, by simp [decline, Symbol.punct, BlankBreaks]⟩
  cases token with
  | endOfText => exact hpunct
  | run c count =>
    refine iteInduction (fun hlower => ?_) fun _ => iteInduction (fun htab => ?_) fun _ => hpunct
    · have hcontinues : continuesDirective (.run c count) = true := by
        simp [continuesDirective, continuesName, hlower]
      refine saves_collect (isBlank_of_continuesDirective hcontinues) rfl ?_
      obtain ⟨front, rfl⟩ := hbehind
      exact ⟨front, by simp⟩
    · subst htab
      obtain ⟨front, rfl⟩ := hbehind
      have hcount : 0 < count := htoken '\t' count rfl
      obtain ⟨more, rfl⟩ : ∃ more, count = more + 1 := ⟨count - 1, by omega⟩
      exact absurd ⟨front, List.replicate more '\t', by simp [Token.expand, List.replicate_succ]⟩
        hplain.noArrow

omit htoken in
/-- No parenthesis follows the name of an include directive. -/
theorem saves_stepInclusion (hbehind : Behind before .inclusion) :
    Saves before "include".toList token (stepInclusion token) := by
  obtain ⟨gap, hgap, hsuffix⟩ := hbehind
  refine iteInduction (fun hblank => ?_) fun _ => iteInduction (fun hparen => ?_) fun _ =>
    saves_emit (by decide) rfl trivial
  · cases token with
    | endOfText => cases hblank
    | run c count =>
      simp only [Token.isBlank, Token.isRunOf, Bool.and_eq_true, Bool.not_eq_true',
        beq_eq_false_iff_ne] at hblank
      refine saves_skip (ink_of_isBlank hblank.1 count) rfl
        ⟨gap ++ List.replicate count c, List.forall_mem_append.2 ⟨hgap, fun d hmem => ?_⟩, ?_⟩
      · rw [List.eq_of_mem_replicate hmem]
        exact hblank
      · rw [← List.append_assoc]
        exact List.suffix_append_self_iff.2 hsuffix
  · subst hparen
    exact absurd (List.suffix_append_self_iff.2 hsuffix).isInfix (hplain.noInclusion gap hgap)

/-- Every step saves what was held and what it takes. -/
theorem saves_step {mode : Mode} (hbehind : mode.Behind before) :
    Saves before mode.held token (mode.step token) := by
  cases mode with
  | start => exact saves_stepStart hplain htoken
  | breaks count => exact saves_stepBreaks count
  | comment => exact hbehind.elim
  | word text => exact saves_stepWord text
  | dot => exact saves_stepDot hplain htoken hbehind
  | directive name => exact saves_stepDirective hbehind
  | inclusion => exact saves_stepInclusion hplain hbehind
  | path text => exact hbehind.elim
  | sign => exact saves_stepSign hbehind
  | number text => exact saves_stepNumber text hbehind
  | numberDot text => exact saves_stepNumberDot text hbehind
  | float text => exact saves_stepFloat text
  | timestamp text whole => exact saves_stepTimestamp text hbehind
  | color text => exact saves_stepColor text
  | literal text => exact hbehind.elim
  | escape text => exact hbehind.elim

end

/-- What has been read of a plain text is handed on or held. -/
theorem saves_of_scans {mode last : Mode} {tokens : List Token} {items : List Item}
    (hscans : Scans step mode tokens last items) {before : List Char}
    (hplain : Plain (before ++ tokens.flatMap Token.expand))
    (htokens : ∀ token ∈ tokens, token.Solid) (hbehind : mode.Behind before) :
    dotless mode.held ++ ink (tokens.flatMap Token.expand) =
        dotless (characters items) ++ dotless last.held ∧ BlankBreaks items := by
  induction hscans generalizing before with
  | nil mode => exact ⟨by simp [ink], by simp [BlankBreaks]⟩
  | @taken mode next last token rest items more hscan _ ih =>
    rw [List.flatMap_cons, ← List.append_assoc] at hplain
    rw [List.forall_mem_cons] at htokens
    have hsaves := saves_step (hplain.of_infix (List.prefix_append _ _).isInfix) htokens.1 hbehind
    rw [hscan] at hsaves
    obtain ⟨hrest, hbreaks⟩ := ih hplain htokens.2 hsaves.behind
    refine ⟨?_, BlankBreaks.append_iff.2 ⟨hsaves.breaks, hbreaks⟩⟩
    have htaken : dotless mode.held ++ ink token.expand =
      dotless (characters items) ++ dotless next.held := hsaves.characters
    calc dotless mode.held ++ ink ((token :: rest).flatMap Token.expand)
        = (dotless mode.held ++ ink token.expand) ++ ink (rest.flatMap Token.expand) := by
          rw [List.flatMap_cons, ink_append, List.append_assoc]
      _ = dotless (characters items) ++ (dotless next.held ++ ink (rest.flatMap Token.expand)) := by
          rw [htaken, List.append_assoc]
      _ = dotless (characters (items ++ more)) ++ dotless last.held := by
          rw [hrest, characters_append, dotless_append, List.append_assoc]
  | @declined mode next last token rest items more hscan _ ih =>
    have hpart : Plain (before ++ token.expand) := by
      rw [List.flatMap_cons, ← List.append_assoc] at hplain
      exact hplain.of_infix (List.prefix_append _ _).isInfix
    have hsaves := saves_step hpart (List.forall_mem_cons.1 htokens).1 hbehind
    rw [hscan] at hsaves
    obtain ⟨hrest, hbreaks⟩ := ih hplain htokens hsaves.behind
    refine ⟨?_, BlankBreaks.append_iff.2 ⟨hsaves.breaks, hbreaks⟩⟩
    have hdeclined : dotless mode.held = dotless (characters items) ++ dotless next.held := by
      simpa using hsaves.characters
    rw [hdeclined, List.append_assoc, hrest, characters_append, dotless_append, List.append_assoc]

end Mode

/-! ## Documents -/

namespace Scanner

/-- The scanner adds and drops only paragraph breaks, which have no text. -/
theorem characters_handOn (scanner : Scanner) {item : Item} (hitem : BlankBreaks [item]) :
    characters (scanner.handOn item).2 = characters [item] := by
  cases item with
  | inclusion path => rfl
  | symbol symbol =>
    unfold handOn
    dsimp only
    split
    · rename_i hdropped
      have htext : symbol.text = "" := hitem symbol List.mem_cons_self hdropped.1
      simp [htext]
    · split
      · simp [Symbol.newline]
      · rfl

theorem characters_handOnAll (scanner : Scanner) {items : List Item} (hitems : BlankBreaks items) :
    characters (scanner.handOnAll items).2 = characters items := by
  induction items generalizing scanner with
  | nil => rfl
  | cons item rest ih =>
    rw [← List.singleton_append, BlankBreaks.append_iff] at hitems
    calc characters (scanner.handOnAll (item :: rest)).2
        = characters (scanner.handOn item).2 ++
            characters ((scanner.handOn item).1.handOnAll rest).2 := characters_append _ _
      _ = characters [item] ++ characters rest := by
          rw [scanner.characters_handOn hitems.1, ih _ hitems.2]
      _ = characters (item :: rest) := (characters_append [item] rest).symm

end Scanner

/-- Line ends of two characters become line feeds, which changes nothing about a plain text. -/
theorem Plain.dropReturns {text : List Char} (htext : Plain text) : Plain (dropReturns text) where
  noLiteral hmem := by
    obtain ⟨front, back, hsplit⟩ := List.append_of_mem hmem
    have hpart : ['\''] <:+: Docpress.dropReturns text := ⟨front, back, by simp [hsplit]⟩
    exact htext.noLiteral ((infix_of_infix_dropReturns (by decide) hpart).subset List.mem_cons_self)
  noComment hcomment := htext.noComment (infix_of_infix_dropReturns (by decide) hcomment)
  noArrow harrow := htext.noArrow (infix_of_infix_dropReturns (by decide) harrow)
  noInclusion gap hgap hinclusion := by
    refine htext.noInclusion gap hgap (infix_of_infix_dropReturns ?_ hinclusion)
    have hline : '\n' ∉ gap := fun hmem => (hgap '\n' hmem).2 rfl
    simp [hline]

/-- The symbols of a plain text have its characters. -/
theorem characters_of_start {start : Scanner} (hstart : start.mode = .start) {text : String}
    (hplain : Plain text.toList) : ∃ items, Docpress.lex Scanner.scan start text = .ok items ∧
      dotless (characters (unmarked items)) = ink text.toList := by
  obtain ⟨items, raw, hlex, hmarked, hraw⟩ := lex_eq_handOnAll hstart text
  refine ⟨items, hlex, ?_⟩
  have hexpand : (Token.runs (dropReturns text.toList) ++ [Token.endOfText]).flatMap Token.expand =
      dropReturns text.toList := by
    rw [List.flatMap_append, Token.flatMap_expand_runs]
    exact List.append_nil _
  have hread : Plain ([] ++
      (Token.runs (dropReturns text.toList) ++ [Token.endOfText]).flatMap Token.expand) := by
    rw [hexpand]
    exact hplain.dropReturns
  have hsaves := Mode.saves_of_scans hraw hread (Token.solid_of_text text) trivial
  rw [hexpand] at hsaves
  calc dotless (characters (unmarked items))
      = dotless (characters (start.handOnAll raw).2) := by
        rw [hmarked.unmarked_eq, unmarked_handOnAll hraw]
    _ = dotless (characters raw) := by rw [start.characters_handOnAll hsaves.2]
    _ = ink (dropReturns text.toList) := by simpa using hsaves.1.symm
    _ = ink text.toList := filter_dropReturns (by decide) text.toList

/-- No character of a plain text is lost, whatever it looked like while it was read: the texts of
the symbols are the text without its blanks, up to dots. -/
theorem lex_keeps_characters {text : String} (hplain : Plain text.toList) :
    (∃ items, lex text = .ok items ∧ dotless (characters (unmarked items)) = ink text.toList) ∧
    ∃ items, lexContinuation text = .ok items ∧
      dotless (characters (unmarked items)) = ink text.toList :=
  ⟨characters_of_start rfl hplain, characters_of_start rfl hplain⟩

/-- Dates that are none, colors that are too short, numbers that become words, and a directive. -/
theorem lex_keeps_characters_malformed :
    Plain "2024-13-01T #12345 -5x 1.5e3\r\n.a_(--7, 2024-02-30. 9..)".toList ∧
    (∃ items, lex "2024-13-01T #12345 -5x 1.5e3\r\n.a_(--7, 2024-02-30. 9..)" = .ok items ∧
      dotless (characters (unmarked items)) =
        "2024-13-01T#12345-5x15e3a_(--7,2024-02-309)".toList) := by
  have hplain : Plain "2024-13-01T #12345 -5x 1.5e3\r\n.a_(--7, 2024-02-30. 9..)".toList :=
    .of_no_include (by decide +kernel) (by decide +kernel) (by decide +kernel) (by decide +kernel)
  have hink : ink "2024-13-01T #12345 -5x 1.5e3\r\n.a_(--7, 2024-02-30. 9..)".toList =
      "2024-13-01T#12345-5x15e3a_(--7,2024-02-309)".toList := by decide +kernel
  obtain ⟨items, hlex, hcharacters⟩ := (lex_keeps_characters hplain).1
  exact ⟨hplain, items, hlex, hcharacters.trans hink⟩

end Docpress.Document
