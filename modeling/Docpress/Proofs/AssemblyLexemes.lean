import Docpress.Assembly.Scanner
import Docpress.Document.Code
import Docpress.Proofs.Floats
import Docpress.Proofs.Literals
import Docpress.Proofs.Scanning

/-!
# What assembly text is read as

The scanner of assembly text is followed over the spellings that generated code is made of:
words, numbers, timestamps, strings and colors.  `StandsFor text symbols` says that the scanner
reads a text that ends its line as the symbols; `standsFor_…` establish it for each spelling.

Tokens are runs of equal characters, so the scanner moves over a text run by run.  Where a
spelling is put together from parts that end in different characters its runs are those of the
parts (`Scans.meet`).  Inside of strings runs do cross such borders, as backslashes and quotes
stand both for themselves and for what they escape; there `Quoting.Inside` describes the scanner
character by character.
-/

namespace Docpress.Assembly

/-! ## Characters -/

/-- Whether the character may stand in a mnemonic or in the name of a method. -/
def isNameChar (c : Char) : Bool :=
  c.isLower || c.isDigit || c == '_'

theorem isLower_range {c : Char} (hc : c.isLower = true) : 0x61 ≤ c.toNat ∧ c.toNat ≤ 0x7A := by
  have hbounds : (decide ('a'.val ≤ c.val) && decide (c.val ≤ 'z'.val)) = true := hc
  simp only [Bool.and_eq_true, decide_eq_true_eq, UInt32.le_iff_toNat_le] at hbounds
  have hz : 'z'.val.toNat = 0x7A := rfl
  have ha : 'a'.val.toNat = 0x61 := rfl
  have hval : c.toNat = c.val.toNat := rfl
  omega

theorem isDigit_range {c : Char} (hc : c.isDigit = true) : 0x30 ≤ c.toNat ∧ c.toNat ≤ 0x39 := by
  have hrange := Char.isDigit_iff_toNat.1 hc
  simp only [Char.reduceToNat] at hrange
  omega

theorem isNameChar_range {c : Char} (hc : isNameChar c = true) :
    0x30 ≤ c.toNat ∧ c.toNat ≤ 0x7A := by
  simp only [isNameChar, Bool.or_eq_true, beq_iff_eq] at hc
  rcases hc with (hlower | hdigit) | rfl
  · have := isLower_range hlower
    omega
  · have := isDigit_range hdigit
    omega
  · decide

/-- Whether the character is a visible one of ASCII. -/
def isGraphic (c : Char) : Bool :=
  0x21 ≤ c.toNat && c.toNat ≤ 0x7E

theorem isGraphic_iff {c : Char} : isGraphic c = true ↔ 0x21 ≤ c.toNat ∧ c.toNat ≤ 0x7E := by
  simp [isGraphic]

theorem isBlank_of_isGraphic {c : Char} (hc : isGraphic c = true) : Text.isBlank c = false := by
  rw [isGraphic_iff] at hc
  simp [Text.isBlank, Text.blanks, Text.CodeRange.contains]
  omega

theorem isGraphic_of_isNameChar {c : Char} (hc : isNameChar c = true) : isGraphic c = true := by
  have hrange := isNameChar_range hc
  rw [isGraphic_iff]
  omega

theorem isWordChar_of_isNameChar {c : Char} (hc : isNameChar c = true) : isWordChar c = true := by
  have hrange := isNameChar_range hc
  simp only [isNameChar, Bool.or_eq_true, beq_iff_eq] at hc
  rw [isWordChar, Text.isAlphanumeric, if_pos (by omega)]
  rcases hc with (hlower | hdigit) | rfl
  · have halpha : c.isAlpha = (c.isUpper || c.isLower) := rfl
    simp [Char.isAlphanum, halpha, hlower]
  · simp [Char.isAlphanum, hdigit]
  · rfl

theorem isNameChar_of_isDigit {c : Char} (hc : c.isDigit = true) : isNameChar c = true := by
  simp [isNameChar, hc]

namespace Mode

/-- A word or a number is started by declining its first run. -/
theorem stepStart_of_isNameChar {c : Char} (hc : isNameChar c = true) (count : Nat) :
    stepStart (.run c count) =
      if c.isDigit then decline (.number .whole []) [] else decline (.word []) [] := by
  have hblank : ¬ Text.isBlank c = true := by
    rw [isBlank_of_isGraphic (isGraphic_of_isNameChar hc)]
    simp
  have hne {d : Char} (hd : isNameChar d = false) : c ≠ d := by
    rintro rfl
    rw [hc] at hd
    cases hd
  unfold stepStart
  dsimp only
  rw [if_neg (hne (by decide)), if_neg hblank, if_neg (hne (by decide)),
    if_neg fun h => hne (by decide) h.1, if_neg fun h => hne (by decide) h.1,
    if_neg fun h => hne (by decide) h.1,
    if_neg fun h => h.1.elim (hne (by decide)) (hne (by decide)),
    if_neg (hne (by decide)), if_neg fun h => hne (by decide) h.1,
    if_pos (isWordChar_of_isNameChar hc)]

end Mode

open Mode

/-! ## Texts that end a line -/

/-- The scanner reads the text, and the line break behind it, as the symbols and a line
break. -/
def ReadsAs (text : List Char) (symbols : List Symbol) : Prop :=
  Scans step .start (Token.runs text ++ [.run '\n' 1]) .start
    (symbols.map .symbol ++ [.symbol .newline])

/-- The text stands for the symbols at the end of a line.  Its first and last characters keep
it apart from a blank before it and from the line break behind it. -/
structure StandsFor (text : List Char) (symbols : List Symbol) : Prop where
  readsAs : ReadsAs text symbols
  noBreak : '\n' ∉ text
  head : ∃ first rest, text = first :: rest ∧ first ≠ ' '
  last : text.getLast? ≠ some '\r'

/-- What the scanner hands on when the line ends in a mode. -/
def Leaves (mode : Mode) (items : List Item) : Prop :=
  Scans step mode [.run '\n' 1] .start (items ++ [.symbol .newline])

theorem Leaves.of_declined {mode : Mode} {items : List Item}
    (hdeclined : step mode (.run '\n' 1) = decline .start items) : Leaves mode items :=
  .of_declined_taken hdeclined rfl

theorem readsAs_of_scans {text : List Char} {mode : Mode} {items last : List Item}
    {symbols : List Symbol} (hscans : Scans step .start (Token.runs text) mode items)
    (hleaves : Leaves mode last) (hsymbols : items ++ last = symbols.map .symbol) :
    ReadsAs text symbols := by
  rw [ReadsAs, ← hsymbols, List.append_assoc]
  exact hscans.append hleaves

theorem getLast?_ne_of_forall {P : Char → Prop} {text : List Char} (htext : ∀ c ∈ text, P c)
    {d : Char} (hd : ¬ P d) : text.getLast? ≠ some d := by
  intro hlast
  exact hd (htext d (List.mem_of_getLast? hlast))

/-- Whether the character separates words or lines. -/
def isGap (c : Char) : Bool := [' ', '\n', '\r'].contains c

theorem isGap_eq_false {c : Char} (P : Char → Bool) (hc : P c = true)
    (hgaps : [' ', '\n', '\r'].all (!P ·) = true) : isGap c = false := by
  cases hgap : isGap c with
  | false => rfl
  | true =>
    have hnot := List.all_eq_true.1 hgaps c (by simpa [isGap] using hgap)
    simp [hc] at hnot

theorem StandsFor.of_noGap {text : List Char} {symbols : List Symbol}
    (hreads : ReadsAs text symbols) (hne : text ≠ []) (hgaps : ∀ c ∈ text, isGap c = false) :
    StandsFor text symbols where
  readsAs := hreads
  noBreak hmem := absurd (hgaps _ hmem) (by decide)
  head := by
    obtain ⟨first, rest, rfl⟩ := List.exists_cons_of_ne_nil hne
    refine ⟨first, rest, rfl, ?_⟩
    rintro rfl
    exact absurd (hgaps _ List.mem_cons_self) (by decide)
  last := getLast?_ne_of_forall hgaps (by decide)

theorem StandsFor.of_isGraphic {text : List Char} {symbols : List Symbol}
    (hreads : ReadsAs text symbols) (hne : text ≠ [])
    (hgraphic : ∀ c ∈ text, isGraphic c = true) : StandsFor text symbols :=
  .of_noGap hreads hne fun c hmem => isGap_eq_false isGraphic (hgraphic c hmem) (by decide)

/-! ## Words -/

/-- The characters are those of a word: a letter, or an underscore, and then digits too. -/
structure IsWord (text : List Char) : Prop where
  isNameChar : ∀ c ∈ text, isNameChar c = true
  head : ∃ first rest, text = first :: rest ∧ first.isDigit = false

theorem IsWord.ne_nil {text : List Char} (hword : IsWord text) : text ≠ [] := by
  obtain ⟨first, rest, rfl, _⟩ := hword.head
  simp

theorem IsWord.not_mem {text : List Char} (hword : IsWord text) {c : Char}
    (hc : Assembly.isNameChar c = false) : c ∉ text := by
  intro hmem
  rw [hword.isNameChar c hmem] at hc
  cases hc

theorem scans_word {text : List Char} (hword : IsWord text) :
    Scans step .start (Token.runs text) (.word text) [] := by
  have haccumulate : Scans step (.word []) (Token.runs text) (.word ([] ++ text)) [] := by
    have hcollects (seen : List Char) (c : Char) (count : Nat) (hc : isNameChar c = true)
        (_ : 0 < count) : Scans.Collects step Mode.word seen c count :=
      if_pos (isWordChar_of_isNameChar hc)
    exact Scans.accumulate_of_forall Mode.word hcollects hword.isNameChar
  obtain ⟨first, rest, rfl, hfirst⟩ := hword.head
  refine Scans.enter (fun count _ => ?_) haccumulate
  show stepStart (.run first count) = decline (.word []) []
  rw [stepStart_of_isNameChar (hword.isNameChar first List.mem_cons_self), hfirst]
  rfl

theorem leaves_word {text : List Char} (hne : text ≠ []) :
    Leaves (.word text) [wordSymbol text] := by
  apply Leaves.of_declined
  cases text with
  | nil => exact absurd rfl hne
  | cons first rest => rfl

/-- A word at the end of a line. -/
theorem standsFor_word {text : List Char} (hword : IsWord text) {symbol : Symbol}
    (hsymbol : wordSymbol text = .symbol symbol) : StandsFor text [symbol] := by
  refine .of_isGraphic ?_ hword.ne_nil
    fun c hmem => isGraphic_of_isNameChar (hword.isNameChar c hmem)
  apply readsAs_of_scans (scans_word hword) (leaves_word hword.ne_nil)
  rw [hsymbol]
  rfl

/-- A word and a blank before a text. -/
theorem StandsFor.behind_word {word text : List Char} {symbol : Symbol} {symbols : List Symbol}
    (hword : IsWord word) (hsymbol : wordSymbol word = .symbol symbol)
    (htext : StandsFor text symbols) : StandsFor (word ++ ' ' :: text) (symbol :: symbols) := by
  obtain ⟨first, rest, rfl, hfirst⟩ := htext.head
  have hblank : Scans step (.word word) (Token.runs [' ']) .start [.symbol symbol] := by
    rw [← hsymbol]
    have hdeclined : step (.word word) (.run ' ' 1) = decline .start [wordSymbol word] := by
      cases word with
      | nil => exact absurd rfl hword.ne_nil
      | cons c word => rfl
    exact .declined hdeclined (.of_taken rfl)
  refine ⟨?_, ?_, ?_, ?_⟩
  · have hstart := (scans_word hword).append hblank
    have hruns : Token.runs (word ++ ' ' :: first :: rest) =
        Token.runs word ++ Token.runs [' '] ++ Token.runs (first :: rest) := by
      rw [Token.runs_append (getLast?_ne_of_forall hword.isNameChar (by decide)), List.append_assoc]
      congr 1
      rw [Token.runs, Token.runsFrom, if_neg hfirst]
      rfl
    rw [ReadsAs, hruns, List.append_assoc]
    exact hstart.append htext.readsAs
  · simp only [List.mem_append, List.mem_cons, not_or]
    refine ⟨hword.not_mem (by decide), by decide, ?_⟩
    simpa using htext.noBreak
  · obtain ⟨c, more, rfl, _⟩ := hword.head
    refine ⟨c, more ++ ' ' :: first :: rest, rfl, ?_⟩
    rintro rfl
    exact hword.not_mem (by decide) List.mem_cons_self
  · rw [List.getLast?_append_of_ne_nil _ (by simp), List.getLast?_cons_cons]
    exact htext.last

/-! ### Mnemonics and names -/

theorem isWord_mnemonic (op : Opcode) : IsWord op.mnemonic.toList where
  isNameChar := by
    have hall : op.mnemonic.toList.all Assembly.isNameChar = true := by cases op <;> decide
    exact List.all_eq_true.1 hall
  head := by
    cases op <;> exact ⟨_, _, rfl, rfl⟩

theorem wordSymbol_mnemonic (op : Opcode) :
    wordSymbol op.mnemonic.toList = .symbol ⟨.instruction, op.mnemonic⟩ := by
  cases op <;> decide

theorem isWord_of_isLower_head {text : List Char} (hchars : ∀ c ∈ text, isNameChar c = true)
    (hhead : ∃ first rest, text = first :: rest ∧ first.isLower = true) : IsWord text where
  isNameChar := hchars
  head := by
    obtain ⟨first, rest, htext, hlower⟩ := hhead
    refine ⟨first, rest, htext, ?_⟩
    cases hdigit : first.isDigit with
    | false => rfl
    | true =>
      have := isLower_range hlower
      have := isDigit_range hdigit
      omega

/-- The names that generated code can call a method by. -/
structure IsMethodName (name : String) : Prop where
  isNameChar : ∀ c ∈ name.toList, isNameChar c = true
  isLower_head : ∃ first rest, name.toList = first :: rest ∧ first.isLower = true
  ne_true : name ≠ "true"
  ne_false : name ≠ "false"

theorem IsMethodName.isWord {name : String} (hname : IsMethodName name) : IsWord name.toList :=
  isWord_of_isLower_head hname.isNameChar hname.isLower_head

theorem lowerCase_of_isNameChar {c : Char} (hc : isNameChar c = true) :
    Opcode.lowerCase c = c := by
  have hrange := isNameChar_range hc
  have hkelvin : c ≠ '\u212A' := by
    rintro rfl
    exact absurd hrange (by decide)
  have hcapital : ¬ (c.val ≥ 'A'.val ∧ c.val ≤ 'Z'.val) := by
    rintro ⟨hlow, hhigh⟩
    have hlow' : 0x41 ≤ c.toNat := UInt32.le_iff_toNat_le.1 hlow
    have hhigh' : c.toNat ≤ 0x5A := UInt32.le_iff_toNat_le.1 hhigh
    simp only [isNameChar, Bool.or_eq_true, beq_iff_eq] at hc
    rcases hc with (hlower | hdigit) | rfl
    · have := isLower_range hlower
      omega
    · have := isDigit_range hdigit
      omega
    · exact absurd hhigh' (by decide)
  rw [Opcode.lowerCase, if_neg hkelvin]
  exact dif_neg hcapital

/-- A name is read as an instruction if it is the mnemonic of one, and as a text if not; either
way the symbol has the name as its text. -/
theorem IsMethodName.wordSymbol {name : String} (hname : IsMethodName name) :
    ∃ kind, (kind = .text ∨ kind = .instruction) ∧
      wordSymbol name.toList = .symbol ⟨kind, name⟩ := by
  have hlower : name.toList.map Opcode.lowerCase = name.toList := by
    conv_rhs => rw [← List.map_id name.toList]
    exact List.map_congr_left fun c hmem => lowerCase_of_isNameChar (hname.isNameChar c hmem)
  unfold Mode.wordSymbol
  rw [String.ofList_toList]
  dsimp only
  cases hop : Opcode.ofMnemonic? name with
  | none =>
    refine ⟨.text, .inl rfl, ?_⟩
    exact if_neg (not_or.2 ⟨hname.ne_true, hname.ne_false⟩)
  | some op =>
    refine ⟨.instruction, .inr rfl, ?_⟩
    have hfound := List.find?_some hop
    rw [hlower, String.ofList_toList] at hfound
    exact congrArg (fun text => Item.symbol ⟨.instruction, text⟩) (of_decide_eq_true hfound)

/-! ## Numbers -/

/-- The parts of a number that hold digits and may be the last of it. -/
def NumberPart.IsDigits : NumberPart → Prop
  | .whole | .fraction | .exponent => True
  | _ => False

theorem step_digits (part : NumberPart) (hpart : part.IsDigits) (seen : List Char) (c : Char)
    (count : Nat) (hc : c.isDigit = true) :
    step (.number part seen) (.run c count) =
      accept (.number part (seen ++ List.replicate count c)) [] := by
  cases part with
  | whole | fraction | exponent => exact if_pos hc
  | sign | exponentMark | exponentSign | suffix => exact hpart.elim

/-- Digits are collected. -/
theorem scans_digits (part : NumberPart) (hpart : part.IsDigits) (seen : List Char)
    {digits : List Char} (hdigits : ∀ c ∈ digits, c.isDigit = true) :
    Scans step (.number part seen) (Token.runs digits) (.number part (seen ++ digits)) [] :=
  Scans.accumulate_of_forall (Mode.number part)
    (fun seen c count hc _ => step_digits part hpart seen c count hc) hdigits

theorem leaves_number (part : NumberPart) (hpart : part.IsDigits) (text : List Char) :
    Leaves (.number part text) [numberSymbol text []] := by
  apply Leaves.of_declined
  cases part with
  | whole | fraction | exponent => rfl
  | sign | exponentMark | exponentSign | suffix => exact hpart.elim

/-- The sign of a written number. -/
def signChars (negative : Bool) : List Char :=
  if negative then ['-'] else []

/-- A number starts with a sign or with a digit. -/
theorem scans_signed {negative : Bool} {first : Char} {rest : List Char} {last : Mode}
    {items : List Item} (hfirst : first.isDigit = true)
    (hrest : Scans step (.number .whole (signChars negative)) (Token.runs (first :: rest)) last items) :
    Scans step .start (Token.runs (signChars negative ++ first :: rest)) last items := by
  cases negative with
  | true =>
    have hsign : step .start (.run '-' 1) = accept (.number .sign ['-']) [] := rfl
    refine Scans.of_taken_char hsign ?_ (Scans.enter (fun count _ => if_pos hfirst) hrest)
    rintro rfl
    cases hfirst
  | false =>
    refine Scans.enter (fun count _ => ?_) hrest
    show stepStart (.run first count) = decline (.number .whole []) []
    rw [stepStart_of_isNameChar (isNameChar_of_isDigit hfirst), if_pos hfirst]

/-- Digits behind a sign, or without one. -/
theorem scans_signedDigits (negative : Bool) {digits : List Char} (hne : digits ≠ [])
    (hdigits : ∀ c ∈ digits, c.isDigit = true) :
    Scans step .start (Token.runs (signChars negative ++ digits))
      (.number .whole (signChars negative ++ digits)) [] := by
  have hscans := scans_digits .whole trivial (signChars negative) hdigits
  obtain ⟨first, rest, rfl⟩ := List.exists_cons_of_ne_nil hne
  exact scans_signed (hdigits first List.mem_cons_self) hscans

/-- The text of an integer, without its type. -/
theorem scans_integer (negative : Bool) (n : Nat) :
    Scans step .start (Token.runs (signChars negative ++ Text.decimalDigits n))
      (.number .whole (signChars negative ++ Text.decimalDigits n)) [] :=
  scans_signedDigits negative (Text.decimalDigits_ne_nil n) fun _ => Text.isDigit_of_mem_decimalDigits

/-- A type behind an integer. -/
theorem scans_suffix (negative : Bool) (n : Nat) {letter : Char}
    (hletter : letter = 'u' ∨ letter = 'i') :
    Scans step .start
      (Token.runs (signChars negative ++ Text.decimalDigits n ++ [letter, '6', '4']))
      (.number (.suffix [letter, '6', '4']) (signChars negative ++ Text.decimalDigits n)) [] := by
  have hlast : (signChars negative ++ Text.decimalDigits n).getLast? ≠ some letter := by
    rw [List.getLast?_append_of_ne_nil _ (Text.decimalDigits_ne_nil n)]
    refine getLast?_ne_of_forall (fun c => Text.isDigit_of_mem_decimalDigits) ?_
    rcases hletter with rfl | rfl <;> decide
  refine (scans_integer negative n).meet hlast ?_
  generalize signChars negative ++ Text.decimalDigits n = text
  have hrest : Scans step (.number (.suffix [letter]) text) (Token.runs ['6', '4'])
      (.number (.suffix [letter, '6', '4']) text) [] := .of_taken_char rfl (by decide) (.of_taken rfl)
  rcases hletter with rfl | rfl
  · exact .of_taken_char rfl (by decide) hrest
  · exact .of_taken_char rfl (by decide) hrest

theorem leaves_suffix (text suffix : List Char) :
    Leaves (.number (.suffix suffix) text) [numberSymbol text suffix] :=
  .of_declined rfl

/-! ### Decimals -/

theorem scans_fraction {seen digits : List Char} (hne : digits ≠ [])
    (hdigits : ∀ c ∈ digits, c.isDigit = true) :
    Scans step (.number .whole seen) (Token.runs ('.' :: digits))
      (.number .fraction (seen ++ '.' :: digits)) [] := by
  obtain ⟨first, rest, rfl⟩ := List.exists_cons_of_ne_nil hne
  have hpoint : step (.number .whole seen) (.run '.' 1) =
      accept (.number .fraction (seen ++ ['.'])) [] := rfl
  have hrest := scans_digits .fraction trivial (seen ++ ['.']) hdigits
  rw [List.append_assoc] at hrest
  refine .of_taken_char hpoint ?_ hrest
  rintro rfl
  exact absurd (hdigits '.' List.mem_cons_self) (by decide)

theorem scans_exponentDigits {part : NumberPart}
    (hpart : part = .exponentMark ∨ part = .exponentSign) (seen : List Char) (n : Nat) :
    Scans step (.number part seen) (Token.runs (Text.decimalDigits n))
      (.number .exponent (seen ++ Text.decimalDigits n)) [] := by
  have hdigits : ∀ c ∈ Text.decimalDigits n, c.isDigit = true :=
    fun c => Text.isDigit_of_mem_decimalDigits
  have hscans := scans_digits .exponent trivial seen hdigits
  obtain ⟨first, rest, hhead, hfirst⟩ := Text.head_decimalDigits n
  rw [hhead] at hscans ⊢
  refine Scans.of_alike (fun count _ => ?_) hscans
  rw [step_digits .exponent trivial seen first count hfirst]
  rcases hpart with rfl | rfl <;> exact if_pos hfirst

theorem scans_exponent {part : NumberPart} (hpart : part = .whole ∨ part = .fraction)
    (seen : List Char) (n : Int) :
    Scans step (.number part seen) (Token.runs ('e' :: (Text.signedDecimal n).toList))
      (.number .exponent (seen ++ 'e' :: (Text.signedDecimal n).toList)) [] := by
  have hmark : step (.number part seen) (.run 'e' 1) =
      accept (.number .exponentMark (seen ++ ['e'])) [] := by
    rcases hpart with rfl | rfl <;> rfl
  obtain ⟨first, rest, hhead, hfirst⟩ := Text.head_decimalDigits n.natAbs
  rw [Text.toList_signedDecimal]
  split
  · have hsign : step (.number .exponentMark (seen ++ ['e'])) (.run '-' 1) =
        accept (.number .exponentSign (seen ++ ['e'] ++ ['-'])) [] := rfl
    have hdigits := scans_exponentDigits (.inr rfl) (seen ++ ['e'] ++ ['-']) n.natAbs
    rw [hhead] at hdigits ⊢
    have hrest := Scans.of_taken_char hsign (by rintro rfl; cases hfirst) hdigits
    simpa using Scans.of_taken_char hmark (by decide) hrest
  · have hdigits := scans_exponentDigits (.inl rfl) (seen ++ ['e']) n.natAbs
    rw [hhead] at hdigits ⊢
    simpa using Scans.of_taken_char hmark (by rintro rfl; cases hfirst) hdigits

theorem scans_mantissa {parts : DecimalParts} (hsound : parts.Sound) (seen : List Char) :
    ∃ part : NumberPart, (part = .whole ∨ part = .fraction) ∧
      Scans step (.number .whole seen) (Token.runs (parts.whole ++ parts.fractionText))
        (.number part (seen ++ (parts.whole ++ parts.fractionText))) [] ∧
      (parts.whole ++ parts.fractionText).getLast? ≠ some 'e' := by
  have hwhole := scans_digits .whole trivial seen hsound.isDigit_whole
  have hne {d : Char} (hd : ¬ d.isDigit = true) : parts.whole.getLast? ≠ some d :=
    getLast?_ne_of_forall hsound.isDigit_whole hd
  have hfractionDigits := hsound.isDigit_fraction
  have hfractionNe := hsound.fraction_ne_nil
  unfold DecimalParts.fractionText
  cases hfraction : parts.fraction with
  | none =>
    rw [List.append_nil]
    exact ⟨.whole, .inl rfl, hwhole, hne (by decide)⟩
  | some digits =>
    rw [hfraction] at hfractionDigits hfractionNe
    have hdigitsNe : digits ≠ [] := fun hnil => hfractionNe (congrArg some hnil)
    refine ⟨.fraction, .inr rfl, ?_, ?_⟩
    · have hall := hwhole.meet (hne (by decide))
        (scans_fraction hdigitsNe hfractionDigits)
      rw [List.append_assoc] at hall
      exact hall
    · obtain ⟨first, rest, rfl⟩ := List.exists_cons_of_ne_nil hdigitsNe
      rw [List.getLast?_append_of_ne_nil _ (by simp), List.getLast?_cons_cons]
      exact getLast?_ne_of_forall hfractionDigits (by decide)

/-- A written decimal is read as a number to its end. -/
theorem scans_decimal {parts : DecimalParts} (hsound : parts.Sound) (seen : List Char) :
    ∃ part : NumberPart, part.IsDigits ∧
      Scans step (.number .whole seen) (Token.runs parts.text) (.number part (seen ++ parts.text)) [] := by
  obtain ⟨part, hpart, hscans, hlast⟩ := scans_mantissa hsound seen
  unfold DecimalParts.text DecimalParts.exponentText
  cases parts.exponent with
  | none =>
    refine ⟨part, ?_, ?_⟩
    · rcases hpart with rfl | rfl <;> trivial
    · simpa using hscans
  | some n =>
    refine ⟨.exponent, trivial, ?_⟩
    have hall := hscans.meet hlast (scans_exponent hpart _ n)
    simpa using hall

/-! ### The symbols of numbers -/

theorem head?_signed {negative : Bool} {first : Char} {rest : List Char}
    (hfirst : first.isDigit = true) :
    (signChars negative ++ first :: rest).head? ≠ some '+' ∧
      ((signChars negative ++ first :: rest).head? = some '-' ↔ negative = true) := by
  have hne {d : Char} (hd : d.isDigit = false) : first ≠ d := by
    rintro rfl
    rw [hfirst] at hd
    cases hd
  cases negative with
  | true => simp [signChars]
  | false => simp [signChars, hne]

theorem numberSymbol_of_kind (suffix : List Char) {text : List Char} {kind : SymbolKind}
    (hplus : text.head? ≠ some '+')
    (hkind : (if suffix.isEmpty then
        if text.any fun c => c == '.' || c == 'e' || c == 'E' then some SymbolKind.float
        else if text.head? = some '-' then some .signed
        else some .number
      else if suffix = "u64".toList then some .number
      else if suffix = "i64".toList then some .signed
      else if suffix = "f64".toList then some .float
      else none) = some kind) :
    numberSymbol text suffix = symbol kind text := by
  unfold numberSymbol
  rw [hkind]
  clear hkind
  dsimp only
  split
  · contradiction
  · exact absurd rfl hplus
  · rename_i heq _
    cases heq
    rfl

theorem isGraphic_of_isDigit {c : Char} (hc : c.isDigit = true) : isGraphic c = true :=
  isGraphic_of_isNameChar (isNameChar_of_isDigit hc)

theorem isGraphic_of_mem_signed {negative : Bool} {text : List Char}
    (htext : ∀ c ∈ text, isGraphic c = true) :
    ∀ c ∈ signChars negative ++ text, isGraphic c = true := by
  intro c hmem
  rcases List.mem_append.1 hmem with hmem | hmem
  · cases negative with
    | true =>
      rw [List.mem_singleton.1 hmem]
      decide
    | false => cases hmem
  · exact htext c hmem

theorem isGraphic_of_mem_decimalDigits {n : Nat} {c : Char} (hmem : c ∈ Text.decimalDigits n) :
    isGraphic c = true :=
  isGraphic_of_isDigit (Text.isDigit_of_mem_decimalDigits hmem)

theorem head?_integer (negative : Bool) (n : Nat) :
    (signChars negative ++ Text.decimalDigits n).head? ≠ some '+' ∧
      ((signChars negative ++ Text.decimalDigits n).head? = some '-' ↔ negative = true) := by
  obtain ⟨first, rest, hhead, hfirst⟩ := Text.head_decimalDigits n
  rw [hhead]
  exact head?_signed hfirst

/-- Digits at the end of a line.  A minus sign makes them a signed number. -/
theorem standsFor_digits (negative : Bool) {digits : List Char} (hne : digits ≠ [])
    (hdigits : ∀ c ∈ digits, c.isDigit = true) :
    StandsFor (signChars negative ++ digits)
      [⟨if negative then .signed else .number, String.ofList (signChars negative ++ digits)⟩] := by
  refine .of_isGraphic ?_ (by simp [hne])
    (isGraphic_of_mem_signed fun c hmem => isGraphic_of_isDigit (hdigits c hmem))
  refine readsAs_of_scans (scans_signedDigits negative hne hdigits) (leaves_number .whole trivial _) ?_
  have hmarks : ¬ ((signChars negative ++ digits).any fun c => c == '.' || c == 'e' || c == 'E') =
      true := by
    simp only [List.any_eq_true, List.mem_append, not_exists, not_and]
    rintro c (hmem | hmem) hmark
    · cases negative with
      | true =>
        obtain rfl := List.mem_singleton.1 hmem
        cases hmark
      | false => cases hmem
    · have hdigit := hdigits c hmem
      simp only [Bool.or_eq_true, beq_iff_eq] at hmark
      rcases hmark with (rfl | rfl) | rfl <;> cases hdigit
  obtain ⟨first, rest, rfl⟩ := List.exists_cons_of_ne_nil hne
  obtain ⟨hplus, hminus⟩ := @head?_signed negative first rest (hdigits first List.mem_cons_self)
  have hkind : numberSymbol (signChars negative ++ first :: rest) [] =
      symbol (if negative then .signed else .number) (signChars negative ++ first :: rest) := by
    refine numberSymbol_of_kind [] hplus ((if_pos rfl).trans ((if_neg hmarks).trans ?_))
    cases negative with
    | true => exact if_pos (hminus.2 rfl)
    | false => exact if_neg (by simpa using hminus)
  rw [hkind]
  rfl

/-- A natural number at the end of a line. -/
theorem standsFor_natural (n : Nat) :
    StandsFor (Text.decimalDigits n) [⟨.number, Text.decimal n⟩] :=
  standsFor_digits false (Text.decimalDigits_ne_nil n) fun _ => Text.isDigit_of_mem_decimalDigits

/-- An unsigned number with its type at the end of a line. -/
theorem standsFor_unsigned (n : Nat) :
    StandsFor (Text.decimalDigits n ++ ['u', '6', '4']) [⟨.number, Text.decimal n⟩] := by
  refine .of_isGraphic ?_ (by simp) ?_
  · refine readsAs_of_scans (scans_suffix false n (.inl rfl)) (leaves_suffix _ _) ?_
    have hkind := numberSymbol_of_kind ['u', '6', '4'] (head?_integer false n).1 rfl
    rw [hkind]
    rfl
  · intro c hmem
    rcases List.mem_append.1 hmem with hmem | hmem
    · exact isGraphic_of_mem_decimalDigits hmem
    · exact List.all_eq_true.1 (show ['u', '6', '4'].all isGraphic = true by decide) c hmem

theorem signChars_append_decimalDigits (n : Int) :
    signChars (decide (n < 0)) ++ Text.decimalDigits n.natAbs = (Text.signedDecimal n).toList := by
  rw [Text.toList_signedDecimal]
  by_cases hn : n < 0 <;> simp [signChars, hn]

/-- A signed number with its type at the end of a line. -/
theorem standsFor_signed (n : Int) :
    StandsFor ((Text.signedDecimal n).toList ++ ['i', '6', '4'])
      [⟨.signed, Text.signedDecimal n⟩] := by
  rw [← signChars_append_decimalDigits]
  refine .of_isGraphic ?_ (by simp) ?_
  · refine readsAs_of_scans (scans_suffix _ _ (.inr rfl)) (leaves_suffix _ _) ?_
    have hkind := numberSymbol_of_kind ['i', '6', '4']
      (head?_integer (decide (n < 0)) n.natAbs).1 rfl
    rw [hkind, signChars_append_decimalDigits, symbol, String.ofList_toList]
    rfl
  · intro c hmem
    rcases List.mem_append.1 hmem with hmem | hmem
    · exact isGraphic_of_mem_signed (fun c => isGraphic_of_mem_decimalDigits) c hmem
    · exact List.all_eq_true.1 (show ['i', '6', '4'].all isGraphic = true by decide) c hmem

theorem isGraphic_of_mem_decimal {parts : DecimalParts} (hsound : parts.Sound) :
    ∀ c ∈ parts.text, isGraphic c = true := by
  have hfraction : ∀ c ∈ parts.fractionText, isGraphic c = true := by
    have hdigits := hsound.isDigit_fraction
    unfold DecimalParts.fractionText
    cases hfraction : parts.fraction with
    | none => simp
    | some digits =>
      rw [hfraction] at hdigits
      intro c hmem
      rcases List.mem_cons.1 hmem with rfl | hmem
      · decide
      · exact isGraphic_of_isDigit (hdigits c hmem)
  have hexponent : ∀ c ∈ parts.exponentText, isGraphic c = true := by
    unfold DecimalParts.exponentText
    cases parts.exponent with
    | none => simp
    | some n =>
      intro c hmem
      rcases List.mem_cons.1 hmem with rfl | hmem
      · decide
      · rw [← signChars_append_decimalDigits] at hmem
        exact isGraphic_of_mem_signed (fun c => isGraphic_of_mem_decimalDigits) c hmem
  intro c hmem
  rcases List.mem_append.1 hmem with hmem | hmem
  · rcases List.mem_append.1 hmem with hmem | hmem
    · exact isGraphic_of_isDigit (hsound.isDigit_whole c hmem)
    · exact hfraction c hmem
  · exact hexponent c hmem

/-- A decimal has a point or an exponent. -/
theorem any_mark_of_sound {parts : DecimalParts} (hsound : parts.Sound) (sign : List Char) :
    ((sign ++ parts.text).any fun c => c == '.' || c == 'e' || c == 'E') = true := by
  rw [List.any_eq_true]
  rcases hsound.marked with hfraction | hexponent
  · obtain ⟨digits, hdigits⟩ := Option.isSome_iff_exists.1 hfraction
    exact ⟨'.', by simp [DecimalParts.text, DecimalParts.fractionText, hdigits], rfl⟩
  · obtain ⟨n, hn⟩ := Option.isSome_iff_exists.1 hexponent
    exact ⟨'e', by simp [DecimalParts.text, DecimalParts.exponentText, hn], rfl⟩

/-- A finite binary number at the end of a line. -/
theorem standsFor_float {x : Binary64} (hfinite : x.rank < Binary64.infinityRank) :
    StandsFor x.text.toList [⟨.float, x.text⟩] := by
  obtain ⟨parts, hsound, _, htext⟩ := Binary64.text_eq hfinite
  have hsigned : x.text.toList = signChars x.isNegative ++ parts.text := by
    rw [htext]
    cases x.isNegative <;> rfl
  have hsymbol : x.text = String.ofList (signChars x.isNegative ++ parts.text) := by
    rw [← hsigned, String.ofList_toList]
  obtain ⟨first, rest, hwhole⟩ := List.exists_cons_of_ne_nil hsound.whole_ne_nil
  have hfirst : first.isDigit = true := hsound.isDigit_whole first (by simp [hwhole])
  have hhead : parts.text = first :: (rest ++ parts.fractionText ++ parts.exponentText) := by
    simp [DecimalParts.text, hwhole]
  obtain ⟨part, hpart, hscans⟩ := scans_decimal hsound (signChars x.isNegative)
  have hkind : numberSymbol (signChars x.isNegative ++ parts.text) [] =
      symbol .float (signChars x.isNegative ++ parts.text) := by
    apply numberSymbol_of_kind
    · rw [hhead]
      exact (head?_signed hfirst).1
    · exact (if_pos rfl).trans (if_pos (any_mark_of_sound hsound _))
  have hstart : Scans step .start (Token.runs (signChars x.isNegative ++ parts.text))
      (.number part (signChars x.isNegative ++ parts.text)) [] := by
    rw [hhead] at hscans ⊢
    exact scans_signed hfirst hscans
  rw [hsigned]
  refine .of_isGraphic ?_ (by simp [hhead])
    (isGraphic_of_mem_signed (isGraphic_of_mem_decimal hsound))
  apply readsAs_of_scans hstart (leaves_number part hpart _)
  rw [hkind, symbol, ← hsymbol]
  rfl

/-! ## Timestamps -/

theorem scans_timestamp {text : List Char} (hshape : Timestamp.shape text ≠ .hopeless) :
    Scans step (.timestamp []) (Token.runs text) (.timestamp ([] ++ text)) [] := by
  refine Scans.accumulate Mode.timestamp fun before d count after _ hsplit => ?_
  -- every beginning of a timestamp can still become one
  have hbeginning : Timestamp.shape ([] ++ before ++ List.replicate count d) ≠ .hopeless := by
    rw [hsplit] at hshape
    exact Timestamp.shape_of_append hshape
  exact if_pos ⟨nofun, hbeginning⟩

theorem leaves_timestamp {text : List Char} (hread : (Timestamp.readChars? text).isSome = true) :
    Leaves (.timestamp text) [symbol .timestamp text] := by
  apply Leaves.of_declined
  have hhopeless : Timestamp.shape (text ++ Token.expand (.run '\n' 1)) = .hopeless :=
    Timestamp.shape_append_lineFeed text
  have hdelimiter : isDelimiter (.run '\n' 1) = true := by decide
  show stepTimestamp text (.run '\n' 1) = _
  rw [stepTimestamp, hhopeless, if_neg (by simp), hdelimiter, hread]
  rfl

/-- A timestamp at the end of a line. -/
theorem standsFor_timestamp {t : Timestamp} (hrange : t.InRange) :
    StandsFor ('@' :: t.text.toList) [⟨.timestamp, t.text⟩] := by
  have hread := Timestamp.readChars?_text hrange
  have hshape : Timestamp.shape t.text.toList ≠ .hopeless := by
    intro hhopeless
    rw [Timestamp.readChars?, if_pos (by simp [hhopeless])] at hread
    cases hread
  have hmark : step .start (.run '@' 1) = accept (.timestamp []) [] := rfl
  have hgraphic : ∀ c ∈ '@' :: t.text.toList, isGraphic c = true := by
    intro c hmem
    rcases List.mem_cons.1 hmem with rfl | hmem
    · decide
    · rcases Timestamp.mem_text hmem with hdigit | hmark
      · exact isGraphic_of_isDigit hdigit
      · exact List.all_eq_true.1 (show ['-', 'T', ':', '.'].all isGraphic = true by decide) c hmark
  have hall : Scans step .start (Token.runs ('@' :: t.text.toList))
      (.timestamp t.text.toList) [] := by
    have hscans := scans_timestamp hshape
    have hmem := @Timestamp.mem_text t
    cases htext : t.text.toList with
    | nil => exact .of_taken hmark
    | cons first rest =>
      rw [htext] at hscans hmem
      refine .of_taken_char hmark ?_ hscans
      rintro rfl
      exact absurd (hmem List.mem_cons_self) (by decide)
  refine .of_isGraphic ?_ (by simp) hgraphic
  apply readsAs_of_scans hall (leaves_timestamp (by rw [hread]; rfl))
  simp [symbol]

/-! ## Comments -/

/-- A comment stands for nothing. -/
theorem standsFor_comment {text : List Char} (hbreak : '\n' ∉ text)
    (hlast : text.getLast? ≠ some '\r') : StandsFor (';' :: text) [] where
  readsAs := by
    -- the first run is that of the semicolon; from there on everything is skipped
    have hskipped : Scans step .comment (Token.runs (';' :: text)) .comment [] := by
      have hcollects (seen : List Char) (c : Char) (count : Nat) (hc : c ≠ '\n')
          (_ : 0 < count) : Scans.Collects step (fun _ => Mode.comment) seen c count :=
        if_neg (by simp [Token.isRunOf, hc])
      have htext : ∀ c ∈ ';' :: text, c ≠ '\n' := by
        rintro c hmem rfl
        rcases List.mem_cons.1 hmem with hmem | hmem
        · exact absurd hmem (by decide)
        · exact hbreak hmem
      exact @Scans.accumulate_of_forall _ _ (fun _ => Mode.comment) _ hcollects [] _ htext
    have hscans : Scans step .start (Token.runs (';' :: text)) .comment [] := by
      refine Scans.of_alike (fun count _ => ?_) hskipped
      rfl
    have hleaves : Leaves .comment [] := .of_declined rfl
    exact readsAs_of_scans hscans hleaves rfl
  noBreak := by simpa using hbreak
  head := ⟨';', text, rfl, by decide⟩
  last := by
    cases text with
    | nil => simp
    | cons first rest => rwa [List.getLast?_cons_cons]

end Docpress.Assembly
