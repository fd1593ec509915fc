import Docpress.Proofs.HeldCharacters
import Docpress.Proofs.LineNumbering
import Docpress.Proofs.Reports

/-!
# Labels and references to them

A word with a colon behind it is a label.  Whatever the scanner took the word for at first, it holds
all characters of the word when it comes to the colon, and without the colon it would make a word of
them (`Mode.exists_namesLabel`).  Therefore a jump can refer to a label by its spelling, unless the
word means something else without a colon: a truth value, or an instruction, which goes by its
mnemonic in small letters (`assemble_labelReference`).
-/

namespace Docpress.Assembly

namespace Mode

/-! ## Labels -/

section

variable {mode next last : Mode} {c : Char} {count : Nat} {items : List Item} {label : List Char}

theorem isDelimiter_colon (count : Nat) : isDelimiter (.run ':' count) = true := by
  show (Text.isBlank ':' || [',', ';', ':', '(', ')'].contains ':') = true
  decide

theorem leaveNumber_colon (text suffix : List Char) (count : Nat) :
    leaveNumber text suffix (.run ':' count) = decline .start [numberSymbol text suffix] :=
  if_pos (isDelimiter_colon count)

/-- What becomes of the held characters at a colon that is not taken: they are handed on, or they
go on as a word, as they do at the end of a line. -/
inductive AtColon (mode : Mode) (answer : Scan Mode) : Prop where
  | takes (htaken : answer.taken = true)
  | leaves (hnext : answer.next.held = [])
  | passes (hanswer : answer = decline (.word mode.held) [])
      (hlineEnd : ∀ token symbol, EndsLine token symbol →
        step mode token = decline (.word mode.held) [])

theorem atColon_number (part : NumberPart) (text : List Char) (count : Nat) :
    AtColon (.number part text) (stepNumber part text (.run ':' count)) := by
  have hdigit : ':'.isDigit = false := by decide
  have hletter : ':'.isAlphanum = false := by decide
  cases part with
  | exponentMark | exponentSign =>
    refine .passes ?_ fun token symbol hends => step_exponent_lineEnd (by simp) hends text
    simp [stepNumber, hdigit, held]
  | sign => exact .leaves (by simp [stepNumber, hdigit, decline, held])
  | suffix suffix =>
    exact .leaves (by simp [stepNumber, hletter, leaveNumber_colon, decline, held])
  | whole | fraction | exponent =>
    exact .leaves (by simp [stepNumber, stepDigits, hdigit, leaveNumber_colon, decline, held])

theorem atColon_timestamp (text : List Char) (count : Nat) :
    AtColon (.timestamp text) (stepTimestamp text (.run ':' count)) := by
  unfold stepTimestamp
  rw [isDelimiter_colon, Bool.true_and]
  dsimp only
  split_ifs with hshape hread
  · exact .takes rfl
  · exact .leaves rfl
  · exact .passes rfl fun token symbol hends =>
      step_timestamp_lineEnd hends (by simpa using hread)

theorem atColon_color (text : List Char) (count : Nat) :
    AtColon (.color text) (stepColor text (.run ':' count)) := by
  have hhex : isHexDigits (.run ':' count) = false := by
    show Text.isHexDigit ':' = false
    decide
  unfold stepColor
  rw [hhex, isDelimiter_colon, Bool.true_and, if_neg (by simp)]
  split_ifs with hread
  · exact .leaves rfl
  · exact .passes rfl fun token symbol hends => step_color_lineEnd hends (by simpa using hread)

theorem atColon_step (mode : Mode) (count : Nat) : AtColon mode (step mode (.run ':' count)) := by
  have hword : isWordChar ':' = false := by decide
  cases mode with
  | start =>
    have hblank : Text.isBlank ':' = false := by decide
    have hdigit : ':'.isDigit = false := by decide
    exact .takes (by simp [step, stepStart, hblank, hdigit, hword, accept])
  | comment => exact .takes (by simp [step, stepComment, Token.isRunOf, accept])
  | word text =>
    by_cases htext : text = []
    · exact .leaves (by simp [step, stepWord, continuesWord, hword, htext, decline, held])
    · exact .takes (by simp [step, stepWord, continuesWord, hword, htext, Token.isRunOf, accept])
  | directive name =>
    have hname : continuesDirective (.run ':' count) = false := by
      show (':'.isAlphanum || ':' == '_') = false
      decide
    simp only [step, stepDirective, hname, Bool.false_eq_true, if_false]
    split
    · exact .leaves rfl
    · exact .leaves rfl
  | number part text => exact atColon_number part text count
  | timestamp text => exact atColon_timestamp text count
  | color text => exact atColon_color text count
  | string tagged text =>
    have hquote : ':' ≠ quoteMark tagged := by cases tagged <;> decide
    exact .takes (by simp [step, stepString, hquote, accept])
  | escape tagged text => exact .leaves rfl

/-- A label is what a word was read of, and the colon takes it. -/
theorem label_of_mem_step (hmem : symbol .label label ∈ (step mode (.run c count)).items) :
    ∃ text, mode = .word text ∧ text ≠ [] ∧ c = ':' ∧
      step mode (.run c count) = accept .start [symbol .label text] := by
  have hnot {items : List Item} (hplain : Plain items) : symbol .label label ∉ items := by
    intro hmem
    obtain ⟨_, heq, hkind, -⟩ := hplain _ hmem
    cases heq
    exact hkind rfl
  by_cases hword : ∃ text, mode = .word text
  · obtain ⟨text, rfl⟩ := hword
    rcases plain_or_label_stepWord c count text with hplain | ⟨rfl, hlabel⟩
    · exact absurd hmem (hnot hplain)
    · refine ⟨text, rfl, ?_, rfl, hlabel⟩
      rintro rfl
      cases hlabel
  · exact absurd hmem (hnot (plain_step c count fun text hmode => hword ⟨text, hmode⟩))

/-- The run makes a label of what the mode holds, which the end of a line would make a word. -/
structure MakesLabel (mode : Mode) (c : Char) (last : Mode) (items : List Item) : Prop where
  colon : c = ':'
  held_ne_nil : mode.held ≠ []
  last_eq : last = .start
  items_eq : items = [symbol .label mode.held]
  ends : Ends mode [wordSymbol mode.held]

theorem makesLabel_of_scans (hscans : Scans step mode [.run c count] last items)
    (hmem : symbol .label label ∈ items) : MakesLabel mode c last items := by
  generalize htokens : [Token.run c count] = tokens at hscans
  induction hscans with
  | nil => simp at hmem
  | @taken state next last token rest items more hscan hrest _ =>
    obtain ⟨rfl, rfl⟩ := List.cons.inj htokens
    cases hrest
    rw [List.append_nil] at hmem ⊢
    have hitems : items = (step state (.run c count)).items := by rw [hscan]
    rw [hitems] at hmem
    obtain ⟨text, rfl, htext, rfl, hlabel⟩ := label_of_mem_step hmem
    cases hscan.symm.trans hlabel
    exact ⟨rfl, htext, rfl, rfl, ends_word htext⟩
  | @declined state next last token rest items more hscan _ ih =>
    obtain ⟨rfl, rfl⟩ := List.cons.inj htokens
    rcases List.mem_append.1 hmem with hmem | hmem
    · have hitems : items = (step state (.run c count)).items := by rw [hscan]
      rw [hitems] at hmem
      obtain ⟨text, -, -, -, hlabel⟩ := label_of_mem_step hmem
      cases hscan.symm.trans hlabel
    · obtain ⟨rfl, hheld, rfl, hmore, hends⟩ := ih hmem rfl
      have hcolon := atColon_step state count
      rw [hscan] at hcolon
      cases hcolon with
      | takes htaken => cases htaken
      | leaves hnext => exact absurd hnext hheld
      | passes hanswer hlineEnd =>
        cases hanswer
        exact ⟨rfl, hheld, rfl, hmore, .of_declined hlineEnd hends⟩

theorem MakesLabel.eq_held (hmakes : MakesLabel mode c last items)
    (hmem : symbol .label label ∈ items) : label = mode.held := by
  rw [hmakes.items_eq, List.mem_singleton] at hmem
  exact String.ofList_injective (by simpa [symbol] using hmem)

/-- No line end makes a label. -/
theorem label_not_mem_lineEnd {token : Token} {lineEnd : Symbol} (hends : EndsLine token lineEnd)
    (hend : lineEnd.kind ≠ .label) (hscans : Scans step mode [token] last items) :
    symbol .label label ∉ items := by
  obtain ⟨more, hmode⟩ := mode.exists_ends
  obtain ⟨-, rfl⟩ := hscans.unique (hmode token lineEnd hends)
  intro hmem
  rcases List.mem_append.1 hmem with hmem | hmem
  · have hbreak := hmode _ _ (.breaks Nat.one_pos)
    have hcolon := (makesLabel_of_scans hbreak (List.mem_append_left _ hmem)).colon
    exact absurd hcolon (by decide)
  · cases List.mem_singleton.1 hmem
    exact hend rfl

/-- A label has fewer characters than what was read, for there is the colon too. -/
theorem length_label_lt {tokens : List Token} (hscans : Scans step mode tokens last items)
    (htokens : ∀ token ∈ tokens, ∃ c count, 0 < count ∧ token = .run c count)
    (hmode : ∀ other, Begun other mode) (hmem : symbol .label label ∈ items) :
    label.length < mode.held.length + (tokens.flatMap Token.expand).length := by
  induction tokens generalizing mode items with
  | nil =>
    cases hscans
    simp at hmem
  | cons token tokens ih =>
    have hsplit : token :: tokens = [token] ++ tokens := rfl
    rw [hsplit] at hscans
    obtain ⟨between, before, after, hfirst, hrest, rfl⟩ := hscans.split
    rw [List.forall_mem_cons] at htokens
    obtain ⟨c, count, hcount, rfl⟩ := htokens.1
    rw [List.flatMap_cons, List.length_append, Token.expand, List.length_replicate]
    rcases List.mem_append.1 hmem with hmem | hmem
    · rw [(makesLabel_of_scans hfirst hmem).eq_held hmem]
      omega
    · obtain ⟨hcarries, hbetween⟩ := carries_of_scans hfirst (by simpa using hcount) hmode
      have hlength := hcarries.length_le
      rw [List.flatMap_singleton, Token.expand, List.length_replicate] at hlength
      have hlabel := ih hrest htokens.2 hbetween hmem
      omega

theorem length_label_lt_of_text {text : List Char}
    (hscans : Scans step .start (Token.runs text) last items)
    (hmem : symbol .label label ∈ items) : label.length < text.length := by
  have hlength := length_label_lt hscans (fun _ hmem => Token.exists_of_mem_runs hmem)
    (fun _ => trivial) hmem
  rw [Token.flatMap_expand_runs] at hlength
  exact Nat.lt_of_lt_of_eq hlength (Nat.zero_add _)

/-- The word is read into a mode that holds all of it: a colon makes it a label, and the end of a
line a word. -/
structure NamesLabel (word : List Char) (mode : Mode) : Prop where
  scans : Scans step .start (Token.runs word) mode []
  ne_nil : word ≠ []
  noGap : ∀ c ∈ word, isGap c = false
  last : word.getLast? ≠ some ':'
  label : Scans step mode [.run ':' 1] .start [symbol .label word]
  ends : Ends mode [wordSymbol word]

/-- A word that is scanned as a label before a colon. -/
theorem exists_namesLabel {word : List Char}
    (hscans : Scans step .start (Token.runs (dropReturns (word ++ [':'])) ++ [Token.endOfText]) last
      items) (hmem : symbol .label word ∈ items) : ∃ mode, NamesLabel word mode := by
  -- all colons at the end are one token
  obtain ⟨count, front, hfront, hlast⟩ := Token.exists_trailing_run ':' (dropReturns word)
  have htext : dropReturns (word ++ [':']) = front ++ List.replicate (count + 1) ':' ++ [] := by
    rw [dropReturns_append (by simp), hfront, List.append_nil, List.append_assoc,
      List.replicate_succ']
    rfl
  rw [htext, Token.runs_around hlast (by simp) (Nat.succ_pos count)] at hscans
  obtain ⟨_, _, _, hbody, hend, rfl⟩ := hscans.split
  obtain ⟨mode, before, after, hbefore, hcolon, rfl⟩ := hbody.split
  have hlength : front.length + count ≤ word.length := by
    simpa [hfront] using (dropReturns_sublist word).length_le
  -- the label is handed on at the last colon: before it too few characters were read
  have hlabel : symbol .label word ∈ after := by
    rcases List.mem_append.1 hmem with hmem | hmem
    · rcases List.mem_append.1 hmem with hmem | hmem
      · have hlt := length_label_lt_of_text hbefore hmem
        omega
      · exact hmem
    · exact absurd hmem (label_not_mem_lineEnd .endOfText (by decide) hend)
  have hmakes := makesLabel_of_scans hcolon hlabel
  have hheld := hmakes.eq_held hlabel
  -- and all characters before it are held
  obtain ⟨hle, hall⟩ := held_of_text hbefore
  rw [← hheld] at hle hall
  obtain rfl : count = 0 := by omega
  obtain ⟨rfl, rfl, hgaps⟩ := hall (by omega)
  refine ⟨mode, hbefore, ?_, hgaps, hlast, ?_, ?_⟩
  · rw [hheld]
    exact hmakes.held_ne_nil
  · rw [hmakes.last_eq, hmakes.items_eq, ← hheld] at hcolon
    exact hcolon
  · rw [hheld]
    exact hmakes.ends

end

end Mode

open Mode

/-! ## Lines -/

section

variable {word : List Char} {mode : Mode} {symbol : Symbol}

/-- The name of a label, at the end of a line. -/
theorem Mode.NamesLabel.standsFor (hnames : NamesLabel word mode)
    (hsymbol : wordSymbol word = .symbol symbol) : StandsFor word [symbol] := by
  have hleaves : Leaves mode [wordSymbol word] := hnames.ends _ _ (.breaks Nat.one_pos)
  refine .of_noGap (readsAs_of_scans hnames.scans hleaves ?_) hnames.ne_nil hnames.noGap
  rw [hsymbol]
  rfl

/-- A label that is alone on its line. -/
theorem Mode.NamesLabel.standsFor_label (hnames : NamesLabel word mode) :
    StandsFor (word ++ [':']) [⟨.label, String.ofList word⟩] := by
  have hgaps : ∀ c ∈ word ++ [':'], isGap c = false :=
    List.forall_mem_append.2 ⟨hnames.noGap, List.forall_mem_singleton.2 rfl⟩
  refine .of_noGap ?_ (by simp) hgaps
  rw [ReadsAs, Token.runs_append hnames.last]
  exact (hnames.scans.append hnames.label).append (.of_taken rfl)

/-- A label on one line, and an instruction that refers to it on the next. -/
def referenceText (word : List Char) (op : Opcode) : List Char :=
  word ++ [':'] ++ '\n' :: (op.mnemonic.toList ++ ' ' :: word ++ ['\n'])

/-- The symbols of the two lines, if the name stands for the symbol. -/
def referenceSymbols (word : List Char) (op : Opcode) (symbol : Symbol) : List Symbol :=
  [⟨.label, String.ofList word⟩, .newline] ++ [⟨.instruction, op.mnemonic⟩, symbol] ++ [.newline]

theorem noMarks_reference (word : List Char) (op : Opcode) (hmark : symbol.kind ≠ .lineMark) :
    ∀ other ∈ referenceSymbols word op symbol ++ [Symbol.endOfData], other.kind ≠ .lineMark := by
  simp [referenceSymbols, hmark, Symbol.newline, Symbol.endOfData]

theorem scans_reference (hnames : NamesLabel word mode) (hsymbol : wordSymbol word = .symbol symbol)
    (op : Opcode) :
    Scans step .start (Token.runs (dropReturns (referenceText word op)) ++ [Token.endOfText]) .start
      ((referenceSymbols word op symbol ++ [Symbol.endOfData]).map .symbol) := by
  have hlabel := hnames.standsFor_label
  have hjump :=
    (hnames.standsFor hsymbol).behind_word (isWord_mnemonic op) (wordSymbol_mnemonic op)
  have hlast : Scans step .start (Token.runs []) .start [] := .nil _
  have hlines := hlabel.scans_append (hjump.head?_append _) (hjump.scans_append (by simp) hlast)
  rw [referenceText, dropReturns_line hlabel.noBreak hlabel.last,
    dropReturns_line hjump.noBreak hjump.last]
  have hend : step .start .endOfText = accept .start [.symbol .endOfData] := rfl
  exact hlines.append (.of_taken hend)

end

/-! ## Layout -/

/-- A label at the start of a program, and a jump.  The jump goes to the start of the program even
if it is to another label, which is reported. -/
theorem ofStatements_reference {decls : List (Decl Statement)} {name target : String} {op : Opcode}
    (hnodes : decls.map Decl.node = [.label name, .jump op target])
    (diagnostics : List Diagnostic) :
    (Program.ofStatements decls diagnostics).labels = ⟨[(name, 0)]⟩ ∧
      (Program.ofStatements decls diagnostics).objects = [.op op, .u64 0] ∧
      ((Program.ofStatements decls diagnostics).diagnostics = [] ↔
        diagnostics = [] ∧ target = name) := by
  obtain ⟨⟨_, start⟩, _, rfl, rfl, hrest⟩ := List.map_eq_cons_iff.1 hnodes
  obtain ⟨⟨_, position⟩, _, rfl, rfl, hnil⟩ := List.map_eq_cons_iff.1 hrest
  obtain rfl := List.map_eq_nil_iff.1 hnil
  have hlabels : labelsOf [⟨.label name, start⟩, ⟨.jump op target, position⟩] =
      (⟨[(name, 0)]⟩, []) := rfl
  rw [Program.ofStatements, hlabels]
  by_cases htarget : target = name
  · have hlookup : (⟨[(name, 0)]⟩ : Labels).lookup? name = some 0 := by simp [Labels.lookup?]
    simp [objectsOf, Statement.objects, unresolved, htarget, hlookup]
  · have hlookup : (⟨[(name, 0)]⟩ : Labels).lookup? target = none := by
      simp [Labels.lookup?, List.lookup_cons, beq_false_of_ne htarget]
    simp [objectsOf, Statement.objects, unresolved, htarget, hlookup]

/-- A program is laid out from its statements. -/
theorem eq_ofStatements_of_assemble {file text : String} {retryLimit : Nat}
    {functions : FunctionTable} {program : Program}
    (hassemble : assemble file text retryLimit functions = .ok program) :
    ∃ diagnostics, program = .ofStatements program.decls diagnostics := by
  unfold assemble at hassemble
  cases hparse : parse file text retryLimit functions with
  | error fault =>
    rw [hparse] at hassemble
    cases hassemble
  | ok parsed =>
    rw [hparse] at hassemble
    cases hassemble
    exact ⟨parsed.2, rfl⟩

/-! ## References -/

section

variable {word : List Char} {mode : Mode} {symbol : Symbol} {op : Opcode} {text : String}
  {retryLimit : Nat}

/-- A name that the instruction takes. -/
theorem assemble_reference (hnames : NamesLabel word mode)
    (hsymbol : wordSymbol word = .symbol symbol)
    (hkind : symbol.kind = .text ∨ symbol.kind = .instruction) (hname : symbol.text ≠ "")
    (hop : op.operand = .label) (htext : text.toList = referenceText word op) (file : String)
    (hlimit : 6 ≤ retryLimit) (functions : FunctionTable) :
    ∃ program, assemble file text retryLimit functions = .ok program ∧
      program.labels = ⟨[(String.ofList word, 0)]⟩ ∧ program.objects = [.op op, .u64 0] ∧
      (program.diagnostics = [] ↔ symbol.text = String.ofList word) := by
  have hscans := scans_reference hnames hsymbol op
  obtain ⟨items, _, raw, hlex, hraw, hitems⟩ := lex_eq_scans Mode.patient .start text
  rw [htext] at hraw
  obtain ⟨-, rfl⟩ := hraw.unique hscans
  have hdeclares : Parser.Declares functions retryLimit [⟨.instruction, op.mnemonic⟩, symbol]
      [.jump op symbol.text] := Parser.declares_jump hlimit hop hkind hname
  have hall : Parser.FeedsAll functions retryLimit (referenceSymbols word op symbol)
      ⟨[.body], [], []⟩ (Parser.atLine [.label (String.ofList word), .jump op symbol.text]) := by
    rw [referenceSymbols, List.append_assoc]
    exact (Parser.feedsAll_firstLabel hlimit _).append (hdeclares.feedsAll _)
  have hmark : symbol.kind ≠ .lineMark := by
    rcases hkind with hkind | hkind <;> simp [hkind]
  rw [unmarked_symbols (noMarks_reference word op hmark)] at hitems
  obtain ⟨decls, hparse, hnodes⟩ := parseItems_of_feedsAll hlimit hall hitems file
  obtain ⟨hlabels, hobjects, hdiagnostics⟩ := ofStatements_reference hnodes []
  refine ⟨.ofStatements decls [], ?_, hlabels, hobjects, by simpa using hdiagnostics⟩
  rw [assemble, parse, lex, hlex, ok_bind, hparse, ok_bind]
  rfl

/-- A last line with a truth value in place of a name. -/
theorem Parser.foldlM_truthValueLine {parser : Parser} (hname : WantsName op) (value : String)
    (hready : Ready parser) (hlimit : 6 ≤ parser.retryLimit)
    (hstates : parser.states = [.lines, .body]) (hstack : parser.draft.stack = []) :
    ∃ ended, ([⟨.instruction, op.mnemonic⟩, ⟨.bool, value⟩, .newline, .endOfData].map
        Item.symbol).foldlM feedItem parser = .ok ended ∧
      ended.draft.nodes = parser.draft.nodes ++ [.ofOpcode op] ∧
      parser.diagnostics.size < ended.diagnostics.size := by
  have hskipped := foldlM_truthValue hname value hready hlimit hstates hstack
  obtain ⟨_, hreports, hreported⟩ := reports_truthValue hname value parser hready hlimit hstates hstack
  cases hreports.symm.trans hskipped
  obtain ⟨hready', hkeeps⟩ := keeps_of_foldlM hready hlimit hskipped
  rw [← hkeeps.retryLimit] at hlimit
  have hline := feed_of_takes hready' hlimit (Between.takes_newline .skip)
  obtain ⟨ended, hended, hnodes⟩ := foldlM_trailing hready' hlimit nofun hline 1
  obtain ⟨-, hkeeps'⟩ := keeps_of_foldlM hready' hlimit hended
  refine ⟨ended, ?_, ?_, Nat.lt_of_lt_of_le hreported hkeeps'.diagnostics⟩
  · have hsplit : ([⟨.instruction, op.mnemonic⟩, ⟨.bool, value⟩, .newline, .endOfData].map
        Item.symbol) = [⟨.instruction, op.mnemonic⟩, ⟨.bool, value⟩].map Item.symbol ++
          (breakItems 1 ++ [Item.symbol .endOfData]) := rfl
    rw [hsplit, List.foldlM_append]
    exact (congrArg (· >>= _) hskipped).trans hended
  · rw [hnodes]
    show (parser.draft.decls.push _).toList.map Decl.node = _
    rw [Array.toList_push, List.map_append]
    rfl

/-- A truth value, which the instruction does not take for a name. -/
theorem assemble_truthValue (hnames : NamesLabel word mode) {value : String}
    (hsymbol : wordSymbol word = .symbol ⟨.bool, value⟩) (hop : op.operand = .label)
    (htext : text.toList = referenceText word op) (file : String) (hlimit : 6 ≤ retryLimit)
    (functions : FunctionTable) :
    ∃ program, assemble file text retryLimit functions = .ok program ∧
      program.labels = ⟨[(String.ofList word, 0)]⟩ ∧ program.objects = [.op op, .u64 0] ∧
      program.diagnostics ≠ [] := by
  have hscans := scans_reference hnames hsymbol op
  rw [← htext] at hscans
  obtain ⟨program, hassemble⟩ := exists_assemble_of_noDirective hscans
    (by simp [referenceSymbols, Symbol.newline, Symbol.endOfData]) file retryLimit functions
  obtain ⟨items, parser, hitems, hfold, hnodes, hsize⟩ :=
    Parser.exists_run_of_assemble hscans hassemble
  -- the label, and then the instruction on the next line
  have hlabel : Parser.FeedsAll functions retryLimit
      [⟨.label, String.ofList word⟩, .newline] ⟨[.body], [], []⟩
      (Parser.atLine [.label (String.ofList word)]) := Parser.feedsAll_firstLabel hlimit _
  have hmarks : ∀ other ∈ [⟨.label, String.ofList word⟩, Symbol.newline],
      other.kind ≠ .lineMark := by simp [Symbol.newline]
  obtain ⟨line, hline, hshows⟩ :=
    hlabel.items hlimit (unmarked_symbols hmarks) (Parser.shows_start file)
  obtain ⟨hready, -⟩ :=
    Parser.keeps_of_foldlM (Parser.ready_start file retryLimit functions) hlimit hline
  rw [← hshows.retryLimit_eq] at hlimit
  obtain ⟨ended, hended, hdeclared, hreported⟩ := Parser.foldlM_truthValueLine (.inr hop) value
    hready hlimit hshows.states_eq (List.map_eq_nil_iff.1 hshows.stack_eq)
  have hfollows : Parser.Follows [] parser ended := by
    refine Parser.foldlM_follows hitems (.refl _) _ _ hfold ?_
    rw [referenceSymbols, List.append_assoc, List.append_assoc, List.map_append,
      List.foldlM_append, hline, ok_bind]
    exact hended
  have hsize' := hfollows.diagnostics
  obtain ⟨diagnostics, hprogram⟩ := eq_ofStatements_of_assemble hassemble
  have hstatements : program.decls.map Decl.node =
      [.label (String.ofList word), .jump op ""] := by
    have hopen : Statement.ofOpcode op = .jump op "" := by simp [Statement.ofOpcode, hop]
    rw [hnodes, hfollows.draft.nodes_eq, List.nil_append, hdeclared, Draft.nodes, hshows.nodes_eq,
      hopen]
    rfl
  obtain ⟨hlabels, hobjects, -⟩ := ofStatements_reference hstatements diagnostics
  rw [← hprogram] at hlabels hobjects
  refine ⟨program, hassemble, hlabels, hobjects, List.ne_nil_of_length_pos ?_⟩
  omega

end

/-- A word that is lexed as a label before a colon. -/
theorem exists_namesLabel_of_lex {word : String} {items : List Item}
    (hlex : lex (word ++ ":") = .ok items) (hmem : .symbol ⟨.label, word⟩ ∈ items) :
    ∃ mode, NamesLabel word.toList mode := by
  obtain ⟨items', last, raw, hlex', hscans, hitems⟩ :=
    lex_eq_scans Mode.patient .start (word ++ ":")
  cases hlex.symm.trans hlex'
  have hlabel : Mode.symbol .label word.toList = .symbol ⟨.label, word⟩ := by
    simp [Mode.symbol]
  have hraw : .symbol ⟨.label, word⟩ ∈ unmarked raw := by
    rw [← hitems]
    exact List.mem_filter.2 ⟨hmem, rfl⟩
  rw [String.toList_append] at hscans
  exact exists_namesLabel hscans (hlabel ▸ List.mem_of_mem_filter hraw)

/-- A label at the start of a program, and a jump to it on the next line, are assembled into the
jump to offset 0.  Something is reported exactly if the word is a truth value, or a mnemonic that is
not written in small letters: then the jump does not refer to the label by its spelling. -/
theorem assemble_labelReference {word : String}
    (hlabel : ∃ items, lex (word ++ ":") = .ok items ∧ .symbol ⟨.label, word⟩ ∈ items)
    {op : Opcode} (hop : op.operand = .label) (file : String) {retryLimit : Nat}
    (hlimit : 6 ≤ retryLimit) (functions : FunctionTable) :
    ∃ program,
      assemble file (word ++ ":\n" ++ op.mnemonic ++ " " ++ word ++ "\n") retryLimit functions =
        .ok program ∧
      program.labels = ⟨[(word, 0)]⟩ ∧ program.objects = [.op op, .u64 0] ∧
      (program.diagnostics = [] ↔ word ≠ "true" ∧ word ≠ "false" ∧
        ∀ other, Opcode.ofMnemonic? word = some other → other.mnemonic = word) := by
  obtain ⟨items, hlex, hmem⟩ := hlabel
  obtain ⟨mode, hnames⟩ := exists_namesLabel_of_lex hlex hmem
  have htext : (word ++ ":\n" ++ op.mnemonic ++ " " ++ word ++ "\n").toList =
      referenceText word.toList op := by
    simp [referenceText]
  have hword : String.ofList word.toList = word := String.ofList_toList
  cases hmnemonic : Opcode.ofMnemonic? word with
  | some other =>
    have hsymbol : wordSymbol word.toList = .symbol ⟨.instruction, other.mnemonic⟩ := by
      simp [wordSymbol, hmnemonic]
    have hname : other.mnemonic ≠ "" := by cases other <;> decide
    obtain ⟨program, hassemble, hlabels, hobjects, hdiagnostics⟩ :=
      assemble_reference hnames hsymbol (.inr rfl) hname hop htext file hlimit functions
    rw [hword] at hlabels hdiagnostics
    refine ⟨program, hassemble, hlabels, hobjects, hdiagnostics.trans ?_⟩
    have hvalue {value : String} (hvalue : Opcode.ofMnemonic? value = none) : word ≠ value := by
      rintro rfl
      simp [hvalue] at hmnemonic
    have htrue : word ≠ "true" := hvalue (by decide)
    have hfalse : word ≠ "false" := hvalue (by decide)
    simp [htrue, hfalse]
  | none =>
    by_cases hvalue : word = "true" ∨ word = "false"
    · have hsymbol : wordSymbol word.toList = .symbol ⟨.bool, word⟩ := by
        simp [wordSymbol, hmnemonic, hvalue]
      obtain ⟨program, hassemble, hlabels, hobjects, hdiagnostics⟩ :=
        assemble_truthValue hnames hsymbol hop htext file hlimit functions
      rw [hword] at hlabels
      refine ⟨program, hassemble, hlabels, hobjects, iff_of_false hdiagnostics ?_⟩
      rintro ⟨htrue, hfalse, -⟩
      exact hvalue.elim htrue hfalse
    · have hsymbol : wordSymbol word.toList = .symbol ⟨.text, word⟩ := by
        simp [wordSymbol, hmnemonic, hvalue]
      have hname : word ≠ "" := by
        rintro rfl
        exact hnames.ne_nil rfl
      obtain ⟨program, hassemble, hlabels, hobjects, hdiagnostics⟩ :=
        assemble_reference hnames hsymbol (.inl rfl) hname hop htext file hlimit functions
      rw [hword] at hlabels hdiagnostics
      rw [not_or] at hvalue
      exact ⟨program, hassemble, hlabels, hobjects,
        iff_of_true (hdiagnostics.2 rfl) ⟨hvalue.1, hvalue.2, by simp⟩⟩

/-- A label that the scanner takes for a number up to its last character. -/
theorem assemble_reference_brokenNumber :
    (∃ items, lex ("1e-" ++ ":") = .ok items ∧ .symbol ⟨.label, "1e-"⟩ ∈ items) ∧
    Opcode.call.operand = .label ∧ 6 ≤ 6 ∧
    ∃ program, assemble "a" ("1e-" ++ ":\n" ++ "call" ++ " " ++ "1e-" ++ "\n") 6 {} = .ok program ∧
      program.labels = ⟨[("1e-", 0)]⟩ ∧ program.objects = [.op .call, .u64 0] ∧
      program.diagnostics = [] := by
  have hlabel : ∃ items, lex ("1e-" ++ ":") = .ok items ∧ .symbol ⟨.label, "1e-"⟩ ∈ items :=
    ⟨[.symbol (.lineMark 1), .symbol ⟨.label, "1e-"⟩, .symbol .endOfData], by decide +kernel,
      by decide⟩
  obtain ⟨program, hassemble, hlabels, hobjects, hdiagnostics⟩ :=
    assemble_labelReference hlabel (rfl : Opcode.call.operand = .label) "a" (Nat.le_refl 6) {}
  have hmnemonic : Opcode.ofMnemonic? "1e-" = none := by decide
  refine ⟨hlabel, rfl, Nat.le_refl 6, program, hassemble, hlabels, hobjects, hdiagnostics.2 ?_⟩
  exact ⟨by decide, by decide, by simp [hmnemonic]⟩

/-- A label in capital letters that a jump does not find by its spelling. -/
theorem assemble_capitalLabel :
    lex "PUSH:" = .ok [.symbol (.lineMark 1), .symbol ⟨.label, "PUSH"⟩, .symbol .endOfData] ∧
    Opcode.ja.operand = .label ∧
    (assemble "t.asm" "PUSH:\nja PUSH\n" 1024 {}).map Program.labels = .ok ⟨[("PUSH", 0)]⟩ ∧
    (assemble "t.asm" "PUSH:\nja PUSH\n" 1024 {}).map Program.diagnostics =
      .ok [⟨⟨"t.asm", 2⟩, .unresolvedLabel "push"⟩] := by
  decide +kernel

end Docpress.Assembly
