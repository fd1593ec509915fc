import Docpress.Proofs.AssemblyText
import Docpress.Proofs.LineComposition

/-!
# Lines that are reported

Whatever is wrong with the lines before it, the parser of assembly text comes to a line as it
comes to the first one.  Therefore one line is enough for a diagnostic: if its symbols have the
parser report something (`Reports`), a text with the line in it is not assembled without
diagnostics (`diagnostics_of_reports`).

One such line is an instruction that wants a name, with a truth value behind it
(`reports_truthValue`).
-/

namespace Docpress.Assembly

/-! ## Scanning -/

/-- A line is read in the same way whatever ends it. -/
theorem StandsFor.scans_of_ends {line : List Char} {symbols : List Symbol}
    (hstands : StandsFor line symbols) {token : Token} {symbol : Symbol}
    (hends : EndsLine token symbol) :
    Scans Mode.step .start (Token.runs line ++ [token]) .start
      (symbols.map .symbol ++ [Item.symbol symbol]) := by
  obtain ⟨mode, before, after, hline, hafter, hitems⟩ := hstands.readsAs.split
  obtain ⟨items, hmode⟩ := mode.exists_ends
  obtain ⟨-, rfl⟩ := hafter.unique (hmode _ _ (.breaks Nat.one_pos))
  rw [← List.append_assoc, List.append_cancel_right_eq] at hitems
  rw [hitems, List.append_assoc]
  exact hline.append (hmode token symbol hends)

/-- A line in the middle of a text is scanned for itself. -/
theorem StandsFor.scans_middle {line : List Char} {first : Symbol} {symbols : List Symbol}
    (hstands : StandsFor line (first :: symbols)) (hfirst : first ≠ .newline)
    (front rest : List Char) :
    ∃ before after last, NoEnd before ∧
      Scans Mode.step .start
        (Token.runs (front ++ '\n' :: (line ++ '\n' :: rest)) ++ [Token.endOfText]) last
        (before ++ [Item.symbol .newline] ++ ((first :: symbols).map .symbol ++ after)) := by
  obtain ⟨count, rest, rfl, hrest⟩ := Token.exists_leading_run '\n' rest
  obtain ⟨_, last, more, _, hmore, _⟩ :=
    Lexer.takeAll_eq_scans Mode.patient { scanner := .start } (Token.runs rest ++ [Token.endOfText])
  have hlast : line.getLast? ≠ some '\n' := fun h => hstands.noBreak (List.mem_of_getLast? h)
  have hbreaks : line ++ '\n' :: (List.replicate count '\n' ++ rest) =
      line ++ List.replicate (count + 1) '\n' ++ rest := by
    rw [List.replicate_succ, List.append_assoc, List.cons_append]
  have htext : Scans Mode.step .start
      (Token.runs (line ++ '\n' :: (List.replicate count '\n' ++ rest)) ++ [Token.endOfText]) last
      ((first :: symbols).map .symbol ++ ([.symbol .newline] ++ more)) := by
    rw [hbreaks, Token.runs_around hlast hrest (Nat.succ_pos count), ← List.append_assoc]
    have hline := (hstands.scans_of_ends (.breaks (Nat.succ_pos count))).append hmore
    simpa using hline
  obtain ⟨before, hbefore, hwhole⟩ := scans_behind front htext (by simpa using hfirst)
  exact ⟨before, _, last, hbefore, hwhole⟩

/-! ## Parsing -/

namespace Parser

/-- No items withdraw a diagnostic. -/
theorem keeps_of_foldlM {items : List Item} {parser next : Parser} (hready : Ready parser)
    (hlimit : 6 ≤ parser.retryLimit) (hfold : items.foldlM feedItem parser = .ok next) :
    Ready next ∧ Keeps parser next := by
  induction items generalizing parser with
  | nil =>
    cases hfold
    exact ⟨hready, .silent rfl rfl rfl rfl⟩
  | cons item items ih =>
    cases item with
    | inclusion path => exact ih hready hlimit hfold
    | symbol symbol =>
      rw [List.foldlM_cons] at hfold
      obtain ⟨between, hfeed, hrest⟩ := exists_of_bind_ok hfold
      obtain ⟨-, hbetween, hkeeps⟩ := takes_of_feed hready hlimit hfeed
      obtain ⟨hnext, hkeeps'⟩ := ih hbetween (by rw [hkeeps.retryLimit]; exact hlimit) hrest
      exact ⟨hnext, hkeeps.trans hkeeps'⟩

/-- On every line the symbols have the parser report something. -/
def Reports (symbols : List Symbol) : Prop :=
  ∀ parser : Parser, Ready parser → 6 ≤ parser.retryLimit →
    parser.states = [.lines, .body] → parser.draft.stack = [] →
    ∃ next, (symbols.map Item.symbol).foldlM feedItem parser = .ok next ∧
      parser.diagnostics.size < next.diagnostics.size

section

variable {parser : Parser} {op : Opcode}

/-- The parser behind an instruction at the start of a line. -/
def behindInstruction (parser : Parser) (op : Opcode) : Parser :=
  ({ parser with states := [.lines, .body] }.openStatement (.ofOpcode op)).push
    [.operand op.operand, .reduce, .endOfLine]

theorem takes_instruction (hstates : parser.states = [.lines, .body]) (op : Opcode) :
    Takes (put ⟨.instruction, op.mnemonic⟩) parser (parser.behindInstruction op) := by
  have hmark : (⟨.instruction, op.mnemonic⟩ : Symbol).kind ≠ .lineMark := by simp
  have hline : put ⟨.instruction, op.mnemonic⟩ parser =
      .ok (false, { parser with states := [.line, .lines, .body] }) :=
    put_of_states hmark hstates
  refine .declined hline (.taken ?_)
  rw [put_of_states hmark rfl]
  show stepLine { parser with states := [.lines, .body] } ⟨.instruction, op.mnemonic⟩ = _
  unfold stepLine
  dsimp only
  rw [ofMnemonic?_mnemonic]
  rfl

/-- The operand of the instruction is a name. -/
def WantsName (op : Opcode) : Prop := op.operand = .ident ∨ op.operand = .label

/-- An instruction without the name that it wants is not complete. -/
theorem completed_nameless (hname : WantsName op) :
    completed (.ofOpcode op) = (.ofOpcode op, some (.missingOperand op)) := by
  rcases hname with hoperand | hoperand <;> simp [Statement.ofOpcode, hoperand, completed]

/-- The parser after closing, without its name, an instruction at the start of a line. -/
def closedNameless (parser : Parser) (op : Opcode) : Parser :=
  { parser.report (.missingOperand op) with
    states := [.lines, .body]
    draft := { decls := parser.draft.decls.push ⟨.ofOpcode op, parser.position⟩, stack := [] } }

/-- An instruction that wants a name does not take a truth value for one.  It is closed as it is,
and the rest of its line is skipped. -/
theorem takes_truthValue (hname : WantsName op) (hstack : parser.draft.stack = [])
    (text : String) :
    Takes (put ⟨.bool, text⟩) (parser.behindInstruction op)
      ((parser.closedNameless op).skipLine (.mismatch .endOfLine ⟨.bool, text⟩)) := by
  have hmark : (⟨.bool, text⟩ : Symbol).kind ≠ .lineMark := by simp
  have hoperand : put ⟨.bool, text⟩ (parser.behindInstruction op) =
      .ok (false, { parser.behindInstruction op with states := .reduce :: lineEnd }) := by
    rw [put_of_states hmark rfl]
    rcases hname with hname | hname <;> rw [hname] <;> rfl
  have hopened : (parser.behindInstruction op).draft.stack =
      [(.ofOpcode op, parser.position)] := by
    simp [behindInstruction, Parser.push, Parser.openStatement, Draft.push, hstack]
  have hreduce : put ⟨.bool, text⟩ { parser.behindInstruction op with
      states := .reduce :: lineEnd } =
        .ok (false, { parser.closedNameless op with states := lineEnd }) := by
    rw [put_of_states hmark rfl]
    show stepReduce { parser.behindInstruction op with states := lineEnd } = _
    rw [stepReduce_eq hopened, completed_nameless hname, Draft.merged_of_single rfl, ok_bind]
    rfl
  exact .declined hoperand (.declined hreduce (.declined rfl (.taken rfl)))

/-- The instruction and the truth value, from the start of a line. -/
theorem foldlM_truthValue (hname : WantsName op) (text : String) (hready : Ready parser)
    (hlimit : 6 ≤ parser.retryLimit) (hstates : parser.states = [.lines, .body])
    (hstack : parser.draft.stack = []) :
    [Item.symbol ⟨.instruction, op.mnemonic⟩, Item.symbol ⟨.bool, text⟩].foldlM feedItem parser =
      .ok ((parser.closedNameless op).skipLine (.mismatch .endOfLine ⟨.bool, text⟩)) := by
  have hfeed := feed_of_takes hready hlimit (takes_instruction hstates op)
  obtain ⟨-, hready', hkeeps⟩ := takes_of_feed hready hlimit hfeed
  have hfeed' := feed_of_takes hready' (by rw [hkeeps.retryLimit]; exact hlimit)
    (takes_truthValue hname hstack text)
  rw [List.foldlM_cons, feedItem, hfeed, ok_bind, List.foldlM_cons, feedItem, hfeed', ok_bind]
  rfl

theorem reports_truthValue (hname : WantsName op) (text : String) :
    Reports [⟨.instruction, op.mnemonic⟩, ⟨.bool, text⟩] := by
  intro parser hready hlimit hstates hstack
  refine ⟨_, foldlM_truthValue hname text hready hlimit hstates hstack, ?_⟩
  show _ < ((parser.diagnostics.push _).push _).size
  rw [Array.size_push, Array.size_push]
  omega

end

end Parser

/-- Behind a line break the parser is at the start of a line. -/
theorem Parser.atLine_of_foldlM {front broken : List Item} (hnoEnd : NoEnd front)
    (hbroken : unmarked broken = [.symbol .newline]) {start line : Parser} (hready : Ready start)
    (hlimit : 6 ≤ start.retryLimit) (hopen : start.states ≠ [])
    (hfold : (front ++ broken).foldlM feedItem start = .ok line) :
    Ready line ∧ 6 ≤ line.retryLimit ∧ line.states = [.lines, .body] ∧ line.draft.stack = [] := by
  rw [List.foldlM_append] at hfold
  obtain ⟨ahead, hahead, hline⟩ := exists_of_bind_ok hfold
  obtain ⟨hready', hopen', hkeeps⟩ := open_of_foldlM hnoEnd hready hlimit hopen hahead
  rw [← hkeeps.retryLimit] at hlimit
  obtain ⟨other, _, hother, _, hstates, hstack, _⟩ := feed_lineEnd hready' hlimit hopen'
  obtain ⟨hready'', hkept⟩ := keeps_of_foldlM hready' hlimit hline
  have hfollows : Follows [] line other := by
    have hsame : unmarked broken = unmarked [.symbol .newline] := hbroken
    refine foldlM_follows hsame (.refl ahead) _ _ hline ?_
    rw [List.foldlM_cons, feedItem, hother]
    rfl
  refine ⟨hready'', by rwa [hkept.retryLimit], hfollows.states.trans hstates, ?_⟩
  have hopened := hfollows.draft.opened_eq
  rw [Draft.opened, Draft.opened, hstack] at hopened
  exact List.map_eq_nil_iff.1 hopened

/-- A text with a line that has the parser report something is assembled with diagnostics. -/
theorem diagnostics_of_reports {line : List Char} {first : Symbol} {symbols : List Symbol}
    (hstands : StandsFor line (first :: symbols)) (hfirst : first ≠ .newline)
    (hmarks : ∀ symbol ∈ first :: symbols, symbol.kind ≠ .lineMark)
    (hreports : Parser.Reports (first :: symbols)) {front rest : List Char} {text : String}
    (htext : text.toList = front ++ '\n' :: (line ++ '\n' :: rest)) {file : String}
    {retryLimit : Nat} (hlimit : 6 ≤ retryLimit) {functions : FunctionTable} {program : Program}
    (hassemble : assemble file text retryLimit functions = .ok program) :
    program.diagnostics ≠ [] := by
  obtain ⟨front', hfront⟩ := exists_dropReturns_append front (line ++ '\n' :: rest)
  rw [dropReturns_line hstands.noBreak hstands.last, ← htext] at hfront
  obtain ⟨before, after, last, hbefore, hscans⟩ :=
    hstands.scans_middle hfirst front' (dropReturns rest)
  rw [← hfront] at hscans
  obtain ⟨items, parser, hitems, hfold, -, hsize⟩ := Parser.exists_run_of_assemble hscans hassemble
  -- the lines before, the line break, the line, and what follows
  rw [unmarked_append, unmarked_append, unmarked_append, unmarked_symbols hmarks] at hitems
  obtain ⟨upto, behind, rfl, hupto, hbehind⟩ := List.filter_eq_append_iff.1 hitems
  obtain ⟨earlier, broken, rfl, hearlier, hbroken⟩ := List.filter_eq_append_iff.1 hupto
  obtain ⟨here, later, rfl, hhere, -⟩ := List.filter_eq_append_iff.1 hbehind
  rw [List.foldlM_append] at hfold
  obtain ⟨start, hstart, hfold⟩ := exists_of_bind_ok hfold
  rw [List.foldlM_append] at hfold
  obtain ⟨reported, hreported, hlast⟩ := exists_of_bind_ok hfold
  obtain ⟨hready, hlimit', hstates, hstack⟩ := Parser.atLine_of_foldlM
    (isEnd_of_unmarked hearlier hbefore) hbroken (Parser.ready_start file retryLimit functions) hlimit
    (by simp [Parser.start]) hstart
  obtain ⟨next, hnext, hmore⟩ := hreports start hready hlimit' hstates hstack
  have hfollows : Parser.Follows [] reported next :=
    Parser.foldlM_follows (hhere.trans (unmarked_symbols hmarks).symm) (.refl start) _ _ hreported
      hnext
  obtain ⟨hready', hkeeps⟩ := Parser.keeps_of_foldlM hready hlimit' hreported
  obtain ⟨-, hkeeps'⟩ :=
    Parser.keeps_of_foldlM hready' (by rw [hkeeps.retryLimit]; exact hlimit') hlast
  have hkept := hkeeps'.diagnostics
  have hmore' := hfollows.diagnostics
  apply List.ne_nil_of_length_pos
  omega

end Docpress.Assembly
