import Docpress.Proofs.AssemblyStacks
import Docpress.Proofs.Scanning

/-!
# What lines of assembly text declare

The parser of assembly text is followed over lines without mistakes.  How it goes on depends on
its `View` only: on its states, the open statements and the declared ones, but not on positions.
`Puts` says what one offer of a symbol makes of a view, `Feeds` what a symbol does that is
offered until it is taken, and `Declares` which statements the symbols of a line add to the
declared ones.
-/

namespace Docpress.Assembly

/-- What decides how a parser goes on. -/
structure View where
  states : List State
  /-- the open statements, the innermost first -/
  stack : List Statement
  /-- the declared statements -/
  nodes : List Statement

namespace Parser

/-- The parser has the view, and nothing was wrong so far. -/
structure Shows (functions : FunctionTable) (limit : Nat) (view : View) (parser : Parser) :
    Prop where
  states_eq : parser.states = view.states
  stack_eq : parser.draft.stack.map Prod.fst = view.stack
  nodes_eq : parser.draft.decls.toList.map Decl.node = view.nodes
  noDiagnostics : parser.diagnostics = #[]
  functions_eq : parser.functions = functions
  retryLimit_eq : parser.retryLimit = limit
  notAbandoned : parser.abandoned = false
  /-- the lines have their own numbers -/
  lineShift_eq : parser.lineShift = 0

variable {functions : FunctionTable} {limit : Nat}

theorem shows_start (file : String) : Shows functions limit ⟨[.body], [], []⟩
    (start file limit functions) :=
  ⟨rfl, rfl, rfl, rfl, rfl, rfl, rfl, rfl⟩

/-- What else a parser goes by stays the same in all that follows. -/
theorem Shows.change {before after : View} {parser next : Parser}
    (hshows : Shows functions limit before parser) (hstates : next.states = after.states)
    (hstack : next.draft.stack.map Prod.fst = after.stack)
    (hnodes : next.draft.decls.toList.map Decl.node = after.nodes)
    (hdiagnostics : next.diagnostics = parser.diagnostics := by rfl)
    (hfunctions : next.functions = parser.functions := by rfl)
    (hretryLimit : next.retryLimit = parser.retryLimit := by rfl)
    (habandoned : next.abandoned = parser.abandoned := by rfl)
    (hlineShift : next.lineShift = parser.lineShift := by rfl) :
    Shows functions limit after next where
  states_eq := hstates
  stack_eq := hstack
  nodes_eq := hnodes
  noDiagnostics := hdiagnostics.trans hshows.noDiagnostics
  functions_eq := hfunctions.trans hshows.functions_eq
  retryLimit_eq := hretryLimit.trans hshows.retryLimit_eq
  notAbandoned := habandoned.trans hshows.notAbandoned
  lineShift_eq := hlineShift.trans hshows.lineShift_eq

/-! ## Offers -/

/-- Offering the symbol once leads from one view to the other. -/
def Puts (functions : FunctionTable) (limit : Nat) (symbol : Symbol) (taken : Bool)
    (before after : View) : Prop :=
  ∀ parser, Shows functions limit before parser →
    ∃ next, put symbol parser = .ok (taken, next) ∧ Shows functions limit after next

variable {symbol : Symbol} {rest : List State} {stack nodes : List Statement}

/-- A step of the topmost state that changes the stacks only. -/
theorem Puts.of_step {state : State} {taken : Bool} {after : View}
    (hkind : symbol.kind ≠ .lineMark)
    (hstep : ∀ parser, Shows functions limit ⟨state :: rest, stack, nodes⟩ parser →
      ∃ next, step { parser with states := rest } state symbol = .ok (taken, next) ∧
        Shows functions limit after next) :
    Puts functions limit symbol taken ⟨state :: rest, stack, nodes⟩ after := by
  intro parser hshows
  have hput : put symbol parser = step { parser with states := rest } state symbol := by
    unfold put
    split
    · exact absurd ‹_› hkind
    · rw [hshows.states_eq]
  rw [hput]
  exact hstep parser hshows

/-- A step that changes nothing but the states. -/
theorem Puts.of_states {state : State} {taken : Bool} (more : List State)
    (hkind : symbol.kind ≠ .lineMark)
    (hstep : ∀ parser : Parser, step parser state symbol =
      .ok (taken, { parser with states := more ++ parser.states })) :
    Puts functions limit symbol taken ⟨state :: rest, stack, nodes⟩ ⟨more ++ rest, stack, nodes⟩ :=
  .of_step hkind fun _ hshows =>
    ⟨_, hstep _, hshows.change rfl hshows.stack_eq hshows.nodes_eq⟩

/-- A step that opens a statement. -/
theorem Puts.of_open {state : State} (statement : Statement) (more : List State)
    (hkind : symbol.kind ≠ .lineMark)
    (hstep : ∀ parser : Parser, step parser state symbol =
      .ok (true, (parser.openStatement statement).push more)) :
    Puts functions limit symbol true ⟨state :: rest, stack, nodes⟩
      ⟨more ++ rest, statement :: stack, nodes⟩ := by
  refine .of_step hkind fun parser hshows => ⟨_, hstep _, hshows.change rfl ?_ hshows.nodes_eq⟩
  show statement :: parser.draft.stack.map Prod.fst = _
  rw [hshows.stack_eq]

theorem exists_stack_of_shows {view : View} {parser : Parser} {statement : Statement}
    (hshows : Shows functions limit view parser) (hview : view.stack = statement :: stack) :
    ∃ position below, parser.draft.stack = (statement, position) :: below ∧
      below.map Prod.fst = stack := by
  have hstack := hshows.stack_eq
  rw [hview] at hstack
  obtain ⟨⟨top, position⟩, below, hdraft, htop, hbelow⟩ := List.map_eq_cons_iff.1 hstack
  cases htop
  exact ⟨position, below, hdraft, hbelow⟩

/-- A step that exchanges the open statement. -/
theorem Puts.of_exchange {state : State} {taken : Bool} {statement : Statement}
    (next : Statement) (hkind : symbol.kind ≠ .lineMark)
    (hstep : ∀ parser : Parser, parser.functions = functions →
      parser.draft.top = .ok statement →
      step parser state symbol = .ok (taken, parser.setOpen next)) :
    Puts functions limit symbol taken ⟨state :: rest, statement :: stack, nodes⟩
      ⟨rest, next :: stack, nodes⟩ := by
  refine .of_step hkind fun parser hshows => ?_
  obtain ⟨position, below, hdraft, hbelow⟩ := exists_stack_of_shows hshows rfl
  refine ⟨_, hstep _ hshows.functions_eq (Draft.top_of_stack hdraft), ?_⟩
  refine hshows.change rfl ?_ ?_
  · show (parser.draft.setTop next).stack.map Prod.fst = _
    rw [Draft.setTop_of_stack hdraft, List.map_cons, hbelow]
  · show (parser.draft.setTop next).decls.toList.map Decl.node = _
    rw [Draft.setTop_of_stack hdraft]
    exact hshows.nodes_eq

/-! ### Lines -/

theorem puts_body (hkind : symbol.kind ≠ .lineMark) (hend : symbol.kind ≠ .endOfData) :
    Puts functions limit symbol false ⟨.body :: rest, stack, nodes⟩
      ⟨.lines :: .body :: rest, stack, nodes⟩ :=
  .of_states [.lines, .body] hkind fun _ => if_neg hend

theorem puts_lines (hkind : symbol.kind ≠ .lineMark) (hend : symbol.kind ≠ .endOfData) :
    Puts functions limit symbol false ⟨.lines :: rest, stack, nodes⟩
      ⟨.line :: .lines :: rest, stack, nodes⟩ :=
  .of_states [.line, .lines] hkind fun _ => if_neg hend

theorem puts_emptyLine : Puts functions limit .newline true ⟨.line :: rest, stack, nodes⟩
    ⟨rest, stack, nodes⟩ :=
  .of_states [] nofun fun _ => rfl

theorem puts_endOfLine : Puts functions limit .newline true ⟨.endOfLine :: rest, stack, nodes⟩
    ⟨rest, stack, nodes⟩ :=
  .of_states [] nofun fun _ => rfl

/-- A label is declared at once, and its line goes on. -/
theorem puts_label (name : String) :
    Puts functions limit ⟨.label, name⟩ true ⟨.line :: rest, [], nodes⟩
      ⟨.line :: rest, [], nodes ++ [.label name]⟩ := by
  refine .of_step nofun fun parser hshows => ?_
  have hstack : parser.draft.stack = [] := List.map_eq_nil_iff.1 hshows.stack_eq
  have hstep : step { parser with states := rest } .line ⟨.label, name⟩ =
      .ok (true, { parser with
        states := .line :: rest
        draft := ⟨parser.draft.decls.push ⟨.label name, parser.position⟩, []⟩ }) := by
    show stepLine { parser with states := rest } ⟨.label, name⟩ = _
    unfold stepLine
    dsimp only
    rw [close_label { parser with states := rest } name hstack, ok_bind]
    rfl
  refine ⟨_, hstep, hshows.change rfl rfl ?_⟩
  rw [Array.toList_push, List.map_append, hshows.nodes_eq]
  rfl

/-! ### Instructions and their operands -/

theorem ofMnemonic?_mnemonic (op : Opcode) : Opcode.ofMnemonic? op.mnemonic = some op := by
  cases op <;> decide

theorem puts_instruction (op : Opcode) :
    Puts functions limit ⟨.instruction, op.mnemonic⟩ true ⟨.line :: rest, stack, nodes⟩
      ⟨.operand op.operand :: .reduce :: .endOfLine :: rest, .ofOpcode op :: stack, nodes⟩ := by
  refine .of_open (.ofOpcode op) [.operand op.operand, .reduce, .endOfLine] nofun fun parser => ?_
  show stepLine parser ⟨.instruction, op.mnemonic⟩ = _
  unfold stepLine
  dsimp only
  rw [ofMnemonic?_mnemonic]
  rfl

theorem puts_bare (hkind : symbol.kind ≠ .lineMark) :
    Puts functions limit symbol false ⟨.operand .bare :: rest, stack, nodes⟩
      ⟨rest, stack, nodes⟩ :=
  .of_states [] hkind fun _ => rfl

theorem puts_operandValue (hkind : symbol.kind ≠ .lineMark) :
    Puts functions limit symbol false ⟨.operand .value :: rest, stack, nodes⟩
      ⟨.value :: rest, stack, nodes⟩ :=
  .of_states [.value] hkind fun _ => rfl

theorem puts_name (hkind : symbol.kind = .text ∨ symbol.kind = .instruction) {op : Opcode}
    {name : String} {id : Option UInt64} :
    Puts functions limit symbol true ⟨.operand .ident :: rest, .invoke op name id :: stack, nodes⟩
      ⟨rest, .invoke op symbol.text (functions.lookup? symbol.text) :: stack, nodes⟩ := by
  have hmark : symbol.kind ≠ .lineMark := by
    rcases hkind with hkind | hkind <;> simp [hkind]
  refine .of_exchange _ hmark fun parser hfunctions htop => ?_
  show stepOperand parser .ident symbol = _
  unfold stepOperand
  dsimp only
  rw [if_pos (hkind.imp_right .inl), htop, ok_bind, hfunctions]
  rfl

theorem puts_target (hkind : symbol.kind = .text ∨ symbol.kind = .instruction) {op : Opcode}
    {target : String} :
    Puts functions limit symbol true ⟨.operand .label :: rest, .jump op target :: stack, nodes⟩
      ⟨rest, .jump op symbol.text :: stack, nodes⟩ := by
  have hmark : symbol.kind ≠ .lineMark := by
    rcases hkind with hkind | hkind <;> simp [hkind]
  refine .of_exchange _ hmark fun parser _ htop => ?_
  show stepOperand parser .label symbol = _
  unfold stepOperand
  dsimp only
  rw [if_pos hkind, htop, ok_bind]
  rfl

/-! ### Constants -/

theorem puts_literal (text : String) :
    Puts functions limit ⟨.literal, text⟩ true ⟨.value :: rest, stack, nodes⟩
      ⟨.typeTag :: .reduce :: rest, .literal text :: stack, nodes⟩ :=
  .of_open (.literal text) [.typeTag, .reduce] nofun fun _ => rfl

theorem puts_constant {tag : TypeTag} {object : Object} (hmark : symbol.kind ≠ .lineMark)
    (hliteral : symbol.kind ≠ .literal) (hconstant : constant? symbol = some (tag, some object)) :
    Puts functions limit symbol true ⟨.value :: rest, stack, nodes⟩
      ⟨.reduce :: rest, .value object :: stack, nodes⟩ := by
  refine .of_open (.value object) [.reduce] hmark fun parser => ?_
  show stepValue parser symbol = _
  unfold stepValue
  rw [if_neg hliteral, hconstant]

theorem puts_noTag (text : String) :
    Puts functions limit .newline false ⟨.typeTag :: rest, .literal text :: stack, nodes⟩
      ⟨rest, .value (.string text) :: stack, nodes⟩ := by
  refine .of_exchange _ nofun fun parser _ htop => ?_
  show stepTypeTag parser .newline = _
  unfold stepTypeTag
  rw [htop, ok_bind]
  rfl

theorem puts_typeTag {text name : String} {tag : TypeTag} {object : Object}
    (htag : TypeTag.ofName? name = some tag) (hobject : Object.ofLiteral? tag text = some object) :
    Puts functions limit ⟨.typeTag, name⟩ true ⟨.typeTag :: rest, .literal text :: stack, nodes⟩
      ⟨rest, .value object :: stack, nodes⟩ := by
  refine .of_exchange _ nofun fun parser _ htop => ?_
  show stepTypeTag parser ⟨.typeTag, name⟩ = _
  unfold stepTypeTag
  rw [htop, ok_bind]
  dsimp only
  rw [if_pos rfl, htag]
  dsimp only
  rw [hobject]
  rfl

/-! ### Closing -/

theorem puts_attach (hkind : symbol.kind ≠ .lineMark) (object : Object) :
    Puts functions limit symbol false
      ⟨.reduce :: rest, .value object :: .push none :: stack, nodes⟩
      ⟨rest, .push (some object) :: stack, nodes⟩ := by
  refine .of_step hkind fun parser hshows => ?_
  obtain ⟨position, below, hdraft, hbelow⟩ := exists_stack_of_shows hshows rfl
  obtain ⟨⟨parent, place⟩, under, rfl, hparent, hunder⟩ := List.map_eq_cons_iff.1 hbelow
  cases hparent
  have hstep : step { parser with states := rest } .reduce symbol =
      .ok (false, { parser with
        states := rest
        draft := { parser.draft with stack := (.push (some object), place) :: under } }) := by
    show stepReduce { parser with states := rest } = _
    rw [stepReduce_eq hdraft, Draft.merged_of_attach rfl rfl, ok_bind]
    rfl
  refine ⟨_, hstep, hshows.change rfl ?_ hshows.nodes_eq⟩
  rw [List.map_cons, hunder]

theorem puts_declare (hkind : symbol.kind ≠ .lineMark) {statement : Statement}
    (hcompleted : completed statement = (statement, none)) :
    Puts functions limit symbol false ⟨.reduce :: rest, [statement], nodes⟩
      ⟨rest, [], nodes ++ [statement]⟩ := by
  refine .of_step hkind fun parser hshows => ?_
  obtain ⟨position, below, hdraft, hbelow⟩ := exists_stack_of_shows hshows rfl
  obtain rfl := List.map_eq_nil_iff.1 hbelow
  have hstep : step { parser with states := rest } .reduce symbol =
      .ok (false, { parser with
        states := rest
        draft := { decls := parser.draft.decls.push ⟨statement, position⟩, stack := [] } }) := by
    show stepReduce { parser with states := rest } = _
    rw [stepReduce_eq hdraft, hcompleted, Draft.merged_of_single rfl, ok_bind]
    rfl
  refine ⟨_, hstep, hshows.change rfl rfl ?_⟩
  rw [Array.toList_push, List.map_append, hshows.nodes_eq]
  rfl

/-! ## Symbols -/

/-- Offering the symbol so many times without success leads from one view to the other. -/
inductive Yields (functions : FunctionTable) (limit : Nat) (symbol : Symbol) :
    Nat → View → View → Prop where
  | none (view : View) : Yields functions limit symbol 0 view view
  | more {count : Nat} {before between after : View}
      (hputs : Puts functions limit symbol false before between)
      (hrest : Yields functions limit symbol count between after) :
      Yields functions limit symbol (count + 1) before after

/-- Offering the symbol until it is taken leads from one view to the other. -/
def Feeds (functions : FunctionTable) (limit : Nat) (symbol : Symbol) (before after : View) :
    Prop :=
  ∀ parser, Shows functions limit before parser →
    ∃ next, feed symbol parser = .ok next ∧ Shows functions limit after next

theorem Yields.declined {count : Nat} {before after : View}
    (hyields : Yields functions limit symbol count before after) {parser : Parser}
    (hshows : Shows functions limit before parser) :
    ∃ next, Declined (put symbol) count parser next ∧ Shows functions limit after next := by
  induction hyields generalizing parser with
  | none => exact ⟨parser, .none _, hshows⟩
  | more hputs _ ih =>
    obtain ⟨next, hput, hnext⟩ := hputs parser hshows
    obtain ⟨last, hdeclined, hlast⟩ := ih hnext
    exact ⟨last, .more hput hdeclined, hlast⟩

theorem Yields.feeds {count : Nat} {before between after : View}
    (hyields : Yields functions limit symbol count before between)
    (htaken : Puts functions limit symbol true between after) (hcount : count < limit) :
    Feeds functions limit symbol before after := by
  intro parser hshows
  obtain ⟨asked, hdeclined, hasked⟩ := hyields.declined hshows
  obtain ⟨next, hput, hnext⟩ := htaken asked hasked
  refine ⟨next, ?_, hnext⟩
  have hoffer := offer_of_declined hdeclined hput (hshows.retryLimit_eq.symm ▸ hcount)
  unfold feed
  rw [hshows.notAbandoned, if_neg (by simp), hoffer, ok_bind]
  rfl

/-- Feeding the symbols leads from one view to the other. -/
inductive FeedsAll (functions : FunctionTable) (limit : Nat) :
    List Symbol → View → View → Prop where
  | nil (view : View) : FeedsAll functions limit [] view view
  | cons {symbol : Symbol} {symbols : List Symbol} {before between after : View}
      (hfirst : Feeds functions limit symbol before between)
      (hrest : FeedsAll functions limit symbols between after) :
      FeedsAll functions limit (symbol :: symbols) before after

theorem FeedsAll.append {first second : List Symbol} {before between after : View}
    (hfirst : FeedsAll functions limit first before between)
    (hsecond : FeedsAll functions limit second between after) :
    FeedsAll functions limit (first ++ second) before after := by
  induction hfirst with
  | nil => exact hsecond
  | cons hfeeds _ ih => exact .cons hfeeds (ih hsecond)

theorem FeedsAll.single {before after : View} (hfeeds : Feeds functions limit symbol before after) :
    FeedsAll functions limit [symbol] before after :=
  .cons hfeeds (.nil _)

/-! ## Lines -/

/-- The view of a parser between two lines. -/
def atLine (nodes : List Statement) : View := ⟨[.lines, .body], [], nodes⟩

/-- The symbols of a line, and its end, add the statements to the declared ones. -/
structure Declares (functions : FunctionTable) (limit : Nat) (symbols : List Symbol)
    (statements : List Statement) : Prop where
  noMarks : ∀ symbol ∈ symbols, symbol.kind ≠ .lineMark
  feedsAll (nodes : List Statement) : FeedsAll functions limit (symbols ++ [.newline])
    (atLine nodes) (atLine (nodes ++ statements))

/-- Nothing on a line declares nothing. -/
theorem declares_nothing (hlimit : 6 ≤ limit) : Declares functions limit [] [] := by
  refine ⟨by simp, fun nodes => ?_⟩
  rw [List.append_nil]
  have hyields : Yields functions limit .newline 1 (atLine nodes)
      ⟨[.line, .lines, .body], [], nodes⟩ := .more (puts_lines (by decide) (by decide)) (.none _)
  exact .single (hyields.feeds puts_emptyLine (by omega))

/-- The first line of a text may be empty as well. -/
theorem feeds_firstLine (hlimit : 6 ≤ limit) :
    Feeds functions limit .newline ⟨[.body], [], []⟩ (atLine []) := by
  have hyields : Yields functions limit .newline 2 ⟨[.body], [], []⟩
      ⟨[.line, .lines, .body], [], []⟩ :=
    .more (puts_body (by decide) (by decide)) (.more (puts_lines (by decide) (by decide)) (.none _))
  exact hyields.feeds puts_emptyLine (by omega)

theorem feeds_instruction (hlimit : 6 ≤ limit) (op : Opcode) (nodes : List Statement) :
    Feeds functions limit ⟨.instruction, op.mnemonic⟩ (atLine nodes)
      ⟨.operand op.operand :: .reduce :: lineEnd, [.ofOpcode op], nodes⟩ := by
  have hyields : Yields functions limit ⟨.instruction, op.mnemonic⟩ 1 (atLine nodes)
      ⟨[.line, .lines, .body], [], nodes⟩ := .more (puts_lines (by simp) (by simp)) (.none _)
  exact hyields.feeds (puts_instruction op) (by omega)

/-- The end of the line closes an instruction that has what it needs. -/
theorem yields_close {statement : Statement} (hcompleted : completed statement = (statement, none))
    (nodes : List Statement) :
    Yields functions limit .newline 1 ⟨.reduce :: lineEnd, [statement], nodes⟩
      ⟨lineEnd, [], nodes ++ [statement]⟩ :=
  .more (puts_declare (by decide) hcompleted) (.none _)

/-- An instruction without operand. -/
theorem declares_operation (hlimit : 6 ≤ limit) {op : Opcode} (hbare : op.operand = .bare) :
    Declares functions limit [⟨.instruction, op.mnemonic⟩] [.operation op] := by
  refine ⟨by simp, fun nodes => ?_⟩
  have hopen : Statement.ofOpcode op = .operation op := by simp [Statement.ofOpcode, hbare]
  have hfeeds := @feeds_instruction functions limit hlimit op nodes
  rw [hbare, hopen] at hfeeds
  have hyields : Yields functions limit .newline 2
      ⟨.operand .bare :: .reduce :: lineEnd, [.operation op], nodes⟩
      ⟨lineEnd, [], nodes ++ [.operation op]⟩ :=
    .more (puts_bare (by decide)) (yields_close rfl nodes)
  exact .cons hfeeds (.single (hyields.feeds puts_endOfLine (by omega)))

/-- A call of a function by its name. -/
theorem declares_invoke (hlimit : 6 ≤ limit) {op : Opcode} (hident : op.operand = .ident)
    (hkind : symbol.kind = .text ∨ symbol.kind = .instruction) (hname : symbol.text ≠ "") :
    Declares functions limit [⟨.instruction, op.mnemonic⟩, symbol]
      [.invoke op symbol.text (functions.lookup? symbol.text)] := by
  refine ⟨by rcases hkind with h | h <;> simp [h], fun nodes => ?_⟩
  have hopen : Statement.ofOpcode op = .invoke op "" none := by simp [Statement.ofOpcode, hident]
  have hfeeds := @feeds_instruction functions limit hlimit op nodes
  rw [hident, hopen] at hfeeds
  have hoperand : Feeds functions limit symbol
      ⟨.operand .ident :: .reduce :: lineEnd, [.invoke op "" none], nodes⟩
      ⟨.reduce :: lineEnd, [.invoke op symbol.text (functions.lookup? symbol.text)], nodes⟩ :=
    (Yields.none _).feeds (puts_name hkind) (by omega)
  have hcompleted : completed (.invoke op symbol.text (functions.lookup? symbol.text)) =
      (.invoke op symbol.text (functions.lookup? symbol.text), none) := by
    simp [completed, hname]
  exact .cons hfeeds (.cons hoperand
    (.single ((yields_close hcompleted nodes).feeds puts_endOfLine (by omega))))

/-- A jump to a label. -/
theorem declares_jump (hlimit : 6 ≤ limit) {op : Opcode} (hlabel : op.operand = .label)
    (hkind : symbol.kind = .text ∨ symbol.kind = .instruction) (htarget : symbol.text ≠ "") :
    Declares functions limit [⟨.instruction, op.mnemonic⟩, symbol] [.jump op symbol.text] := by
  refine ⟨by rcases hkind with h | h <;> simp [h], fun nodes => ?_⟩
  have hopen : Statement.ofOpcode op = .jump op "" := by simp [Statement.ofOpcode, hlabel]
  have hfeeds := @feeds_instruction functions limit hlimit op nodes
  rw [hlabel, hopen] at hfeeds
  have hoperand : Feeds functions limit symbol
      ⟨.operand .label :: .reduce :: lineEnd, [.jump op ""], nodes⟩
      ⟨.reduce :: lineEnd, [.jump op symbol.text], nodes⟩ :=
    (Yields.none _).feeds (puts_target hkind) (by omega)
  have hcompleted : completed (.jump op symbol.text) = (.jump op symbol.text, none) := by
    simp [completed, htarget]
  exact .cons hfeeds (.cons hoperand
    (.single ((yields_close hcompleted nodes).feeds puts_endOfLine (by omega))))

/-- A label on the first line of a text. -/
theorem feedsAll_firstLabel (hlimit : 6 ≤ limit) (name : String) :
    FeedsAll functions limit [⟨.label, name⟩, .newline] ⟨[.body], [], []⟩
      (atLine [.label name]) := by
  have hyields : Yields functions limit ⟨.label, name⟩ 2 ⟨[.body], [], []⟩
      ⟨[.line, .lines, .body], [], []⟩ :=
    .more (puts_body (by simp) (by simp)) (.more (puts_lines (by simp) (by simp)) (.none _))
  exact .cons (hyields.feeds (puts_label name) (by omega))
    (.single ((Yields.none _).feeds puts_emptyLine (by omega)))

/-! ### Constants -/

/-- The symbols that are read as a constant. -/
inductive IsConstant : List Symbol → Object → Prop where
  | plain {symbol : Symbol} {tag : TypeTag} {object : Object} (hmark : symbol.kind ≠ .lineMark)
      (hliteral : symbol.kind ≠ .literal)
      (hconstant : constant? symbol = some (tag, some object)) : IsConstant [symbol] object
  | string (text : String) : IsConstant [⟨.literal, text⟩] (.string text)
  | tagged {text name : String} {tag : TypeTag} {object : Object}
      (htag : TypeTag.ofName? name = some tag)
      (hobject : Object.ofLiteral? tag text = some object) :
      IsConstant [⟨.literal, text⟩, ⟨.typeTag, name⟩] object

/-- A symbol whose kind says the type of the constant. -/
theorem IsConstant.of_literal {kind : SymbolKind} {text : String} {tag : TypeTag}
    {object : Object} (hobject : Object.ofLiteral? tag text = some object)
    (htyped : constant? ⟨kind, text⟩ = some (tag, Object.ofLiteral? tag text))
    (hmark : kind ≠ .lineMark) (hliteral : kind ≠ .literal) :
    IsConstant [⟨kind, text⟩] object :=
  .plain hmark hliteral (by rw [htyped, hobject])

theorem IsConstant.noMarks {symbols : List Symbol} {object : Object}
    (hconstant : IsConstant symbols object) : ∀ symbol ∈ symbols, symbol.kind ≠ .lineMark := by
  cases hconstant with
  | plain hmark _ _ => simpa using hmark
  | string text => simp
  | tagged _ _ => simp

/-- The end of the line attaches a constant to the push that waits for it. -/
theorem yields_attach (object : Object) (nodes : List Statement) :
    Yields functions limit .newline 2
      ⟨.reduce :: .reduce :: lineEnd, [.value object, .push none], nodes⟩
      ⟨lineEnd, [], nodes ++ [.push (some object)]⟩ :=
  .more (puts_attach (by decide) object) (yields_close rfl nodes)

/-- A push of a constant. -/
theorem declares_push (hlimit : 6 ≤ limit) {symbols : List Symbol} {object : Object}
    (hconstant : IsConstant symbols object) :
    Declares functions limit (⟨.instruction, Opcode.push.mnemonic⟩ :: symbols)
      [.push (some object)] := by
  refine ⟨List.forall_mem_cons.2 ⟨by simp, hconstant.noMarks⟩, fun nodes => ?_⟩
  refine .cons (feeds_instruction hlimit .push nodes) ?_
  -- what is left of the line when the constant was read
  have hclose : FeedsAll functions limit [.newline]
      ⟨.reduce :: .reduce :: lineEnd, [.value object, .push none], nodes⟩
      (atLine (nodes ++ [.push (some object)])) :=
    .single ((yields_attach object nodes).feeds puts_endOfLine (by omega))
  have hoperand (symbol : Symbol) (hmark : symbol.kind ≠ .lineMark) :
      Yields functions limit symbol 1
        ⟨.operand .value :: .reduce :: lineEnd, [.push none], nodes⟩
        ⟨.value :: .reduce :: lineEnd, [.push none], nodes⟩ :=
    .more (puts_operandValue hmark) (.none _)
  cases hconstant with
  | @plain symbol _ _ hmark hliteral hconstant =>
    exact .cons ((hoperand symbol hmark).feeds (puts_constant hmark hliteral hconstant) (by omega))
      hclose
  | string text =>
    have hyields : Yields functions limit .newline 3
        ⟨.typeTag :: .reduce :: .reduce :: lineEnd, [.literal text, .push none], nodes⟩
        ⟨lineEnd, [], nodes ++ [.push (some (.string text))]⟩ :=
      .more (puts_noTag text) (yields_attach _ nodes)
    exact .cons ((hoperand _ (by simp)).feeds (puts_literal text) (by omega))
      (.single (hyields.feeds puts_endOfLine (by omega)))
  | @tagged text name tag _ htag hobject =>
    exact .cons ((hoperand _ (by simp)).feeds (puts_literal text) (by omega))
      (.cons ((Yields.none _).feeds (puts_typeTag htag hobject) (by omega)) hclose)

/-! ## Texts -/

theorem puts_end (nodes : List Statement) :
    Puts functions limit .endOfData true ⟨[.body], [], nodes⟩ ⟨[], [], nodes⟩ :=
  .of_step nofun fun _ hshows => ⟨_, rfl, hshows.change rfl hshows.stack_eq hshows.nodes_eq⟩

theorem feeds_end (hlimit : 6 ≤ limit) (nodes : List Statement) :
    Feeds functions limit .endOfData (atLine nodes) ⟨[], [], nodes⟩ := by
  have hyields : Yields functions limit .endOfData 1 (atLine nodes) ⟨[.body], [], nodes⟩ :=
    .more (.of_states [] nofun fun _ => rfl) (.none _)
  exact hyields.feeds (puts_end nodes) (by omega)

theorem feeds_lineMark {view : View} (hlimit : 6 ≤ limit)
    (hkind : symbol.kind = .lineMark) : Feeds functions limit symbol view view := by
  have htaken : Puts functions limit symbol true view view := by
    intro parser hshows
    unfold put
    rw [hkind]
    dsimp only
    split
    · obtain ⟨number, hnumber⟩ := shifted_of_lineShift hshows.lineShift_eq _
      rw [hnumber]
      exact ⟨_, rfl, hshows.change hshows.states_eq hshows.stack_eq hshows.nodes_eq⟩
    · exact ⟨parser, rfl, hshows⟩
  exact (Yields.none _).feeds htaken (by omega)

/-- Line marks between the symbols change nothing. -/
theorem FeedsAll.items (hlimit : 6 ≤ limit) {items : List Item} {symbols : List Symbol}
    {before after : View} (hall : FeedsAll functions limit symbols before after)
    (hitems : unmarked items = symbols.map .symbol) {parser : Parser}
    (hshows : Shows functions limit before parser) :
    ∃ next, items.foldlM feedItem parser = .ok next ∧ Shows functions limit after next := by
  induction items generalizing symbols before parser with
  | nil =>
    obtain rfl : symbols = [] := by simpa [unmarked] using hitems
    cases hall
    exact ⟨parser, rfl, hshows⟩
  | cons item items ih =>
    by_cases hmark : item.isLineMark = true
    · rw [unmarked, List.filter_cons_of_neg (by simp [hmark])] at hitems
      cases item with
      | inclusion path => simp [Item.isLineMark] at hmark
      | symbol mark =>
        have hkind : mark.kind = .lineMark := of_decide_eq_true hmark
        obtain ⟨next, hfeed, hnext⟩ := feeds_lineMark hlimit hkind parser hshows
        obtain ⟨last, hrest, hlast⟩ := ih hall hitems hnext
        refine ⟨last, ?_, hlast⟩
        rw [List.foldlM_cons, feedItem, hfeed, ok_bind, hrest]
    · rw [unmarked, List.filter_cons_of_pos (by simp [hmark])] at hitems
      obtain ⟨symbol, symbols, rfl, rfl, hrestItems⟩ := List.map_eq_cons_iff.1 hitems.symm
      cases hall with
      | cons hfeeds hrestFeeds =>
        obtain ⟨next, hfeed, hnext⟩ := hfeeds parser hshows
        obtain ⟨last, hrest, hlast⟩ := ih hrestFeeds hrestItems.symm hnext
        refine ⟨last, ?_, hlast⟩
        rw [List.foldlM_cons, feedItem, hfeed, ok_bind, hrest]

theorem finish_of_shows {states : List State} {parser : Parser}
    (hshows : Shows functions limit ⟨states, [], nodes⟩ parser) :
    ∃ decls, parser.finish = .ok (decls, []) ∧ decls.map Decl.node = nodes := by
  have hstack : parser.draft.stack = [] := List.map_eq_nil_iff.1 hshows.stack_eq
  refine ⟨parser.draft.decls.toList, ?_, hshows.nodes_eq⟩
  unfold finish
  rw [hshows.noDiagnostics]
  split
  · rw [Draft.finish, hstack]
    rfl
  · rfl

end Parser

/-- A text whose symbols lead to the beginning of a line parses without a diagnostic. -/
theorem parseItems_of_feedsAll {functions : FunctionTable} {limit : Nat} (hlimit : 6 ≤ limit)
    {items : List Item} {symbols : List Symbol} {nodes : List Statement}
    (hall : Parser.FeedsAll functions limit symbols ⟨[.body], [], []⟩ (Parser.atLine nodes))
    (hitems : unmarked items = (symbols ++ [Symbol.endOfData]).map .symbol) (file : String) :
    ∃ decls, parseItems (.start file limit functions) items = .ok (decls, []) ∧
      decls.map Decl.node = nodes := by
  have hwhole := hall.append (.single (Parser.feeds_end hlimit nodes))
  obtain ⟨last, hlast, hshows⟩ := hwhole.items hlimit hitems (Parser.shows_start file)
  obtain ⟨decls, hfinish, hnodes⟩ := Parser.finish_of_shows hshows
  refine ⟨decls, ?_, hnodes⟩
  rw [parseItems, hlast, ok_bind, hfinish]

end Docpress.Assembly
