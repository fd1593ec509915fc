import Docpress.Proofs.LineComposition
import Docpress.Proofs.Placement

/-!
# Where statements begin

A statement of assembly text begins at a label, or at the instruction of a line that only labels
stand before.  `Outline` reads off a sequence of placed items which statements these are, and on
which lines they begin.

The parser opens a statement at the same symbols, and whatever it does to the statement later, the
label or the instruction and the position stay (`begun`).  `Fed` says what one symbol does to
these, to the part of the line that is reached (`LinePart`) and to the numbering of lines, and
holds of every symbol that is no line mark (`takes_fed`).
-/

namespace Docpress.Assembly

/-! ## Definitions -/

/-- What a statement begins with. -/
inductive Heading where
  | label (name : String)
  | instruction (op : Opcode)
deriving DecidableEq, Repr, Inhabited

/-- What a symbol at the start of a line begins a statement with. -/
def Heading.ofSymbol? (symbol : Symbol) : Option Heading :=
  match symbol.kind with
  | .label => some (.label symbol.text)
  | .instruction => (Opcode.ofMnemonic? symbol.text).map .instruction
  | _ => none

/-- What the statement began with.  Operands begin no statement of a program. -/
def Statement.heading? : Statement → Option Heading
  | .label name => some (.label name)
  | statement => statement.opcode?.map .instruction

/-- The part of a line that is reached. -/
inductive LinePart where
  /-- a statement can begin, as only labels stand before -/
  | start
  | inside
  /-- no line follows -/
  | ended
deriving DecidableEq, Repr, Inhabited

/-- The part that is reached behind the symbol. -/
def LinePart.behind (part : LinePart) (symbol : Symbol) : LinePart :=
  match part, symbol.kind with
  | .ended, _ => .ended
  | part, .lineMark => part
  | _, .endOfData => .ended
  | _, .newline => .start
  | .start, .label => .start
  | _, _ => .inside

/-- What the symbol begins a statement with in this part of a line. -/
def LinePart.begins? (part : LinePart) (symbol : Symbol) : Option Heading :=
  if part = .start then Heading.ofSymbol? symbol else none

/-- The statements that begin in a text, with their lines, and the part of a line that the text
reaches. -/
structure Outline where
  part : LinePart := .start
  starts : List (Heading × Nat) := []
deriving DecidableEq, Repr, Inhabited

/-- The outline with one more item. -/
def Outline.add (outline : Outline) (placed : Placed) : Outline :=
  match placed.item with
  | .inclusion _ => outline
  | .symbol symbol =>
    ⟨outline.part.behind symbol,
      outline.starts ++ ((outline.part.begins? symbol).map fun heading =>
        (heading, placed.line)).toList⟩

/-- The outline of the items of a text. -/
def Outline.ofItems (items : List Placed) : Outline :=
  items.foldl add {}

/-! ## Headings -/

/-- A symbol that neither ends a line nor is a label leads into the line. -/
theorem LinePart.behind_eq_inside {symbol : Symbol} {part : LinePart} (hpart : part ≠ .ended)
    (hmark : symbol.kind ≠ .lineMark) (hend : symbol.kind ≠ .endOfData)
    (hnewline : symbol.kind ≠ .newline) (hlabel : symbol.kind ≠ .label) :
    part.behind symbol = .inside := by
  unfold behind
  split <;> simp_all

theorem Heading.ofSymbol?_eq_none {symbol : Symbol} (hlabel : symbol.kind ≠ .label)
    (hinstruction : symbol.kind ≠ .instruction) : ofSymbol? symbol = none := by
  unfold ofSymbol?
  split <;> simp_all

namespace Statement

theorem heading?_ofOpcode (op : Opcode) : (ofOpcode op).heading? = some (.instruction op) := by
  cases op <;> rfl

theorem heading?_completed (statement : Statement) :
    (Parser.completed statement).1.heading? = statement.heading? := by
  cases statement with
  | push operand => cases operand <;> rfl
  | label | literal | value | operation | invoke | forward | jump => rfl

/-- An operand does not change what its statement began with. -/
theorem heading?_of_attach {parent child next : Statement}
    (hattach : Construct.attach parent child = .ok next) : next.heading? = parent.heading? := by
  obtain ⟨object, -, hnext⟩ := exists_of_bind_ok hattach
  split at hnext <;> cases hnext <;> rfl

end Statement

/-! ## Drafts -/

/-- The statements of a draft, declared or open, by what they began with and the lines of their
positions.  Operands that are open are none. -/
def begun (draft : Draft Statement) : List (Option Heading × Nat) :=
  draft.decls.toList.map (fun decl => (decl.node.heading?, decl.position.line)) ++
    draft.stack.getLast?.toList.map fun opened => (opened.1.heading?, opened.2.line)

section

variable {draft next : Draft Statement} {node statement : Statement} {position : Position}
  {below : List (Statement × Position)}

theorem begun_push_of_nil (hstack : draft.stack = []) :
    begun (draft.push node position) = begun draft ++ [(node.heading?, position.line)] := by
  simp [begun, Draft.push, hstack]

theorem begun_push_of_ne_nil (hstack : draft.stack ≠ []) :
    begun (draft.push node position) = begun draft := by
  obtain ⟨opened, below, hstack⟩ := List.exists_cons_of_ne_nil hstack
  simp [begun, Draft.push, hstack]

/-- Exchanging the open statement for one with the same heading. -/
theorem begun_setTop (htop : draft.top = .ok node) (hheading : statement.heading? = node.heading?) :
    begun (draft.setTop statement) = begun draft := by
  unfold Draft.top at htop
  split at htop
  · cases htop
  · rename_i position below hstack
    cases htop
    rw [Draft.setTop_of_stack hstack]
    cases below with
    | nil => simp [begun, hstack, hheading]
    | cons parent below => simp [begun, hstack]

/-- Closing a statement declares it or attaches it to its instruction. -/
theorem begun_merged (hmerged : draft.merged = .ok next) : begun next = begun draft := by
  unfold Draft.merged Draft.merge at hmerged
  split at hmerged
  · cases hmerged
  · rename_i hmerge
    split at hmerge
    · cases hmerge
    · rename_i hstack
      cases hmerge
      cases hmerged
      simp [begun, hstack]
    · rename_i parent place below hstack
      split at hmerge
      · cases hmerge
      · rename_i hattach
        cases hmerge
        cases hmerged
        have hheading := Statement.heading?_of_attach hattach
        cases below with
        | nil => simp [begun, hstack, hheading]
        | cons other below => simp [begun, hstack]

end

/-! ## Steps inside a line -/

/-- The part of a line that states of the parser stand for. -/
def partOf : List State → LinePart
  | [] => .ended
  | .body :: _ | .lines :: _ | .line :: _ => .start
  | _ :: _ => .inside

namespace Parser

/-- What a step of a state inside a line leaves alone, and which states it adds to the others. -/
structure Stays (state : State) (parser next : Parser) : Prop where
  begun : begun next.draft = begun parser.draft
  line : next.position.line = parser.position.line
  textLine : next.textLine = parser.textLine
  lineShift : state ≠ .directive "line" → next.lineShift = parser.lineShift
  states : ∃ added : List State, next.states = added ++ parser.states ∧
    added ⊆ [.value, .typeTag, .reduce, .skip]

section

variable {symbol : Symbol} {parser next : Parser} {taken : Bool} {state : State}

/-- A step that leaves the draft and the numbering alone. -/
theorem Stays.of_states (added : List State) (hdraft : next.draft = parser.draft)
    (hline : next.position.line = parser.position.line) (htextLine : next.textLine = parser.textLine)
    (hlineShift : state ≠ .directive "line" → next.lineShift = parser.lineShift)
    (hstates : next.states = added ++ parser.states)
    (hadded : added ⊆ [.value, .typeTag, .reduce, .skip]) : Stays state parser next :=
  ⟨by rw [hdraft], hline, htextLine, hlineShift, added, hstates, hadded⟩

theorem stays_setOpen {node statement : Statement} (htop : parser.draft.top = .ok node)
    (hheading : statement.heading? = node.heading?) :
    Stays state parser (parser.setOpen statement) :=
  ⟨begun_setTop htop hheading, rfl, rfl, fun _ => rfl, [], rfl, by simp⟩

theorem stays_openStatement (hstack : parser.draft.stack ≠ []) (statement : Statement)
    {added : List State} (hadded : added ⊆ [.value, .typeTag, .reduce, .skip]) :
    Stays state parser ((parser.openStatement statement).push added) :=
  ⟨begun_push_of_ne_nil hstack, rfl, rfl, fun _ => rfl, added, rfl, hadded⟩

theorem stepOperand_stays {kind : OperandKind}
    (hstep : stepOperand parser kind symbol = .ok (taken, next)) : Stays state parser next := by
  have hsame : Stays state parser parser := .of_states [] rfl rfl rfl (fun _ => rfl) rfl (by simp)
  unfold stepOperand at hstep
  split at hstep
  · cases hstep
    exact hsame
  · cases hstep
    exact .of_states [.value] rfl rfl rfl (fun _ => rfl) rfl (by simp)
  · cases hstep
    exact .of_states [.value] rfl rfl rfl (fun _ => rfl) rfl (by simp)
  · split at hstep
    · obtain ⟨top, htop, hnext⟩ := exists_of_bind_ok hstep
      split at hnext
      · cases hnext
        exact stays_setOpen htop rfl
      · cases hnext
        exact hsame
    · cases hstep
      exact hsame
  · split at hstep
    · obtain ⟨top, htop, hnext⟩ := exists_of_bind_ok hstep
      split at hnext
      · cases hnext
        exact stays_setOpen htop rfl
      · cases hnext
        exact hsame
    · cases hstep
      exact hsame

theorem stepValue_stays (hstack : parser.draft.stack ≠ [])
    (hstep : stepValue parser symbol = .ok (taken, next)) : Stays state parser next := by
  unfold stepValue at hstep
  split at hstep
  · cases hstep
    exact stays_openStatement hstack _ (by simp)
  · split at hstep
    · cases hstep
      exact .of_states [] rfl rfl rfl (fun _ => rfl) rfl (by simp)
    · cases hstep
      exact stays_openStatement hstack _ (by simp)
    · cases hstep
      exact ⟨begun_push_of_ne_nil hstack, rfl, rfl, fun _ => rfl, [.reduce], rfl, by simp⟩

theorem stepTypeTag_stays (hstep : stepTypeTag parser symbol = .ok (taken, next)) :
    Stays state parser next := by
  obtain ⟨top, htop, hnext⟩ := exists_of_bind_ok hstep
  split at hnext
  · rename_i text
    have hset (object : Object) : Stays state parser (parser.setOpen (.value object)) :=
      stays_setOpen htop rfl
    split at hnext
    · cases hnext
      exact hset _
    · split at hnext
      · cases hnext
        exact hset _
      · cases hnext
        exact ⟨(hset .null).begun, rfl, rfl, fun _ => rfl, [], rfl, by simp⟩
  · cases hnext

theorem stepDirective_stays {name : String}
    (hstep : stepDirective parser name symbol = .ok (taken, next)) :
    Stays (.directive name) parser next := by
  unfold stepDirective at hstep
  split at hstep
  · cases hstep
    exact .of_states [] rfl rfl rfl (fun _ => rfl) rfl (by simp)
  · split at hstep
    · rename_i hname
      split at hstep
      · obtain ⟨lineShift, -, hnext⟩ := exists_of_bind_ok hstep
        cases hnext
        exact .of_states [] rfl rfl rfl (fun hother => absurd (by rw [hname.1]) hother) rfl (by simp)
      · cases hstep
        exact .of_states [] rfl rfl rfl (fun _ => rfl) rfl (by simp)
    · cases hstep
      exact .of_states [] rfl rfl rfl (fun _ => rfl) rfl (by simp)

theorem stepEndOfLine_stays (hstep : stepEndOfLine parser symbol = .ok (taken, next)) :
    Stays state parser next := by
  unfold stepEndOfLine at hstep
  split at hstep
  · cases hstep
    exact .of_states [] rfl rfl rfl (fun _ => rfl) rfl (by simp)
  · cases hstep
    exact .of_states [] rfl rfl rfl (fun _ => rfl) rfl (by simp)
  · cases hstep
    exact .of_states [.skip] rfl rfl rfl (fun _ => rfl) rfl (by simp)

theorem stepSkip_stays (hstep : stepSkip parser symbol = .ok (taken, next)) :
    Stays state parser next := by
  unfold stepSkip at hstep
  split at hstep
  · cases hstep
    exact .of_states [] rfl rfl rfl (fun _ => rfl) rfl (by simp)
  · cases hstep
    exact .of_states [] rfl rfl rfl (fun _ => rfl) rfl (by simp)
  · cases hstep
    exact .of_states [.skip] rfl rfl rfl (fun _ => rfl) rfl (by simp)

theorem stays_reportAny (state : State) (parser : Parser) (cause : Option Cause) :
    Stays state parser (parser.reportAny cause) ∧
      (parser.reportAny cause).draft = parser.draft := by
  cases cause <;> exact ⟨.of_states [] rfl rfl rfl (fun _ => rfl) rfl (by simp), rfl⟩

theorem stepReduce_stays (hstep : stepReduce parser = .ok (taken, next)) :
    Stays state parser next := by
  rw [stepReduce_bind] at hstep
  obtain ⟨top, htop, hrest⟩ := exists_of_bind_ok hstep
  obtain ⟨closed, hclose, hnext⟩ := exists_of_bind_ok hrest
  obtain ⟨draft, hmerged, hclosed⟩ := exists_of_bind_ok hclose
  cases hnext
  cases hclosed
  obtain ⟨hstays, hdraft⟩ := stays_reportAny state parser (completed top).2
  have hbegun := begun_setTop htop (Statement.heading?_completed top)
  rw [← hdraft] at hbegun
  exact ⟨(begun_merged hmerged).trans (hbegun.trans hstays.begun), hstays.line, hstays.textLine,
    hstays.lineShift, hstays.states⟩

/-- States inside a line begin no statement. -/
theorem step_stays (hstates : partOf [state] = .inside)
    (hopen : state = .value → parser.draft.stack ≠ [])
    (hstep : step parser state symbol = .ok (taken, next)) : Stays state parser next := by
  cases state with
  | body => cases hstates
  | lines => cases hstates
  | line => cases hstates
  | operand kind => exact stepOperand_stays hstep
  | value => exact stepValue_stays (hopen rfl) hstep
  | typeTag => exact stepTypeTag_stays hstep
  | directive name => exact stepDirective_stays hstep
  | endOfLine => exact stepEndOfLine_stays hstep
  | skip => exact stepSkip_stays hstep
  | reduce => exact stepReduce_stays hstep

end

/-! ## Symbols -/

/-- What a symbol that begins no statement leaves alone. -/
structure Rests (parser next : Parser) : Prop where
  begun : begun next.draft = begun parser.draft
  line : next.position.line = parser.position.line
  textLine : next.textLine = parser.textLine
  calm : Calm parser.states → Calm next.states ∧ next.lineShift = parser.lineShift

section

variable {symbol : Symbol} {parser between next : Parser} {taken : Bool}

theorem Rests.trans (hfirst : Rests parser between) (hsecond : Rests between next) :
    Rests parser next where
  begun := hsecond.begun.trans hfirst.begun
  line := hsecond.line.trans hfirst.line
  textLine := hsecond.textLine.trans hfirst.textLine
  calm hcalm := by
    obtain ⟨hbetween, hshift⟩ := hfirst.calm hcalm
    obtain ⟨hnext, hshift'⟩ := hsecond.calm hbetween
    exact ⟨hnext, hshift'.trans hshift⟩

/-- A step inside a line, with what it does to the states. -/
theorem put_stays (hmark : symbol.kind ≠ .lineMark) (hsteady : Steady parser) {state : State}
    {rest : List State} (hstates : parser.states = state :: rest)
    (hinside : partOf [state] = .inside) (hput : put symbol parser = .ok (taken, next)) :
    Stays state { parser with states := rest } next := by
  rw [put_of_states hmark hstates] at hput
  refine step_stays hinside ?_ hput
  rintro rfl
  have hfits := hsteady.fits
  rw [hstates] at hfits
  show parser.draft.stack ≠ []
  generalize parser.draft.stack = stack at hfits
  cases hfits
  simp

theorem partOf_cons (state : State) (rest : List State) :
    partOf (state :: rest) = partOf [state] := by
  cases state <;> rfl

/-- An offer inside a line begins no statement. -/
theorem put_rests (hmark : symbol.kind ≠ .lineMark) (hsteady : Steady parser)
    (hinside : partOf parser.states = .inside) (hput : put symbol parser = .ok (taken, next)) :
    Rests parser next := by
  cases hstates : parser.states with
  | nil => simp [hstates, partOf] at hinside
  | cons state rest =>
    rw [hstates, partOf_cons] at hinside
    have hstays := put_stays hmark hsteady hstates hinside hput
    refine ⟨hstays.begun, hstays.line, hstays.textLine, fun hcalm => ?_⟩
    obtain ⟨added, hnext, hadded⟩ := hstays.states
    rw [hstates, Calm, List.mem_cons, not_or] at hcalm
    refine ⟨?_, hstays.lineShift (Ne.symm hcalm.1)⟩
    rw [Calm, hnext, List.mem_append, not_or]
    refine ⟨fun hmem => ?_, hcalm.2⟩
    simpa using hadded hmem

/-- What is missing from a statement is not looked for at the end of the line or of the data. -/
theorem declined_of_pending {state : State} (hpending : Pending state)
    (hkind : symbol.kind = .newline ∨ symbol.kind = .endOfData)
    (hstep : step parser state symbol = .ok (taken, next)) : taken = false := by
  obtain ⟨kind, text⟩ := symbol
  have hkind : kind = .newline ∨ kind = .endOfData := hkind
  cases hpending with
  | operand operand => rcases hkind with rfl | rfl <;> cases operand <;> cases hstep <;> rfl
  | value => rcases hkind with rfl | rfl <;> cases hstep <;> rfl
  | typeTag =>
    obtain ⟨top, -, hnext⟩ := exists_of_bind_ok hstep
    rcases hkind with rfl | rfl <;> split at hnext <;> cases hnext <;> rfl
  | directive name =>
    rcases hkind with rfl | rfl
    · simp only [step, stepDirective, reduceCtorEq, or_self, and_false, if_false] at hstep
      cases hstep
      rfl
    · simp only [step, stepDirective, reduceCtorEq, or_self, and_false, if_false] at hstep
      cases hstep
      rfl
  | reduce =>
    simp only [step, stepReduce_bind] at hstep
    obtain ⟨top, -, hrest⟩ := exists_of_bind_ok hstep
    obtain ⟨closed, -, hnext⟩ := exists_of_bind_ok hrest
    cases hnext
    rfl

/-- An offer to a state that waits for a part of a statement stays inside the line, and takes
neither the end of the line nor that of the data. -/
theorem put_pending (hmark : symbol.kind ≠ .lineMark) (hsteady : Steady parser) {state : State}
    {rest : List State} (hstates : parser.states = state :: rest) (hpending : Pending state)
    (hrest : partOf rest = .inside) (hput : put symbol parser = .ok (taken, next)) :
    partOf next.states = .inside ∧
      (taken = true → symbol.kind ≠ .newline ∧ symbol.kind ≠ .endOfData) := by
  constructor
  · have hstate : partOf [state] = .inside := by cases hpending <;> rfl
    obtain ⟨added, hnext, hadded⟩ := (put_stays hmark hsteady hstates hstate hput).states
    rw [hnext]
    cases added with
    | nil => exact hrest
    | cons first added =>
      have hfirst := hadded List.mem_cons_self
      simp only [List.mem_cons, List.not_mem_nil, or_false] at hfirst
      rcases hfirst with rfl | rfl | rfl | rfl <;> rfl
  · rw [put_of_states hmark hstates] at hput
    rintro rfl
    rw [← not_or]
    intro hkind
    cases declined_of_pending hpending hkind hput

/-- An offer inside a line stays there, unless it comes to the end of the line. -/
theorem put_inside (hmark : symbol.kind ≠ .lineMark) (hsteady : Steady parser)
    (hinside : partOf parser.states = .inside) (hput : put symbol parser = .ok (taken, next)) :
    (partOf next.states = .inside ∧
      (taken = true → symbol.kind ≠ .newline ∧ symbol.kind ≠ .endOfData)) ∨
    (next.states = [.lines, .body] ∧
      (taken = true ∧ symbol.kind = .newline ∨ taken = false ∧ symbol.kind = .endOfData)) := by
  have hpending {state : State} {rest : List State} (hstates : parser.states = state :: rest)
      (hpending : Pending state) (hrest : partOf rest = .inside) :=
    put_pending hmark hsteady hstates hpending hrest hput
  have hfits := hsteady.fits
  generalize hstates : parser.states = states, parser.draft.stack = stack at hinside hfits
  cases hfits with
  | done | body | lines | line => cases hinside
  | endOfLine =>
    rw [put_of_states hmark hstates, step, stepEndOfLine] at hput
    split at hput
    · rename_i hkind
      cases hput
      exact .inr ⟨rfl, .inl ⟨rfl, hkind⟩⟩
    · rename_i hkind
      cases hput
      exact .inr ⟨rfl, .inr ⟨rfl, hkind⟩⟩
    · cases hput
      exact .inl ⟨rfl, by simp⟩
  | skip =>
    rw [put_of_states hmark hstates, step, stepSkip] at hput
    split at hput
    · rename_i hkind
      cases hput
      exact .inr ⟨rfl, .inl ⟨rfl, hkind⟩⟩
    · rename_i hkind
      cases hput
      exact .inr ⟨rfl, .inr ⟨rfl, hkind⟩⟩
    · rename_i hnewline hend
      cases hput
      exact .inl ⟨rfl, fun _ => ⟨hnewline, hend⟩⟩
  | directive name => exact .inl (hpending hstates (.directive name) rfl)
  | operand op position => exact .inl (hpending hstates (.operand _) rfl)
  | value hwaits position => exact .inl (hpending hstates .value rfl)
  | closing hinstruction position => exact .inl (hpending hstates .reduce rfl)
  | typeTag text hwaits position place => exact .inl (hpending hstates .typeTag rfl)
  | constant object hwaits position place => exact .inl (hpending hstates .reduce rfl)

/-- What a symbol that is no line mark does, by the part of a line that the parser is in. -/
structure Fed (symbol : Symbol) (parser next : Parser) : Prop where
  part : partOf next.states = (partOf parser.states).behind symbol
  begun : begun next.draft = begun parser.draft ++
    (((partOf parser.states).begins? symbol).map fun heading =>
      (some heading, parser.position.line)).toList
  line : next.position.line = parser.position.line
  textLine : next.textLine = parser.textLine
  calm : Calm parser.states → (partOf parser.states = .start → symbol ≠ ⟨.directive, "line"⟩) →
    Calm next.states ∧ next.lineShift = parser.lineShift

/-- A symbol that begins no statement. -/
theorem Rests.fed (hrests : Rests parser next)
    (hpart : partOf next.states = (partOf parser.states).behind symbol)
    (hnone : (partOf parser.states).begins? symbol = none) : Fed symbol parser next where
  part := hpart
  begun := by
    rw [hrests.begun, hnone]
    simp
  line := hrests.line
  textLine := hrests.textLine
  calm hcalm _ := hrests.calm hcalm

theorem rests_refl (parser : Parser) : Rests parser parser :=
  ⟨rfl, rfl, rfl, fun hcalm => ⟨hcalm, rfl⟩⟩

theorem rests_skipLine (parser : Parser) (cause : Cause) :
    Rests parser (parser.skipLine cause) :=
  ⟨rfl, rfl, rfl, fun hcalm => ⟨by simpa [Calm, skipLine, report, push] using hcalm, rfl⟩⟩

/-- At the start of a line, a symbol that begins no statement makes the parser skip the line. -/
theorem fed_skipLine (hstart : partOf parser.states = .start) (hmark : symbol.kind ≠ .lineMark)
    (hend : symbol.kind ≠ .endOfData) (hnewline : symbol.kind ≠ .newline)
    (hlabel : symbol.kind ≠ .label) (hnone : Heading.ofSymbol? symbol = none) (cause : Cause) :
    Fed symbol parser (parser.skipLine cause) := by
  refine (rests_skipLine parser cause).fed ?_ ?_
  · rw [hstart, LinePart.behind_eq_inside (by simp) hmark hend hnewline hlabel]
    rfl
  · rw [hstart, LinePart.begins?, if_pos rfl, hnone]

/-- At the start of a line, a directive waits for its argument. -/
theorem fed_directive (hstart : partOf parser.states = .start)
    (hkind : symbol.kind = .directive) :
    Fed symbol parser (parser.push [.directive symbol.text, .endOfLine]) where
  part := by
    rw [hstart]
    simp [LinePart.behind, hkind, push, partOf]
  begun := by simp [hstart, LinePart.begins?, Heading.ofSymbol?, hkind, push]
  line := rfl
  textLine := rfl
  calm hcalm hother := by
    have htext : symbol.text ≠ "line" := by
      intro htext
      apply hother hstart
      rw [← hkind, ← htext]
    exact ⟨by simpa [Calm, push, Ne.symm htext] using hcalm, rfl⟩

/-- The start of a line opens the statement that the symbol begins. -/
theorem stepLine_fed (hend : symbol.kind ≠ .endOfData) (hmark : symbol.kind ≠ .lineMark)
    (hstates : parser.states = [.lines, .body]) (hstack : parser.draft.stack = [])
    (hstep : stepLine parser symbol = .ok (taken, next)) : Fed symbol parser next := by
  have hstart : partOf parser.states = .start := by rw [hstates]; rfl
  have hskips := fed_skipLine hstart hmark hend
  unfold stepLine at hstep
  split at hstep
  · rename_i hkind
    cases hstep
    refine (rests_refl parser).fed ?_ ?_
    · simp [hstart, LinePart.behind, hkind]
    · simp [hstart, LinePart.begins?, Heading.ofSymbol?, hkind]
  · exact absurd ‹_› hend
  · rename_i hkind
    rw [close_label _ _ hstack] at hstep
    cases hstep
    refine ⟨?_, ?_, rfl, rfl, fun _ _ => ⟨?_, rfl⟩⟩
    · rw [hstart]
      simp [LinePart.behind, hkind, push, partOf]
    · simp [hstart, LinePart.begins?, Heading.ofSymbol?, hkind, Assembly.begun, hstack, push,
        Statement.heading?]
    · simp [Calm, push, hstates]
  · rename_i hkind
    split at hstep
    · cases hstep
      exact fed_directive hstart hkind
    · cases hstep
      exact hskips (by simp [hkind]) (by simp [hkind]) (by simp [Heading.ofSymbol?, hkind]) _
  · rename_i hkind
    split at hstep
    · rename_i op hop
      cases hstep
      refine ⟨?_, ?_, rfl, rfl, fun _ _ => ⟨?_, rfl⟩⟩
      · rw [hstart, LinePart.behind_eq_inside (by simp) hmark hend (by simp [hkind])
          (by simp [hkind])]
        rfl
      · show Assembly.begun (parser.draft.push _ _) = _
        rw [begun_push_of_nil hstack, Statement.heading?_ofOpcode]
        simp [hstart, LinePart.begins?, Heading.ofSymbol?, hkind, hop]
      · simp [Calm, push, openStatement, hstates]
    · rename_i hop
      cases hstep
      exact hskips (by simp [hkind]) (by simp [hkind]) (by simp [Heading.ofSymbol?, hkind, hop]) _
  · rename_i hkind
    cases hstep
    exact hskips (by simp [hkind]) (by simp [hkind]) (by simp [Heading.ofSymbol?, hkind]) _
  · rename_i hnewline _ hlabel _ hinstruction _
    cases hstep
    exact hskips hnewline hlabel (Heading.ofSymbol?_eq_none hlabel hinstruction) _

/-- At the start of a line nothing is open. -/
theorem stack_of_start (hsteady : Steady parser) (hstart : partOf parser.states = .start) :
    parser.draft.stack = [] ∧ (parser.states = [.body] ∨ parser.states = [.lines, .body] ∨
      parser.states = [.line, .lines, .body]) := by
  have hfits := hsteady.fits
  generalize parser.states = states, parser.draft.stack = stack at hstart hfits
  cases hfits with
  | body | lines | line => simp
  | done | endOfLine | skip | directive | operand | value | closing | typeTag | constant =>
    cases hstart

/-- Only the directive `line` has the parser number lines anew. -/
theorem put_calm (hsteady : Steady parser) (hcalm : Calm parser.states)
    (hother : symbol ≠ ⟨.directive, "line"⟩) (hput : put symbol parser = .ok (taken, next)) :
    Calm next.states ∧ next.lineShift = parser.lineShift := by
  by_cases hmark : symbol.kind = .lineMark
  · rw [put, hmark] at hput
    dsimp only at hput
    split at hput
    · obtain ⟨line, -, hnext⟩ := exists_of_bind_ok hput
      cases hnext
      exact ⟨hcalm, rfl⟩
    · cases hput
      exact ⟨hcalm, rfl⟩
  · cases hpart : partOf parser.states with
    | inside => exact (put_rests hmark hsteady hpart hput).calm hcalm
    | ended =>
      have hstates : parser.states = [] := by
        generalize parser.states = states at hpart
        cases states with
        | nil => rfl
        | cons state rest => cases state <;> cases hpart
      unfold put at hput
      split at hput
      · exact absurd ‹_› hmark
      · simp only [hstates] at hput
        split at hput <;> cases hput <;> exact ⟨hcalm, rfl⟩
    | start =>
      obtain ⟨hstack, hstates | hstates | hstates⟩ := stack_of_start hsteady hpart
      · rw [put_of_states hmark hstates, step, stepBody] at hput
        split at hput <;> cases hput <;> exact ⟨by simp [Calm, push], rfl⟩
      · rw [put_of_states hmark hstates, step, stepLines] at hput
        split at hput <;> cases hput <;> exact ⟨by simp [Calm, push], rfl⟩
      · rw [put_of_states hmark hstates, step] at hput
        by_cases hend : symbol.kind = .endOfData
        · rw [stepLine, hend] at hput
          cases hput
          exact ⟨by simp [Calm], rfl⟩
        · have hfed : Fed symbol { parser with states := [.lines, .body] } next :=
            stepLine_fed hend hmark rfl hstack hput
          exact hfed.calm (by simp [Calm]) fun _ => hother

theorem eq_of_states {states : List State} (hstates : parser.states = states) :
    parser = { parser with states := states } := by
  rw [← hstates]

/-- At the start of a line the end of the data is the end. -/
theorem takes_end_of_start (hend : symbol.kind = .endOfData) (hsteady : Steady parser)
    (hstart : partOf parser.states = .start) (htakes : Takes (put symbol) parser next) :
    next = { parser with states := [], finished := true } := by
  obtain ⟨kind, text⟩ := symbol
  obtain rfl : kind = .endOfData := hend
  have hbody (htakes : Takes (put ⟨.endOfData, text⟩) { parser with states := [.body] } next) :
      next = { parser with states := [], finished := true } := htakes.of_taken rfl
  have hlines (htakes : Takes (put ⟨.endOfData, text⟩) { parser with states := [.lines, .body] } next) :
      next = { parser with states := [], finished := true } := hbody (htakes.of_declined rfl)
  rcases (stack_of_start hsteady hstart).2 with hstates | hstates | hstates
  · rw [eq_of_states hstates] at htakes
    exact hbody htakes
  · rw [eq_of_states hstates] at htakes
    exact hlines htakes
  · rw [eq_of_states hstates] at htakes
    exact hlines (htakes.of_declined rfl)

/-- At the start of a line every other symbol is read as the first of the line. -/
theorem takes_of_start (hmark : symbol.kind ≠ .lineMark) (hend : symbol.kind ≠ .endOfData)
    (hsteady : Steady parser) (hstart : partOf parser.states = .start)
    (htakes : Takes (put symbol) parser next) :
    stepLine { parser with states := [.lines, .body] } symbol = .ok (true, next) := by
  have hline (htakes : Takes (put symbol) { parser with states := [.line, .lines, .body] } next) :
      stepLine { parser with states := [.lines, .body] } symbol = .ok (true, next) := by
    have hput : put symbol { parser with states := [.line, .lines, .body] } =
        stepLine { parser with states := [.lines, .body] } symbol := by
      rw [put_of_states hmark rfl]
      rfl
    cases htakes with
    | taken htaken => exact hput.symm.trans htaken
    | declined hdeclined _ =>
      obtain ⟨_, hreplaces, _⟩ := stepLine_steps (hput.symm.trans hdeclined)
      cases hreplaces
      exact absurd ‹_› hend
  have hlines (htakes : Takes (put symbol) { parser with states := [.lines, .body] } next) :
      stepLine { parser with states := [.lines, .body] } symbol = .ok (true, next) := by
    refine hline (htakes.of_declined ?_)
    rw [put_of_states hmark rfl, step, stepLines, if_neg hend]
    rfl
  rcases (stack_of_start hsteady hstart).2 with hstates | hstates | hstates
  · refine hlines (htakes.of_declined ?_)
    rw [put_of_states hmark hstates, step, stepBody, if_neg hend]
    rfl
  · rw [eq_of_states hstates] at htakes
    exact hlines htakes
  · rw [eq_of_states hstates] at htakes
    exact hline htakes

/-- Inside a line no symbol begins a statement. -/
theorem takes_of_inside (hmark : symbol.kind ≠ .lineMark) (htakes : Takes (put symbol) parser next)
    (hsteady : Steady parser) (hinside : partOf parser.states = .inside) :
    Rests parser next ∧ partOf next.states = LinePart.inside.behind symbol := by
  have hbehind (hnewline : symbol.kind ≠ .newline) (hend : symbol.kind ≠ .endOfData) :
      LinePart.inside.behind symbol = .inside := by
    unfold LinePart.behind
    split <;> simp_all
  induction htakes with
  | taken htaken =>
    refine ⟨put_rests hmark hsteady hinside htaken, ?_⟩
    rcases put_inside hmark hsteady hinside htaken with ⟨hpart, hkind⟩ | ⟨hstates, hkind⟩
    · obtain ⟨hnewline, hend⟩ := hkind rfl
      rw [hpart, hbehind hnewline hend]
    · obtain ⟨-, hkind⟩ | ⟨hfalse, -⟩ := hkind
      · rw [hstates]
        simp [LinePart.behind, hkind, partOf]
      · cases hfalse
  | declined hdeclined hrest ih =>
    have hnext := steady_of_put hsteady hdeclined
    have hrests := put_rests hmark hsteady hinside hdeclined
    rcases put_inside hmark hsteady hinside hdeclined with ⟨hpart, -⟩ | ⟨hstates, hkind⟩
    · obtain ⟨hmore, hlast⟩ := ih hnext hpart
      exact ⟨hrests.trans hmore, hlast⟩
    · obtain ⟨hfalse, -⟩ | ⟨-, hkind⟩ := hkind
      · cases hfalse
      · have hended := takes_end_of_start hkind hnext (by rw [hstates]; rfl) hrest
        subst hended
        refine ⟨hrests.trans ⟨rfl, rfl, rfl, fun _ => ⟨by simp [Calm], rfl⟩⟩, ?_⟩
        simp [LinePart.behind, hkind, partOf]

/-- Behind the end of the data symbols are reported at most. -/
theorem takes_of_ended (hmark : symbol.kind ≠ .lineMark) (hstates : parser.states = [])
    (htakes : Takes (put symbol) parser next) : Rests parser next ∧ next.states = [] := by
  have hput : ∃ last, put symbol parser = .ok (true, last) ∧ Rests parser last ∧
      last.states = [] := by
    unfold put
    split
    · exact absurd ‹_› hmark
    · rw [hstates]
      dsimp only
      split
      · exact ⟨parser, rfl, rests_refl parser, hstates⟩
      · exact ⟨_, rfl, ⟨rfl, rfl, rfl, fun hcalm => ⟨hcalm, rfl⟩⟩, hstates⟩
  obtain ⟨last, hput, hrests⟩ := hput
  rwa [htakes.of_taken hput]

/-- Every symbol that is no line mark is fed as the part of the line demands. -/
theorem takes_fed (hmark : symbol.kind ≠ .lineMark) (hsteady : Steady parser)
    (htakes : Takes (put symbol) parser next) : Fed symbol parser next := by
  cases hpart : partOf parser.states with
  | start =>
    by_cases hend : symbol.kind = .endOfData
    · obtain rfl := takes_end_of_start hend hsteady hpart htakes
      have hrests : Rests parser { parser with states := [], finished := true } :=
        ⟨rfl, rfl, rfl, fun _ => ⟨by simp [Calm], rfl⟩⟩
      refine hrests.fed ?_ ?_
      · rw [hpart]
        simp [LinePart.behind, hend, partOf]
      · simp [LinePart.begins?, Heading.ofSymbol?, hend]
    · have hstep := takes_of_start hmark hend hsteady hpart htakes
      have hfed : Fed symbol { parser with states := [.lines, .body] } next :=
        stepLine_fed hend hmark rfl (stack_of_start hsteady hpart).1 hstep
      refine ⟨?_, ?_, hfed.line, hfed.textLine, fun _ hother => ?_⟩
      · rw [hfed.part, hpart]
        rfl
      · rw [hfed.begun, hpart]
        rfl
      · exact hfed.calm (by simp [Calm]) fun _ => hother hpart
  | inside =>
    obtain ⟨hrests, hnext⟩ := takes_of_inside hmark htakes hsteady hpart
    refine hrests.fed (hnext.trans (by rw [hpart])) ?_
    simp [hpart, LinePart.begins?]
  | ended =>
    have hstates : parser.states = [] := by
      generalize parser.states = states at hpart
      unfold partOf at hpart
      split at hpart <;> first | rfl | cases hpart
    obtain ⟨hrests, hnext⟩ := takes_of_ended hmark hstates htakes
    refine hrests.fed ?_ ?_
    · rw [hnext, hpart]
      rfl
    · simp [hpart, LinePart.begins?]

end

end Parser
end Docpress.Assembly
