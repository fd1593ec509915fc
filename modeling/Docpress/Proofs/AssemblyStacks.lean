import Docpress.Assembly.Parser
import Docpress.Proofs.Draft
import Docpress.Proofs.Offer

/-!
# Stacks of the assembly parser

The parser of assembly text works line by line, so its two stacks stay small: at most one
instruction is open, and on top of it at most its operand.  `Fits` lists the combinations of
states and open statements that occur.  From each of them every symbol leads to another one
(`put_steady`), and the parser declares labels and instructions with their operands in place only.

The one way to fail is arithmetic.  `Overflow` says which numbers do not fit in 64 bits; the offer
is then a fault (`put_overflow`), and it is none in all other cases.
-/

namespace Docpress

/-! ## Checked arithmetic -/

namespace Arithmetic

variable {x y : Int64}

theorem addition_of_inRange (hrange : InRange (x.toInt + y.toInt)) :
    addition.apply x y = .ok (.ofInt (x.toInt + y.toInt)) := if_pos hrange

theorem addition_of_not_inRange (hrange : ¬ InRange (x.toInt + y.toInt)) :
    addition.apply x y = .error (.overflow .addition) := if_neg hrange

theorem subtraction_of_inRange (hrange : InRange (x.toInt - y.toInt)) :
    subtraction.apply x y = .ok (.ofInt (x.toInt - y.toInt)) := if_pos hrange

theorem subtraction_of_not_inRange (hrange : ¬ InRange (x.toInt - y.toInt)) :
    subtraction.apply x y = .error (.overflow .subtraction) := if_neg hrange

theorem inRange_iff {n : Int} :
    InRange n ↔ -9223372036854775808 ≤ n ∧ n ≤ 9223372036854775807 :=
  Iff.rfl

theorem inRange_toInt (x : Int64) : InRange x.toInt :=
  ⟨x.minValue_le_toInt, x.toInt_le⟩

theorem toInt_ofInt {n : Int} (hrange : InRange n) : (Int64.ofInt n).toInt = n :=
  Int64.toInt_ofInt_of_le hrange.1 (Int.lt_add_one_of_le hrange.2)

end Arithmetic

namespace Assembly

/-! ## Statements -/

namespace Statement

/-- The statement is an instruction in the form that its operand has. -/
def IsInstruction : Statement → Prop
  | .operation op => op.operand = .bare
  | .push _ | .forward _ => True
  | .invoke op _ _ => op.operand = .ident
  | .jump op _ => op.operand = .label
  | .label _ | .literal _ | .value _ => False

/-- The statement can stand in a program: a label, or an instruction with its operand. -/
def IsDeclared : Statement → Prop
  | .label _ => True
  | .push none | .forward none => False
  | statement => statement.IsInstruction

/-- The statement is an instruction that waits for a constant. -/
inductive Waits : Statement → Prop where
  | push : Waits (.push none)
  | forward : Waits (.forward none)

theorem Waits.isInstruction {statement : Statement} (hwaits : statement.Waits) :
    statement.IsInstruction := by
  cases hwaits <;> trivial

/-- An instruction that waits for a constant takes any. -/
theorem Waits.attach {statement : Statement} (hwaits : statement.Waits) (object : Object) :
    ∃ next, Construct.attach statement (.value object) = .ok next ∧ next.IsInstruction := by
  cases hwaits <;> exact ⟨_, rfl, trivial⟩

theorem isInstruction_ofOpcode (op : Opcode) : (ofOpcode op).IsInstruction := by
  cases op <;> trivial

/-- Opcodes with a constant or an identifier as operand start instructions that wait. -/
theorem waits_ofOpcode {op : Opcode} (hoperand : op.operand = .value ∨ op.operand = .uuid) :
    (ofOpcode op).Waits := by
  rcases hoperand with hoperand | hoperand
  · simp only [ofOpcode, hoperand]
    exact .push
  · simp only [ofOpcode, hoperand]
    exact .forward

theorem isDeclared_completed {statement : Statement} (hinstruction : statement.IsInstruction) :
    (Parser.completed statement).1.IsDeclared := by
  cases statement with
  | label name => exact hinstruction.elim
  | literal text => exact hinstruction.elim
  | value object => exact hinstruction.elim
  | operation op => exact hinstruction
  | push operand => cases operand <;> trivial
  | invoke op name id => exact hinstruction
  | forward operand => trivial
  | jump op target => exact hinstruction

end Statement

/-! ## Stacks that fit -/

/-- The states for the rest of a line and of the text. -/
def lineEnd : List State := [.endOfLine, .lines, .body]

/-- The states fit the open statements. -/
inductive Fits : List State → List (Statement × Position) → Prop where
  | done : Fits [] []
  | body : Fits [.body] []
  | lines : Fits [.lines, .body] []
  | line : Fits [.line, .lines, .body] []
  | endOfLine : Fits lineEnd []
  | skip : Fits [.skip, .lines, .body] []
  | directive (name : String) : Fits (.directive name :: lineEnd) []
  | operand (op : Opcode) (position : Position) :
      Fits (.operand op.operand :: .reduce :: lineEnd) [(.ofOpcode op, position)]
  | value {statement : Statement} (hwaits : statement.Waits) (position : Position) :
      Fits (.value :: .reduce :: lineEnd) [(statement, position)]
  | closing {statement : Statement} (hinstruction : statement.IsInstruction)
      (position : Position) : Fits (.reduce :: lineEnd) [(statement, position)]
  | typeTag {statement : Statement} (text : String) (hwaits : statement.Waits)
      (position place : Position) :
      Fits (.typeTag :: .reduce :: .reduce :: lineEnd)
        [(.literal text, position), (statement, place)]
  | constant {statement : Statement} (object : Object) (hwaits : statement.Waits)
      (position place : Position) :
      Fits (.reduce :: .reduce :: lineEnd) [(.value object, position), (statement, place)]

namespace Parser

/-- The stacks fit, the end of the data leaves no state, and the declarations can stand in a
program. -/
structure Steady (parser : Parser) : Prop where
  fits : Fits parser.states parser.draft.stack
  finished : parser.finished = true → parser.states = []
  decls : ∀ decl ∈ parser.draft.decls, decl.node.IsDeclared

theorem steady_start (file : String) (retryLimit : Nat) (functions : FunctionTable) :
    Steady (start file retryLimit functions) where
  fits := .body
  finished hfinished := by cases hfinished
  decls decl hmem := by simp [start] at hmem

/-! ## Overflow -/

/-- The number of the next line is not about to be set. -/
def Calm (states : List State) : Prop := State.directive "line" ∉ states

/-- A number that the parser is to compute for the symbol does not fit. -/
inductive Overflow (parser : Parser) (symbol : Symbol) : Arithmetic → Prop where
  /-- the number of the line that a mark gives -/
  | mark {line : UInt64} (hkind : symbol.kind = .lineMark)
      (hread : Text.readUInt64? symbol.text = some line)
      (hrange : ¬ Arithmetic.InRange
        ((Int64.ofNat line.toNat).toInt + parser.lineShift.toInt)) :
      Overflow parser symbol .addition
  /-- the line behind a directive -/
  | following {rest : List State} {number : Int64}
      (hstates : parser.states = .directive "line" :: rest) (hkind : symbol.kind = .number)
      (hread : Text.readInt64? symbol.text = some number)
      (hrange : ¬ Arithmetic.InRange ((Int64.ofNat parser.textLine).toInt + 1)) :
      Overflow parser symbol .addition
  /-- the difference between the number that a directive gives to that line and the line -/
  | shift {rest : List State} {number : Int64}
      (hstates : parser.states = .directive "line" :: rest) (hkind : symbol.kind = .number)
      (hread : Text.readInt64? symbol.text = some number)
      (hfollowing : Arithmetic.InRange ((Int64.ofNat parser.textLine).toInt + 1))
      (hrange : ¬ Arithmetic.InRange
        (number.toInt - ((Int64.ofNat parser.textLine).toInt + 1))) :
      Overflow parser symbol .subtraction

/-- All numbers that the parser is to compute for the symbol fit. -/
def Safe (parser : Parser) (symbol : Symbol) : Prop :=
  ∀ operation, ¬ Overflow parser symbol operation

section

variable {parser : Parser} {symbol : Symbol} {operation : Arithmetic}

theorem shifted_of_inRange {line : Nat}
    (hrange : Arithmetic.InRange ((Int64.ofNat line).toInt + parser.lineShift.toInt)) :
    parser.shifted line = .ok
      (max (Int64.ofInt ((Int64.ofNat line).toInt + parser.lineShift.toInt)) 1).toNatClampNeg := by
  rw [shifted, Arithmetic.addition_of_inRange hrange]
  rfl

/-- Without a shift every line has a number. -/
theorem shifted_of_lineShift (hshift : parser.lineShift = 0) (line : Nat) :
    ∃ number, parser.shifted line = .ok number := by
  refine ⟨_, shifted_of_inRange ?_⟩
  rw [hshift, Int64.toInt_zero, Int.add_zero]
  exact Arithmetic.inRange_toInt _

/-- The shift is one difference, once the line behind the directive has a number. -/
theorem shiftTo_eq {number : Int64}
    (hfollowing : Arithmetic.InRange ((Int64.ofNat parser.textLine).toInt + 1)) :
    parser.shiftTo number = Arithmetic.subtraction.apply number
      (.ofInt ((Int64.ofNat parser.textLine).toInt + 1)) := by
  rw [shiftTo, Arithmetic.addition_of_inRange (by exact hfollowing)]
  rfl

theorem shiftTo_of_inRange {number : Int64}
    (hfollowing : Arithmetic.InRange ((Int64.ofNat parser.textLine).toInt + 1))
    (hrange : Arithmetic.InRange (number.toInt - ((Int64.ofNat parser.textLine).toInt + 1))) :
    parser.shiftTo number =
      .ok (.ofInt (number.toInt - ((Int64.ofNat parser.textLine).toInt + 1))) := by
  rw [← Arithmetic.toInt_ofInt hfollowing] at hrange ⊢
  rw [shiftTo_eq hfollowing, Arithmetic.subtraction_of_inRange hrange]

/-- The argument of a directive is read with the number that it is. -/
theorem put_lineNumber {rest : List State} {number : Int64}
    (hstates : parser.states = .directive "line" :: rest) (hkind : symbol.kind = .number)
    (hread : Text.readInt64? symbol.text = some number) :
    put symbol parser = (do
      let lineShift ← parser.shiftTo number
      return (true, { parser with states := rest, lineShift })) := by
  simp only [put, hkind, hstates, step, stepDirective, hread]
  rfl

theorem put_overflow (hoverflow : Overflow parser symbol operation) :
    put symbol parser = .error (.overflow operation) := by
  cases hoverflow with
  | mark hkind hread hrange =>
    simp only [put, hkind, hread, shifted, Arithmetic.addition_of_not_inRange hrange]
    rfl
  | following hstates hkind hread hrange =>
    rw [put_lineNumber hstates hkind hread, shiftTo,
      Arithmetic.addition_of_not_inRange (by exact hrange)]
    rfl
  | shift hstates hkind hread hfollowing hrange =>
    rw [← Arithmetic.toInt_ofInt hfollowing] at hrange
    rw [put_lineNumber hstates hkind hread, shiftTo_eq hfollowing,
      Arithmetic.subtraction_of_not_inRange hrange]
    rfl

/-- An offer that succeeds has computed numbers that fit. -/
theorem safe_of_put {result : Bool × Parser} (hput : put symbol parser = .ok result) :
    Safe parser symbol := by
  intro operation hoverflow
  rw [put_overflow hoverflow] at hput
  cases hput

/-- Only line marks and the arguments of `.line` are computed with. -/
theorem safe_of_calm (hmark : symbol.kind ≠ .lineMark) (hcalm : Calm parser.states) :
    Safe parser symbol := by
  intro operation hoverflow
  cases hoverflow with
  | mark hkind => exact hmark hkind
  | following hstates => simp [Calm, hstates] at hcalm
  | shift hstates => simp [Calm, hstates] at hcalm

theorem safe_of_kind (hmark : symbol.kind ≠ .lineMark) (hnumber : symbol.kind ≠ .number) :
    Safe parser symbol := by
  intro operation hoverflow
  cases hoverflow with
  | mark hkind => exact hmark hkind
  | following _ hkind => exact hnumber hkind
  | shift _ hkind => exact hnumber hkind

/-- Lines that are not numbered anew keep numbers that fit. -/
theorem safe_of_lineShift (hshift : parser.lineShift = 0) (hcalm : Calm parser.states) :
    Safe parser symbol := by
  by_cases hmark : symbol.kind = .lineMark
  · intro operation hoverflow
    cases hoverflow with
    | mark _ _ hrange =>
      rw [hshift, Int64.toInt_zero, Int.add_zero] at hrange
      exact hrange (Arithmetic.inRange_toInt _)
    | following hstates => simp [Calm, hstates] at hcalm
    | shift hstates => simp [Calm, hstates] at hcalm
  · exact safe_of_calm hmark hcalm

end

/-- The step succeeds and leaves a steady parser. -/
def Steadies (result : Except Fault (Bool × Parser)) : Prop :=
  ∃ taken next, result = .ok (taken, next) ∧ Steady next

/-! ## Steps

Every step below is taken from a steady parser that the end of the data has not reached. -/

section

variable {symbol : Symbol} {parser : Parser} {rest : List State}

/-- A step that leaves the declarations alone and stacks that fit. -/
theorem Steadies.intro {result : Except Fault (Bool × Parser)} (hsteady : Steady parser)
    (hopen : parser.finished = false) {taken : Bool} {next : Parser}
    (hresult : result = .ok (taken, next)) (hfits : Fits next.states next.draft.stack)
    (hdecls : next.draft.decls = parser.draft.decls)
    (hfinished : next.finished = parser.finished) : Steadies result := by
  refine ⟨taken, next, hresult, hfits, fun h => ?_, hdecls ▸ hsteady.decls⟩
  rw [hfinished, hopen] at h
  cases h

/-- A step that exchanges the open statement for one that the states fit. -/
theorem Steadies.exchange {result : Except Fault (Bool × Parser)} (hsteady : Steady parser)
    (hopen : parser.finished = false) {node statement : Statement} {position : Position}
    {below : List (Statement × Position)} (hstack : parser.draft.stack = (node, position) :: below)
    {taken : Bool} {next : Parser} (hresult : result = .ok (taken, next.setOpen statement))
    (hdraft : next.draft = parser.draft) (hfits : Fits next.states ((statement, position) :: below))
    (hfinished : next.finished = parser.finished) : Steadies result := by
  have hset : (next.setOpen statement).draft =
      { parser.draft with stack := (statement, position) :: below } := by
    rw [setOpen, hdraft, Draft.setTop_of_stack hstack]
  refine .intro hsteady hopen hresult ?_ (by rw [hset]) hfinished
  rw [hset]
  exact hfits

theorem stepBody_steady (hsteady : Steady parser) (hopen : parser.finished = false)
    (hstack : parser.draft.stack = []) :
    Steadies (stepBody { parser with states := [] } symbol) := by
  unfold stepBody
  split
  · exact ⟨true, _, rfl, hstack ▸ .done, fun _ => rfl, hsteady.decls⟩
  · exact .intro hsteady hopen rfl (hstack ▸ .lines) rfl rfl

theorem stepLines_steady (hsteady : Steady parser) (hopen : parser.finished = false)
    (hstack : parser.draft.stack = []) :
    Steadies (stepLines { parser with states := [.body] } symbol) := by
  unfold stepLines
  split
  · exact .intro hsteady hopen rfl (hstack ▸ .body) rfl rfl
  · exact .intro hsteady hopen rfl (hstack ▸ .line) rfl rfl

/-- A label is declared at once. -/
theorem close_label (parser : Parser) (name : String) (hstack : parser.draft.stack = []) :
    (parser.openStatement (.label name)).close =
      .ok { parser with draft := ⟨parser.draft.decls.push ⟨.label name, parser.position⟩, []⟩ } := by
  have hopened : (parser.draft.push (.label name) parser.position).stack =
      [(.label name, parser.position)] := by
    rw [Draft.push, hstack]
  unfold close openStatement
  rw [Draft.merged_of_single hopened]
  rfl

theorem stepLine_steady (hsteady : Steady parser) (hopen : parser.finished = false)
    (hstack : parser.draft.stack = []) :
    Steadies (stepLine { parser with states := [.lines, .body] } symbol) := by
  unfold stepLine
  split
  · exact .intro hsteady hopen rfl (hstack ▸ .lines) rfl rfl
  · exact .intro hsteady hopen rfl (hstack ▸ .lines) rfl rfl
  · rw [close_label { parser with states := [.lines, .body] } symbol.text hstack, ok_bind]
    refine ⟨true, _, rfl, .line, fun h => ?_, fun decl hmem => ?_⟩
    · exact absurd h (by simp [push, hopen])
    · rcases Array.mem_push.1 hmem with hmem | rfl
      · exact hsteady.decls decl hmem
      · trivial
  · split
    · exact .intro hsteady hopen rfl (hstack ▸ .directive symbol.text) rfl rfl
    · exact .intro hsteady hopen rfl (hstack ▸ .skip) rfl rfl
  · split
    · rename_i op _
      refine .intro hsteady hopen rfl ?_ rfl rfl
      show Fits _ ((.ofOpcode op, parser.position) :: parser.draft.stack)
      rw [hstack]
      exact .operand op parser.position
    · exact .intro hsteady hopen rfl (hstack ▸ .skip) rfl rfl
  · exact .intro hsteady hopen rfl (hstack ▸ .skip) rfl rfl
  · exact .intro hsteady hopen rfl (hstack ▸ .skip) rfl rfl

theorem stepOperand_steady (hsteady : Steady parser) (hopen : parser.finished = false)
    {op : Opcode} {position : Position}
    (hstack : parser.draft.stack = [(.ofOpcode op, position)]) :
    Steadies (stepOperand { parser with states := .reduce :: lineEnd } op.operand symbol) := by
  have hclosing : Fits (.reduce :: lineEnd) parser.draft.stack :=
    hstack ▸ .closing (Statement.isInstruction_ofOpcode op) position
  have hvalue : op.operand = .value ∨ op.operand = .uuid →
      Fits (.value :: .reduce :: lineEnd) parser.draft.stack := fun hoperand =>
    hstack ▸ .value (Statement.waits_ofOpcode hoperand) position
  unfold stepOperand
  split
  · exact .intro hsteady hopen rfl hclosing rfl rfl
  · rename_i hoperand
    exact .intro hsteady hopen rfl (hvalue (.inl hoperand)) rfl rfl
  · rename_i hoperand
    exact .intro hsteady hopen rfl (hvalue (.inr hoperand)) rfl rfl
  · rename_i hoperand
    have hinvoke : Statement.ofOpcode op = .invoke op "" none := by
      rw [Statement.ofOpcode, hoperand]
    split
    · rw [Draft.top_of_stack hstack, ok_bind, hinvoke]
      refine .exchange hsteady hopen hstack rfl rfl (.closing ?_ position) rfl
      exact hoperand
    · exact .intro hsteady hopen rfl hclosing rfl rfl
  · rename_i hoperand
    have hjump : Statement.ofOpcode op = .jump op "" := by
      rw [Statement.ofOpcode, hoperand]
    split
    · rw [Draft.top_of_stack hstack, ok_bind, hjump]
      refine .exchange hsteady hopen hstack rfl rfl (.closing ?_ position) rfl
      exact hoperand
    · exact .intro hsteady hopen rfl hclosing rfl rfl

theorem stepValue_steady (hsteady : Steady parser) (hopen : parser.finished = false)
    {statement : Statement} {position : Position} (hwaits : statement.Waits)
    (hstack : parser.draft.stack = [(statement, position)]) :
    Steadies (stepValue { parser with states := .reduce :: lineEnd } symbol) := by
  have hconstant (object : Object) :
      Fits (.reduce :: .reduce :: lineEnd)
        ((.value object, parser.position) :: parser.draft.stack) :=
    hstack ▸ .constant object hwaits parser.position position
  unfold stepValue
  split
  · refine .intro hsteady hopen rfl ?_ rfl rfl
    show Fits _ ((.literal symbol.text, parser.position) :: parser.draft.stack)
    rw [hstack]
    exact .typeTag symbol.text hwaits parser.position position
  · split
    · exact .intro hsteady hopen rfl (hstack ▸ .closing hwaits.isInstruction position) rfl rfl
    · exact .intro hsteady hopen rfl (hconstant _) rfl rfl
    · exact .intro hsteady hopen rfl (hconstant .null) rfl rfl

theorem stepTypeTag_steady (hsteady : Steady parser) (hopen : parser.finished = false)
    {statement : Statement} {text : String} {position place : Position}
    (hwaits : statement.Waits)
    (hstack : parser.draft.stack = [(.literal text, position), (statement, place)]) :
    Steadies (stepTypeTag { parser with states := .reduce :: .reduce :: lineEnd } symbol) := by
  unfold stepTypeTag
  rw [Draft.top_of_stack hstack, ok_bind]
  dsimp only
  -- whatever the constant turns out to be, it takes the place of the literal
  have hfits (object : Object) : Fits (.reduce :: .reduce :: lineEnd)
      [(.value object, position), (statement, place)] := .constant object hwaits position place
  split
  · exact .exchange hsteady hopen hstack rfl rfl (hfits _) rfl
  · split
    · exact .exchange hsteady hopen hstack rfl rfl (hfits _) rfl
    · exact .exchange hsteady hopen hstack rfl rfl (hfits _) rfl

theorem stepDirective_steady (hsteady : Steady parser) (hopen : parser.finished = false)
    (hstack : parser.draft.stack = []) {name : String}
    (hstates : parser.states = .directive name :: lineEnd) (hsafe : Safe parser symbol) :
    Steadies (stepDirective { parser with states := lineEnd } name symbol) := by
  have hfits : Fits lineEnd parser.draft.stack := hstack ▸ .endOfLine
  unfold stepDirective
  split
  · exact .intro hsteady hopen rfl hfits rfl rfl
  · split
    · rename_i hname
      obtain ⟨rfl, hkind⟩ := hname
      split
      · rename_i number hread
        have hfollowing := Decidable.not_not.1 fun hrange =>
          hsafe _ (.following hstates hkind hread hrange)
        have hrange := Decidable.not_not.1 fun hrange =>
          hsafe _ (.shift hstates hkind hread hfollowing hrange)
        rw [@shiftTo_of_inRange { parser with states := lineEnd } number hfollowing hrange]
        exact .intro hsteady hopen rfl hfits rfl rfl
      · exact .intro hsteady hopen rfl hfits rfl rfl
    · exact .intro hsteady hopen rfl hfits rfl rfl

theorem stepEndOfLine_steady (hsteady : Steady parser) (hopen : parser.finished = false)
    (hstack : parser.draft.stack = []) :
    Steadies (stepEndOfLine { parser with states := [.lines, .body] } symbol) := by
  unfold stepEndOfLine
  split
  · exact .intro hsteady hopen rfl (hstack ▸ .lines) rfl rfl
  · exact .intro hsteady hopen rfl (hstack ▸ .lines) rfl rfl
  · exact .intro hsteady hopen rfl (hstack ▸ .skip) rfl rfl

theorem stepSkip_steady (hsteady : Steady parser) (hopen : parser.finished = false)
    (hstack : parser.draft.stack = []) :
    Steadies (stepSkip { parser with states := [.lines, .body] } symbol) := by
  unfold stepSkip
  split
  · exact .intro hsteady hopen rfl (hstack ▸ .lines) rfl rfl
  · exact .intro hsteady hopen rfl (hstack ▸ .lines) rfl rfl
  · exact .intro hsteady hopen rfl (hstack ▸ .skip) rfl rfl

/-- The parser after a report of the cause, if there is one. -/
def reportAny (parser : Parser) : Option Cause → Parser
  | some cause => parser.report cause
  | none => parser

/-- Closing a statement puts its operand in place first. -/
theorem stepReduce_eq {statement : Statement} {position : Position}
    {below : List (Statement × Position)}
    (hstack : parser.draft.stack = (statement, position) :: below) :
    stepReduce { parser with states := rest } = (do
      let draft ← Draft.merged
        { parser.draft with stack := ((completed statement).1, position) :: below }
      return (false,
        { parser.reportAny (completed statement).2 with states := rest, draft := draft })) := by
  unfold stepReduce
  rw [Draft.top_of_stack hstack, ok_bind]
  dsimp only
  cases (completed statement).2 with
  | none =>
    dsimp only [setOpen, close]
    rw [Draft.setTop_of_stack hstack, bind_assoc]
    rfl
  | some cause =>
    dsimp only [setOpen, close, report]
    rw [Draft.setTop_of_stack hstack, bind_assoc]
    rfl

theorem reportAny_finished (parser : Parser) (cause : Option Cause) :
    (parser.reportAny cause).finished = parser.finished := by
  cases cause <;> rfl

/-- Closing an instruction declares it. -/
theorem stepReduce_steady_of_instruction (hsteady : Steady parser)
    (hopen : parser.finished = false) {statement : Statement} {position : Position}
    (hinstruction : statement.IsInstruction)
    (hstack : parser.draft.stack = [(statement, position)]) :
    Steadies (stepReduce { parser with states := lineEnd }) := by
  rw [stepReduce_eq hstack, Draft.merged_of_single rfl, ok_bind]
  refine ⟨false, _, rfl, .endOfLine, fun h => ?_, fun decl hmem => ?_⟩
  · rw [reportAny_finished, hopen] at h
    cases h
  · rcases Array.mem_push.1 hmem with hmem | rfl
    · exact hsteady.decls decl hmem
    · exact Statement.isDeclared_completed hinstruction

/-- Closing a constant attaches it to the instruction that waits for it. -/
theorem stepReduce_steady_of_constant (hsteady : Steady parser)
    (hopen : parser.finished = false) {statement : Statement} {object : Object}
    {position place : Position} (hwaits : statement.Waits)
    (hstack : parser.draft.stack = [(.value object, position), (statement, place)]) :
    Steadies (stepReduce { parser with states := .reduce :: lineEnd }) := by
  obtain ⟨next, hattach, hinstruction⟩ := hwaits.attach object
  rw [stepReduce_eq hstack, Draft.merged_of_attach rfl hattach, ok_bind]
  exact .intro hsteady hopen rfl (.closing hinstruction place) rfl (reportAny_finished _ _)

/-- From a steady parser every offer that computes numbers which fit succeeds and leaves a steady
one. -/
theorem put_steady (symbol : Symbol) (hsteady : Steady parser) (hsafe : Safe parser symbol) :
    Steadies (put symbol parser) := by
  unfold put
  split
  · rename_i hkind
    split
    · rename_i hread
      have hrange := Decidable.not_not.1 fun hrange => hsafe _ (.mark hkind hread hrange)
      rw [shifted_of_inRange hrange]
      exact ⟨true, _, rfl, hsteady.fits, hsteady.finished, hsteady.decls⟩
    · exact ⟨true, _, rfl, hsteady⟩
  · split
    · split
      · exact ⟨true, _, rfl, hsteady⟩
      · exact ⟨true, _, rfl, hsteady.fits, hsteady.finished, hsteady.decls⟩
    · rename_i state rest hstates
      have hopen : parser.finished = false := by
        cases hfinished : parser.finished with
        | false => rfl
        | true => exact absurd (hsteady.finished hfinished) (by simp [hstates])
      have hfits := hsteady.fits
      rw [hstates] at hfits
      generalize hstack : parser.draft.stack = stack at hfits
      cases hfits with
      | body => exact stepBody_steady hsteady hopen hstack
      | lines => exact stepLines_steady hsteady hopen hstack
      | line => exact stepLine_steady hsteady hopen hstack
      | endOfLine => exact stepEndOfLine_steady hsteady hopen hstack
      | skip => exact stepSkip_steady hsteady hopen hstack
      | directive name => exact stepDirective_steady hsteady hopen hstack hstates hsafe
      | operand op position => exact stepOperand_steady hsteady hopen hstack
      | value hwaits position => exact stepValue_steady hsteady hopen hwaits hstack
      | closing hinstruction position =>
        exact stepReduce_steady_of_instruction hsteady hopen hinstruction hstack
      | typeTag text hwaits position place =>
        exact stepTypeTag_steady hsteady hopen hwaits hstack
      | constant object hwaits position place =>
        exact stepReduce_steady_of_constant hsteady hopen hwaits hstack

end

/-- How an offer ends. -/
theorem put_cases (symbol : Symbol) {parser : Parser} (hsteady : Steady parser) :
    Steadies (put symbol parser) ∨ ∃ operation, Overflow parser symbol operation ∧
      put symbol parser = .error (.overflow operation) := by
  by_cases hoverflow : ∃ operation, Overflow parser symbol operation
  · obtain ⟨operation, hoverflow⟩ := hoverflow
    exact .inr ⟨operation, hoverflow, put_overflow hoverflow⟩
  · exact .inl (put_steady symbol hsteady fun operation h => hoverflow ⟨operation, h⟩)

/-- An offer that succeeds leaves a steady parser. -/
theorem steady_of_put {symbol : Symbol} {parser next : Parser} {taken : Bool}
    (hsteady : Steady parser) (hput : put symbol parser = .ok (taken, next)) : Steady next := by
  obtain ⟨_, _, hresult, hnext⟩ := put_steady symbol hsteady (safe_of_put hput)
  rw [hput] at hresult
  cases hresult
  exact hnext

/-! ## The end of the data -/

/-- A steady parser has nothing open once the end of the data was taken. -/
theorem finish_of_steady {parser : Parser} (hsteady : Steady parser) :
    parser.finish = .ok (parser.draft.decls.toList, parser.diagnostics.toList) := by
  unfold finish
  split
  · rename_i hended
    have hstates := hsteady.finished (by simp_all)
    have hfits := hsteady.fits
    rw [hstates] at hfits
    generalize hstack : parser.draft.stack = stack at hfits
    cases hfits
    rw [Draft.finish, hstack]
    rfl
  · rfl

end Parser

end Assembly
end Docpress
