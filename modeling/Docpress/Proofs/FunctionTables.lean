import Docpress.Proofs.AssemblyOffers
import Docpress.Proofs.LabelOffsets

/-!
# Function tables

The table of functions gives the names of invoked functions their numbers.  The parser looks names
up while it reads, before sizes, offsets and diagnostics are known, and none of these depends on
what it finds.

To compare two tables, both are compared with the empty one.  `Parser.withoutIds` forgets the table
and all numbers that were looked up in it.  What a parser does then is what it did before, with the
numbers forgotten (`put_forgets`, `parseItems_withoutIds`).  Declarations that differ in such
numbers only have the same labels and diagnostics (`labelsOf_withoutId`, `unresolved_withoutId`),
and objects that differ only behind an instruction that invokes (`alike_emitted`).
-/

namespace Docpress

/-! ## Drafts -/

/-- The declaration with another construct. -/
def Decl.map {α : Type} (f : α → α) (decl : Decl α) : Decl α :=
  { decl with node := f decl.node }

namespace Draft

variable {α : Type} (f : α → α)

/-- The draft with its constructs exchanged. -/
def map (draft : Draft α) : Draft α where
  decls := draft.decls.map (Decl.map f)
  stack := draft.stack.map (Prod.map f id)

theorem top_map (draft : Draft α) : (draft.map f).top = f <$> draft.top := by
  obtain ⟨decls, stack⟩ := draft
  cases stack <;> rfl

theorem setTop_map (draft : Draft α) (node : α) :
    (draft.map f).setTop (f node) = (draft.setTop node).map f := by
  obtain ⟨decls, stack⟩ := draft
  cases stack <;> rfl

/-- Attaching the construct on top does the same with the constructs exchanged. -/
def AttachesAlike [Construct α] (stack : List (α × Position)) : Prop :=
  ∀ node position parent place below, stack = (node, position) :: (parent, place) :: below →
    Construct.attach (f parent) (f node) = f <$> Construct.attach parent node

theorem merged_map [Construct α] {draft : Draft α} (hattach : AttachesAlike f draft.stack) :
    (draft.map f).merged = map f <$> draft.merged := by
  obtain ⟨decls, stack⟩ := draft
  rcases stack with _ | ⟨⟨node, position⟩, _ | ⟨⟨parent, place⟩, below⟩⟩
  · rfl
  · simp [merged, merge, map, Decl.map]
  · have hattach := hattach node position parent place below rfl
    simp only [merged, merge, map, List.map_cons, Prod.map, id, hattach]
    cases Construct.attach parent node <;> rfl

end Draft

namespace Assembly

/-! ## Statements -/

namespace Statement

/-- The statement without the number of the function that it invokes. -/
def withoutId : Statement → Statement
  | .invoke op name _ => .invoke op name none
  | statement => statement

@[simp] theorem withoutId_ofOpcode (op : Opcode) : (ofOpcode op).withoutId = ofOpcode op := by
  cases op <;> rfl

theorem completed_withoutId (statement : Statement) :
    Parser.completed statement.withoutId =
      ((Parser.completed statement).1.withoutId, (Parser.completed statement).2) := by
  cases statement with
  | push operand => cases operand <;> rfl
  | _ => rfl

/-- A label is attached to nothing. -/
theorem attach_label_withoutId (parent : Statement) (name : String) :
    Construct.attach parent.withoutId (.label name) =
      withoutId <$> Construct.attach parent (.label name) := rfl

end Statement

/-! ## Steps of the parser -/

namespace Parser

/-- The parser without a table, and without what was looked up in one. -/
def withoutIds (parser : Parser) : Parser :=
  { parser with draft := parser.draft.map Statement.withoutId, functions := {} }

/-- The step does the same without a table. -/
def Forgets (step : Parser → Except Fault (Bool × Parser)) (parser : Parser) : Prop :=
  step parser.withoutIds = Prod.map id withoutIds <$> step parser

section

variable (parser : Parser) (symbol : Symbol)

theorem openStatement_withoutIds (statement : Statement) :
    parser.withoutIds.openStatement statement.withoutId =
      (parser.openStatement statement).withoutIds := rfl

theorem setOpen_withoutIds (statement : Statement) :
    parser.withoutIds.setOpen statement.withoutId = (parser.setOpen statement).withoutIds := by
  simp only [setOpen, withoutIds, Draft.setTop_map]

theorem close_withoutIds {parser : Parser}
    (hattach : Draft.AttachesAlike Statement.withoutId parser.draft.stack) :
    parser.withoutIds.close = withoutIds <$> parser.close := by
  have hmerged := Draft.merged_map Statement.withoutId hattach
  simp only [close, withoutIds, hmerged]
  cases parser.draft.merged <;> rfl

theorem stepLine_forgets : Forgets (stepLine · symbol) parser := by
  have hclose : (parser.withoutIds.openStatement (.label symbol.text)).close =
      withoutIds <$> (parser.openStatement (.label symbol.text)).close := by
    rw [← close_withoutIds]
    · rfl
    · intro node position parent place below hstack
      obtain ⟨hnode, -⟩ := List.cons.inj hstack
      cases hnode
      exact Statement.attach_label_withoutId parent symbol.text
  have hopen (op : Opcode) : parser.withoutIds.openStatement (.ofOpcode op) =
      (parser.openStatement (.ofOpcode op)).withoutIds := by
    rw [← openStatement_withoutIds, Statement.withoutId_ofOpcode]
  unfold Forgets
  simp only [stepLine, hclose, hopen]
  repeat' split
  all_goals try rfl
  cases (parser.openStatement _).close <;> rfl

theorem stepOperand_forgets (kind : OperandKind) : Forgets (stepOperand · kind symbol) parser := by
  have htop : parser.withoutIds.draft.top = Statement.withoutId <$> parser.draft.top :=
    Draft.top_map _ _
  unfold Forgets
  simp only [stepOperand, htop]
  cases parser.draft.top with
  | error =>
    repeat' split
    all_goals rfl
  | ok statement =>
    cases kind with
    | bare | value | uuid => rfl
    | ident =>
      by_cases hname : symbol.kind = .text ∨ symbol.kind = .instruction ∨ symbol.kind = .literal
      · simp only [if_pos hname]
        cases statement with
        | invoke op name id =>
          -- the empty table has no number for the name
          have hset := parser.setOpen_withoutIds
            (.invoke op symbol.text (parser.functions.lookup? symbol.text))
          exact congrArg (fun next => Except.ok (true, next)) hset
        | _ => rfl
      · simp only [if_neg hname]
        rfl
    | label =>
      by_cases hname : symbol.kind = .text ∨ symbol.kind = .instruction
      · simp only [if_pos hname]
        cases statement with
        | jump op target =>
          exact congrArg (fun next => Except.ok (true, next))
            (parser.setOpen_withoutIds (.jump op symbol.text))
        | _ => rfl
      · simp only [if_neg hname]
        rfl

theorem stepValue_forgets : Forgets (stepValue · symbol) parser := by
  unfold Forgets stepValue
  repeat' split
  all_goals rfl

theorem stepTypeTag_forgets : Forgets (stepTypeTag · symbol) parser := by
  have htop : parser.withoutIds.draft.top = Statement.withoutId <$> parser.draft.top :=
    Draft.top_map _ _
  unfold Forgets
  simp only [stepTypeTag, htop]
  cases parser.draft.top with
  | error => rfl
  | ok statement =>
    cases statement with
    | literal text =>
      have hset (parser : Parser) (taken : Bool) (object : Object) :
          Except.ok (taken, parser.withoutIds.setOpen (.value object)) =
            Prod.map id withoutIds <$>
              (Except.ok (taken, parser.setOpen (.value object)) : Except Fault _) :=
        congrArg (fun next => Except.ok (taken, next)) (parser.setOpen_withoutIds (.value object))
      have hsame : Statement.withoutId <$> (Except.ok (.literal text) : Except Fault Statement) =
        .ok (.literal text) := rfl
      rw [hsame, ok_bind, ok_bind]
      dsimp only
      cases (if symbol.kind = .typeTag then TypeTag.ofName? symbol.text else none) with
      | none => exact hset parser false _
      | some tag =>
        cases hobject : Object.ofLiteral? tag text with
        | some object =>
          simp only [hobject]
          exact hset parser true object
        | none =>
          simp only [hobject]
          exact hset (parser.report (.invalidLiteral tag text)) true .null
    | _ => rfl

theorem stepDirective_forgets (name : String) : Forgets (stepDirective · name symbol) parser := by
  have hshift (number : Int64) : parser.withoutIds.shiftTo number = parser.shiftTo number := rfl
  simp only [Forgets, stepDirective, hshift]
  repeat' split
  · rfl
  · cases parser.shiftTo _ <;> rfl
  all_goals rfl

theorem stepReduce_forgets {statement : Statement} {position : Position}
    {below : List (Statement × Position)}
    (hstack : parser.draft.stack = (statement, position) :: below)
    (hattach : Draft.AttachesAlike Statement.withoutId
      (((completed statement).1, position) :: below)) :
    Forgets stepReduce parser := by
  have htop : parser.withoutIds.draft.top = .ok statement.withoutId := by
    rw [withoutIds, Draft.top_map, Draft.top_of_stack hstack]
    rfl
  have hreported : (parser.withoutIds.reportAny (completed statement).2).setOpen
        (completed statement).1.withoutId =
      ((parser.reportAny (completed statement).2).setOpen (completed statement).1).withoutIds := by
    rw [← setOpen_withoutIds]
    cases (completed statement).2 <;> rfl
  have hcompleted : ((parser.reportAny (completed statement).2).setOpen
      (completed statement).1).draft.stack = ((completed statement).1, position) :: below := by
    have hdraft : (parser.reportAny (completed statement).2).draft = parser.draft := by
      cases (completed statement).2 <;> rfl
    rw [setOpen, hdraft, Draft.setTop_of_stack hstack]
  unfold Forgets
  rw [stepReduce_bind, stepReduce_bind, htop, Draft.top_of_stack hstack, ok_bind, ok_bind,
    Statement.completed_withoutId, hreported, close_withoutIds (hcompleted ▸ hattach)]
  cases close _ <;> rfl

/-- What is closed stands alone, or is a constant for an instruction that waits for one. -/
theorem stepReduce_forgets_of_fits {rest : List State}
    (hfits : Fits (.reduce :: rest) parser.draft.stack) : Forgets stepReduce parser := by
  generalize hstack : parser.draft.stack = stack at hfits
  cases hfits with
  | closing hinstruction position =>
    refine stepReduce_forgets parser hstack ?_
    intro node place parent place' below hbelow
    cases hbelow
  | constant object hwaits position place =>
    refine stepReduce_forgets parser hstack ?_
    intro node place parent place' below hbelow
    cases hbelow
    cases hwaits <;> rfl

theorem step_forgets {state : State} (hreduce : state ≠ .reduce) :
    Forgets (step · state symbol) parser := by
  cases state with
  | line => exact stepLine_forgets parser symbol
  | operand kind => exact stepOperand_forgets parser symbol kind
  | value => exact stepValue_forgets parser symbol
  | typeTag => exact stepTypeTag_forgets parser symbol
  | directive name => exact stepDirective_forgets parser symbol name
  | reduce => exact absurd rfl hreduce
  | body | lines | endOfLine | skip =>
    simp only [Forgets, step, stepBody, stepLines, stepEndOfLine, stepSkip]
    split <;> rfl

theorem put_forgets {parser : Parser} (hsteady : Steady parser) : Forgets (put symbol) parser := by
  have hshifted (line : Nat) : parser.withoutIds.shifted line = parser.shifted line := rfl
  simp only [Forgets, put, hshifted]
  split
  · split
    · cases parser.shifted _ <;> rfl
    · rfl
  · have hstates : parser.withoutIds.states = parser.states := rfl
    rw [hstates]
    split
    · split <;> rfl
    · rename_i state rest hstates
      by_cases hreduce : state = .reduce
      · have hfits := hsteady.fits
        rw [hstates, hreduce] at hfits
        rw [hreduce]
        exact stepReduce_forgets_of_fits { parser with states := rest } hfits
      · exact step_forgets { parser with states := rest } symbol hreduce

end

/-! ## Whole texts -/

theorem feed_withoutIds (symbol : Symbol) {parser : Parser} (hsteady : Steady parser) :
    feed symbol parser.withoutIds = withoutIds <$> feed symbol parser := by
  have hoffer := offerTimes_map (fun _ hstate => put_forgets symbol hstate)
    (fun _ _ _ hstate hput => steady_of_put hstate hput) (max parser.retryLimit 1) hsteady
  have habandoned : parser.withoutIds.abandoned = parser.abandoned := rfl
  have hlimit : parser.withoutIds.retryLimit = parser.retryLimit := rfl
  rw [feed, feed, offer, offer, habandoned, hlimit, hoffer]
  cases parser.abandoned with
  | true => rfl
  | false =>
    rcases offerTimes (put symbol) (max parser.retryLimit 1) parser with fault | ⟨taken, next⟩
    · rfl
    · cases taken <;> rfl

theorem foldlM_feedItem_withoutIds (items : List Item) {parser : Parser} (hsteady : Steady parser) :
    items.foldlM feedItem parser.withoutIds = withoutIds <$> items.foldlM feedItem parser := by
  induction items generalizing parser with
  | nil => rfl
  | cons item items ih =>
    cases item with
    | inclusion path => exact ih hsteady
    | symbol symbol =>
      rw [List.foldlM_cons, List.foldlM_cons, feedItem, feedItem, feed_withoutIds symbol hsteady]
      cases hfeed : feed symbol parser with
      | error fault => rfl
      | ok next => exact ih (steady_of_feed hsteady hfeed).1

end Parser

/-- Without a table, a text has the same statements and diagnostics, but for the numbers, or fails
in the same way. -/
theorem parseItems_withoutIds (items : List Item) (file : String) (retryLimit : Nat)
    (functions : FunctionTable) :
    parseItems (.start file retryLimit {}) items =
      Prod.map (List.map (Decl.map Statement.withoutId)) id <$>
        parseItems (.start file retryLimit functions) items := by
  have hsteady := Parser.steady_start file retryLimit functions
  have hstart : (Parser.start file retryLimit functions).withoutIds =
      .start file retryLimit {} := by
    simp [Parser.start, Parser.withoutIds, Draft.map]
  have hforgets := Parser.foldlM_feedItem_withoutIds items hsteady
  rw [hstart] at hforgets
  rw [parseItems, parseItems]
  obtain ⟨parser, hparser, hlast⟩ | ⟨_, _, _, _, operation, _, _, _, _, _, hfault⟩ :=
    Parser.foldlM_feedItem_cases items hsteady
  · obtain ⟨other, hother, hother'⟩ | ⟨_, _, _, _, _, _, _, _, _, _, hfault⟩ :=
      Parser.foldlM_feedItem_cases items (Parser.steady_start file retryLimit {})
    · rw [hother, hparser] at hforgets
      obtain rfl : other = parser.withoutIds := Except.ok.inj hforgets
      rw [hparser, hother, ok_bind, ok_bind, Parser.finish_of_steady hlast,
        Parser.finish_of_steady hother']
      simp [Parser.withoutIds, Draft.map]
    · rw [hfault, hparser] at hforgets
      cases hforgets
  · rw [hforgets, hfault]
    rfl

/-! ## Layout -/

/-- The labels do not depend on the numbers. -/
theorem collectLabels_withoutId (offset : Nat) (labels : Labels) (decls : List (Decl Statement)) :
    collectLabels offset labels (decls.map (Decl.map Statement.withoutId)) =
      collectLabels offset labels decls := by
  induction decls generalizing offset labels with
  | nil => rfl
  | cons decl decls ih =>
    obtain ⟨node, position⟩ := decl
    cases node with
    | invoke op name id => exact ih (offset + (Statement.invoke op name id).size) labels
    | _ => simp only [List.map_cons, Decl.map, collectLabels, Statement.withoutId, ih]

theorem labelsOf_withoutId (decls : List (Decl Statement)) :
    labelsOf (decls.map (Decl.map Statement.withoutId)) = labelsOf decls :=
  collectLabels_withoutId 0 {} decls

theorem unresolved_withoutId (labels : Labels) (decls : List (Decl Statement)) :
    (decls.map (Decl.map Statement.withoutId)).flatMap (unresolved labels) =
      decls.flatMap (unresolved labels) := by
  rw [List.flatMap_map]
  congr 1
  funext decl
  obtain ⟨node, position⟩ := decl
  cases node <;> rfl

/-! ## Objects -/

/-- The object before is an instruction that invokes a function. -/
def BehindInvoke (objects : List Object) (index : Nat) : Prop :=
  ∃ before, index = before + 1 ∧
    (objects[before]? = some (.op .invoke) ∨ objects[before]? = some (.op .invokeR))

/-- The lists have the same objects, but for those behind instructions that invoke functions. -/
structure AlikeObjects (first second : List Object) : Prop where
  length : first.length = second.length
  agree : ∀ index, first[index]? = second[index]? ∨
    (BehindInvoke first index ∧ BehindInvoke second index)

theorem BehindInvoke.append_left {objects : List Object} {index : Nat}
    (hbehind : BehindInvoke objects index) (more : List Object) :
    BehindInvoke (objects ++ more) index := by
  obtain ⟨before, hindex, hobject⟩ := hbehind
  have hkept {object : Object} (h : objects[before]? = some object) :
      (objects ++ more)[before]? = some object := by
    rw [List.getElem?_append_left (List.getElem?_eq_some_iff.1 h).1, h]
  exact ⟨before, hindex, hobject.imp hkept hkept⟩

theorem BehindInvoke.append_right {objects : List Object} {index : Nat}
    (hbehind : BehindInvoke objects index) (front : List Object) :
    BehindInvoke (front ++ objects) (front.length + index) := by
  obtain ⟨before, rfl, hobject⟩ := hbehind
  refine ⟨front.length + before, rfl, ?_⟩
  rwa [List.getElem?_append_right (Nat.le_add_right _ _), Nat.add_sub_cancel_left]

namespace AlikeObjects

theorem refl (objects : List Object) : AlikeObjects objects objects :=
  ⟨rfl, fun _ => .inl rfl⟩

theorem append {first second more others : List Object} (halike : AlikeObjects first second)
    (hmore : AlikeObjects more others) : AlikeObjects (first ++ more) (second ++ others) := by
  refine ⟨by rw [List.length_append, List.length_append, halike.length, hmore.length], ?_⟩
  intro index
  rcases Nat.lt_or_ge index first.length with hlt | hge
  · rw [List.getElem?_append_left hlt, List.getElem?_append_left (halike.length ▸ hlt)]
    exact (halike.agree index).imp_right fun hbehind =>
      ⟨hbehind.1.append_left more, hbehind.2.append_left others⟩
  · obtain ⟨index, rfl⟩ := Nat.exists_eq_add_of_le hge
    rw [List.getElem?_append_right hge, List.getElem?_append_right (halike.length ▸ hge),
      ← halike.length, Nat.add_sub_cancel_left]
    refine (hmore.agree index).imp_right fun hbehind => ⟨hbehind.1.append_right first, ?_⟩
    rw [halike.length]
    exact hbehind.2.append_right second

end AlikeObjects

theorem Statement.withoutId_cases (statement : Statement) :
    statement.withoutId = statement ∨ ∃ op name id, statement = .invoke op name id := by
  cases statement with
  | invoke op name id => exact .inr ⟨op, name, id, rfl⟩
  | _ => exact .inl rfl

/-- Statements that are the same without numbers are the same, or invoke the same function. -/
theorem Statement.eq_or_invoke {first second : Statement}
    (hsame : first.withoutId = second.withoutId) :
    first = second ∨ ∃ op name id other, first = .invoke op name id ∧
      second = .invoke op name other := by
  rcases first.withoutId_cases with hfirst | ⟨op, name, id, rfl⟩
  · rcases second.withoutId_cases with hsecond | ⟨op, name, other, rfl⟩
    · exact .inl (hfirst.symm.trans (hsame.trans hsecond))
    · exact .inr ⟨op, name, none, other, hfirst.symm.trans hsame, rfl⟩
  · rcases second.withoutId_cases with hsecond | ⟨op', name', other, rfl⟩
    · exact .inr ⟨op, name, id, none, rfl, hsecond.symm.trans hsame.symm⟩
    · cases hsame
      exact .inr ⟨op, name, id, other, rfl, rfl⟩

theorem Statement.alike_objects {first second : Statement}
    (hsame : first.withoutId = second.withoutId) (hdeclared : first.IsDeclared) (labels : Labels) :
    AlikeObjects (first.objects labels) (second.objects labels) := by
  rcases eq_or_invoke hsame with rfl | ⟨op, name, id, other, rfl, rfl⟩
  · exact .refl _
  · have hop : op = .invoke ∨ op = .invokeR := by
      have hident : op.operand = .ident := hdeclared
      revert hident
      cases op <;> decide
    have hbehind (objects : List Object) : BehindInvoke (.op op :: objects) 1 :=
      ⟨0, rfl, by rcases hop with rfl | rfl <;> simp⟩
    refine ⟨rfl, fun index => ?_⟩
    rcases index with _ | _ | index
    · exact .inl rfl
    · exact .inr ⟨hbehind _, hbehind _⟩
    · exact .inl rfl

theorem alike_emitted {first second : List (Decl Statement)}
    (hsame : first.map (Decl.map Statement.withoutId) = second.map (Decl.map Statement.withoutId))
    (hdeclared : ∀ decl ∈ first, decl.node.IsDeclared) (labels : Labels) :
    AlikeObjects (emitted labels first) (emitted labels second) := by
  induction first generalizing second with
  | nil =>
    obtain rfl := List.map_eq_nil_iff.1 hsame.symm
    exact .refl _
  | cons decl first ih =>
    obtain ⟨other, second, rfl, hother, hrest⟩ := List.map_eq_cons_iff.1 hsame.symm
    rw [List.forall_mem_cons] at hdeclared
    rw [emitted_cons, emitted_cons]
    have hnode : decl.node.withoutId = other.node.withoutId := congrArg Decl.node hother.symm
    exact (Statement.alike_objects hnode hdeclared.1 labels).append (ih hrest.symm hdeclared.2)

/-! ## Programs -/

/-- A text is assembled with both of two tables, or with neither of them.  The programs have the
same diagnostics and labels, the same declarations but for the numbers of functions, and the same
objects but for those behind instructions that invoke functions.  Where the number of a line does not
fit, assembling fails in the same way. -/
theorem assemble_with_tables (file text : String) (retryLimit : Nat)
    (functions others : FunctionTable) :
    (∃ program other, assemble file text retryLimit functions = .ok program ∧
      assemble file text retryLimit others = .ok other ∧
      program.diagnostics = other.diagnostics ∧ program.labels = other.labels ∧
      program.decls.map (Decl.map Statement.withoutId) =
        other.decls.map (Decl.map Statement.withoutId) ∧
      AlikeObjects program.objects other.objects) ∨
    ∃ operation, assemble file text retryLimit functions = .error (.overflow operation) ∧
      assemble file text retryLimit others = .error (.overflow operation) ∧
      (1 + text.toList.count '\n' < 2 ^ 63 → lineOverflow? text = some operation) := by
  obtain ⟨items, _, _, hlex, _⟩ := lex_eq_scans Mode.patient .start text
  have hassemble (functions : FunctionTable) : assemble file text retryLimit functions =
      (fun parsed => .ofStatements parsed.1 parsed.2) <$>
        parseItems (.start file retryLimit functions) items := by
    rw [assemble, parse, lex, hlex, ok_bind]
    exact bind_pure_comp _ _
  -- both texts are compared with what the parser finds without a table
  have hwithout := parseItems_withoutIds items file retryLimit functions
  rw [parseItems_withoutIds items file retryLimit others] at hwithout
  obtain ⟨decls, parsed, hparse, hdeclared⟩ | ⟨operation, hparse⟩ :=
    parseItems_cases items file retryLimit functions
  · obtain ⟨decls', parsed', hparse', -⟩ | ⟨operation, hparse'⟩ :=
      parseItems_cases items file retryLimit others
    · rw [hparse, hparse'] at hwithout
      obtain ⟨hdecls, hparsed⟩ := Prod.mk.inj (Except.ok.inj hwithout)
      obtain rfl : parsed' = parsed := hparsed
      have hlabels : labelsOf decls = labelsOf decls' := by
        rw [← labelsOf_withoutId, ← hdecls, labelsOf_withoutId]
      have hunresolved (labels : Labels) :
          decls.flatMap (unresolved labels) = decls'.flatMap (unresolved labels) := by
        rw [← unresolved_withoutId, ← hdecls, unresolved_withoutId]
      refine .inl ⟨.ofStatements decls parsed', .ofStatements decls' parsed', ?_, ?_, ?_,
        congrArg Prod.fst hlabels, hdecls.symm, ?_⟩
      · rw [hassemble, hparse]
        rfl
      · rw [hassemble, hparse']
        rfl
      · show parsed' ++ (labelsOf decls).2 ++ decls.flatMap (unresolved (labelsOf decls).1) =
          parsed' ++ (labelsOf decls').2 ++ decls'.flatMap (unresolved (labelsOf decls').1)
        rw [hlabels, hunresolved]
      · show AlikeObjects (emitted (labelsOf decls).1 decls) (emitted (labelsOf decls').1 decls')
        rw [hlabels]
        exact alike_emitted hdecls.symm hdeclared _
    · rw [hparse, hparse'] at hwithout
      cases hwithout
  · obtain ⟨decls', parsed', hparse', -⟩ | ⟨other, hparse'⟩ :=
      parseItems_cases items file retryLimit others
    · rw [hparse, hparse'] at hwithout
      cases hwithout
    · rw [hparse, hparse'] at hwithout
      cases hwithout
      have hfirst : assemble file text retryLimit functions = .error (.overflow operation) := by
        rw [hassemble, hparse]
        rfl
      refine .inr ⟨operation, hfirst, ?_, fun hlines => lineOverflow?_of_assemble hlines hfirst⟩
      rw [hassemble, hparse']
      rfl

/-- The number of a function takes the place of its name. -/
example :
    (assemble "a" "invoke f" 6 {}).toOption.map Program.objects =
        some [.op .invoke, .string "f"] ∧
      (assemble "a" "invoke f" 6 ⟨[("f", 7)]⟩).toOption.map Program.objects =
        some [.op .invoke, .u64 7] := by
  decide

end Assembly
end Docpress
