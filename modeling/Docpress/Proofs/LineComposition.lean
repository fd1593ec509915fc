import Docpress.Assembly.Program
import Docpress.Proofs.AssemblyOffers
import Docpress.Proofs.LineBreaks

/-!
# Assembly text is parsed line by line

Two texts with a line break between them declare what each of them declares.

The parser goes by its states and the open statements, but neither by what it has declared nor by
positions.  `Follows earlier ahead behind` relates two parsers that agree on the former, where
`ahead` has declared the statements `earlier` before those of `behind`; every symbol keeps them so
(`feed_follows`).  At a line break the parser finishes what it is in the middle of, with the same
outcome as at the end of the data (`takes_lineEnd`), and then agrees with a parser at the start of
a text.

Positions do decide whether the number of a line fits, so one of two such parsers may fail where the
other one goes on.  `Consistent` compares computations as far as both of them succeed.
-/

namespace Docpress

/-! ## Computations in parallel -/

/-- Both computations fail in the same way, or succeed with related results. -/
inductive Paired {ε α β : Type} (R : α → β → Prop) : Except ε α → Except ε β → Prop where
  | ok {a : α} {b : β} (hresults : R a b) : Paired R (.ok a) (.ok b)
  | error (fault : ε) : Paired R (.error fault) (.error fault)

namespace Paired

variable {ε α β γ δ : Type} {R : α → β → Prop} {S : γ → δ → Prop}

theorem bind {first : Except ε α} {second : Except ε β} {next : α → Except ε γ}
    {next' : β → Except ε δ} (hfirst : Paired R first second)
    (hnext : ∀ a b, R a b → Paired S (next a) (next' b)) :
    Paired S (first >>= next) (second >>= next') := by
  cases hfirst with
  | ok hresults => exact hnext _ _ hresults
  | error fault => exact .error fault

/-- Computations that are the same have the same result. -/
theorem bind_eq {first second : Except ε α} {next : α → Except ε γ} {next' : α → Except ε δ}
    (hfirst : first = second) (hnext : ∀ a, Paired S (next a) (next' a)) :
    Paired S (first >>= next) (second >>= next') := by
  subst hfirst
  cases first with
  | error fault => exact .error fault
  | ok a => exact hnext a

theorem exists_of_ok {a : α} {second : Except ε β} (hpaired : Paired R (.ok a) second) :
    ∃ b, second = .ok b ∧ R a b := by
  cases hpaired with
  | ok hresults => exact ⟨_, rfl, hresults⟩

end Paired

/-- If both computations succeed, their results are related. -/
def Consistent {ε α β : Type} (R : α → β → Prop) (first : Except ε α) (second : Except ε β) :
    Prop :=
  ∀ a b, first = .ok a → second = .ok b → R a b

namespace Consistent

variable {ε α β γ δ : Type} {R : α → β → Prop} {S : γ → δ → Prop}

theorem ok {a : α} {b : β} (hresults : R a b) :
    Consistent R (.ok a : Except ε α) (.ok b : Except ε β) := by
  rintro _ _ ⟨⟩ ⟨⟩
  exact hresults

theorem bind {first : Except ε α} {second : Except ε β} {next : α → Except ε γ}
    {next' : β → Except ε δ} (hfirst : Consistent R first second)
    (hnext : ∀ a b, R a b → Consistent S (next a) (next' b)) :
    Consistent S (first >>= next) (second >>= next') := by
  intro c d hc hd
  obtain ⟨a, ha, hc⟩ := exists_of_bind_ok hc
  obtain ⟨b, hb, hd⟩ := exists_of_bind_ok hd
  exact hnext a b (hfirst a b ha hb) c d hc hd

end Consistent

theorem Paired.consistent {ε α β : Type} {R : α → β → Prop} {first : Except ε α}
    {second : Except ε β} (hpaired : Paired R first second) : Consistent R first second := by
  cases hpaired with
  | ok hresults => exact .ok hresults
  | error fault => exact fun _ _ hfirst => by cases hfirst

/-! ## Drafts -/

namespace Draft

variable {α : Type}

/-- The declared constructs. -/
def nodes (draft : Draft α) : List α := draft.decls.toList.map Decl.node

/-- The open constructs, the innermost first. -/
def opened (draft : Draft α) : List α := draft.stack.map Prod.fst

/-- The drafts have the same open constructs, and one has declared some before those of the
other. -/
structure Follows (earlier : List α) (ahead behind : Draft α) : Prop where
  nodes_eq : ahead.nodes = earlier ++ behind.nodes
  opened_eq : ahead.opened = behind.opened

namespace Follows

variable {earlier : List α} {ahead behind : Draft α}

theorem push (hfollows : Follows earlier ahead behind) (node : α) (position place : Position) :
    Follows earlier (ahead.push node position) (behind.push node place) :=
  ⟨hfollows.nodes_eq, congrArg (node :: ·) hfollows.opened_eq⟩

/-- Both stacks are empty, or have the same construct on top. -/
theorem cases (hfollows : Follows earlier ahead behind) :
    (ahead.stack = [] ∧ behind.stack = []) ∨
    ∃ node position place above below, ahead.stack = (node, position) :: above ∧
      behind.stack = (node, place) :: below ∧ above.map Prod.fst = below.map Prod.fst := by
  have hopened := hfollows.opened_eq
  unfold opened at hopened
  cases hahead : ahead.stack with
  | nil =>
    rw [hahead] at hopened
    exact .inl ⟨rfl, List.map_eq_nil_iff.1 hopened.symm⟩
  | cons top above =>
    obtain ⟨node, position⟩ := top
    rw [hahead] at hopened
    obtain ⟨⟨_, place⟩, below, hbehind, rfl, hbelow⟩ := List.map_eq_cons_iff.1 hopened.symm
    exact .inr ⟨_, position, place, above, below, rfl, hbehind, hbelow.symm⟩

theorem top_eq (hfollows : Follows earlier ahead behind) : ahead.top = behind.top := by
  rcases hfollows.cases with ⟨hahead, hbehind⟩ | ⟨node, _, _, _, _, hahead, hbehind, _⟩
  · rw [top, top, hahead, hbehind]
  · rw [top_of_stack hahead, top_of_stack hbehind]

theorem setTop (hfollows : Follows earlier ahead behind) (node : α) :
    Follows earlier (ahead.setTop node) (behind.setTop node) := by
  rcases hfollows.cases with ⟨hahead, hbehind⟩ | ⟨_, _, _, _, _, hahead, hbehind, hbelow⟩
  · rw [Draft.setTop, Draft.setTop, hahead, hbehind]
    exact hfollows
  · rw [setTop_of_stack hahead, setTop_of_stack hbehind]
    exact ⟨hfollows.nodes_eq, congrArg (node :: ·) hbelow⟩

/-- Closing a construct succeeds or fails in both drafts. -/
theorem merged [Construct α] (hfollows : Follows earlier ahead behind) :
    Paired (Follows (α := α) earlier) ahead.merged behind.merged := by
  rcases hfollows.cases with ⟨hahead, hbehind⟩ |
    ⟨node, position, place, above, below, hahead, hbehind, hbelow⟩
  · rw [Draft.merged, Draft.merged, merge, merge, hahead, hbehind]
    exact .error _
  · cases above with
    | nil =>
      obtain rfl : below = [] := List.map_eq_nil_iff.1 hbelow.symm
      rw [merged_of_single hahead, merged_of_single hbehind]
      refine .ok ⟨?_, rfl⟩
      simpa [nodes] using congrArg (· ++ [node]) hfollows.nodes_eq
    | cons parent above =>
      obtain ⟨parent, position'⟩ := parent
      obtain ⟨⟨other, place'⟩, below, rfl, hother, hrest⟩ := List.map_eq_cons_iff.1 hbelow.symm
      obtain rfl : other = parent := hother
      cases hattach : Construct.attach other node with
      | error fault =>
        rw [Draft.merged, Draft.merged, merge, merge, hahead, hbehind]
        simp only [hattach]
        exact .error fault
      | ok next =>
        rw [merged_of_attach hahead hattach, merged_of_attach hbehind hattach]
        exact .ok ⟨hfollows.nodes_eq, congrArg (next :: ·) hrest.symm⟩

end Follows
end Draft

namespace Assembly

theorem unmarked_breakItems (count : Nat) : unmarked (breakItems count) = breakItems count := by
  unfold breakItems
  split <;> rfl

namespace Parser

/-! ## Parsers -/

/-- The parsers go on in the same way, and one has declared some statements before those of the
other.  It may also have reported more. -/
structure Follows (earlier : List Statement) (ahead behind : Parser) : Prop where
  states : ahead.states = behind.states
  draft : ahead.draft.Follows earlier behind.draft
  functions : ahead.functions = behind.functions
  retryLimit : ahead.retryLimit = behind.retryLimit
  abandoned : ahead.abandoned = behind.abandoned
  diagnostics : behind.diagnostics.size ≤ ahead.diagnostics.size

/-- The answers are the same, and the parsers go on in the same way. -/
def SameAnswer (earlier : List Statement) (ahead behind : Bool × Parser) : Prop :=
  ahead.1 = behind.1 ∧ Follows earlier ahead.2 behind.2

/-- Both steps fail, or give the same answer and leave parsers that go on in the same way. -/
abbrev Agree (earlier : List Statement) :
    Except Fault (Bool × Parser) → Except Fault (Bool × Parser) → Prop :=
  Paired (SameAnswer earlier)

section

variable {earlier : List Statement} {ahead behind : Parser} {symbol : Symbol}

theorem Follows.answer (hfollows : Follows earlier ahead behind) (taken : Bool) :
    Agree earlier (.ok (taken, ahead)) (.ok (taken, behind)) :=
  .ok ⟨rfl, hfollows⟩

theorem Follows.report (hfollows : Follows earlier ahead behind) (cause cause' : Cause) :
    Follows earlier (ahead.report cause) (behind.report cause') where
  states := hfollows.states
  draft := hfollows.draft
  functions := hfollows.functions
  retryLimit := hfollows.retryLimit
  abandoned := hfollows.abandoned
  diagnostics := by simpa [Parser.report] using hfollows.diagnostics

theorem Follows.push (hfollows : Follows earlier ahead behind) (states : List State) :
    Follows earlier (ahead.push states) (behind.push states) :=
  ⟨congrArg (states ++ ·) hfollows.states, hfollows.draft, hfollows.functions,
    hfollows.retryLimit, hfollows.abandoned, hfollows.diagnostics⟩

theorem Follows.setStates (hfollows : Follows earlier ahead behind) (states : List State) :
    Follows earlier { ahead with states } { behind with states } :=
  ⟨rfl, hfollows.draft, hfollows.functions, hfollows.retryLimit, hfollows.abandoned,
    hfollows.diagnostics⟩

theorem Follows.openStatement (hfollows : Follows earlier ahead behind) (statement : Statement) :
    Follows earlier (ahead.openStatement statement) (behind.openStatement statement) :=
  ⟨hfollows.states, hfollows.draft.push statement _ _, hfollows.functions, hfollows.retryLimit,
    hfollows.abandoned, hfollows.diagnostics⟩

theorem Follows.setOpen (hfollows : Follows earlier ahead behind) (statement : Statement) :
    Follows earlier (ahead.setOpen statement) (behind.setOpen statement) :=
  ⟨hfollows.states, hfollows.draft.setTop statement, hfollows.functions, hfollows.retryLimit,
    hfollows.abandoned, hfollows.diagnostics⟩

theorem Follows.reportAny (hfollows : Follows earlier ahead behind) (cause : Option Cause) :
    Follows earlier (ahead.reportAny cause) (behind.reportAny cause) := by
  cases cause with
  | none => exact hfollows
  | some cause => exact hfollows.report cause cause

theorem Follows.skipLine (hfollows : Follows earlier ahead behind) (cause : Cause) :
    Follows earlier (ahead.skipLine cause) (behind.skipLine cause) :=
  (hfollows.report cause cause).push [.skip]

theorem Follows.close (hfollows : Follows earlier ahead behind) :
    Paired (Follows earlier) ahead.close behind.close := by
  refine hfollows.draft.merged.bind fun draft draft' hdraft => .ok ?_
  exact ⟨hfollows.states, hdraft, hfollows.functions, hfollows.retryLimit, hfollows.abandoned,
    hfollows.diagnostics⟩

/-- Positions are of no account. -/
theorem Follows.move (hfollows : Follows earlier ahead behind) (position place : Position)
    (textLine textLine' : Nat) (lineShift lineShift' : Int64) (finished finished' : Bool) :
    Follows earlier { ahead with position, textLine, lineShift, finished }
      { behind with
        position := place, textLine := textLine', lineShift := lineShift'
        finished := finished' } :=
  ⟨hfollows.states, hfollows.draft, hfollows.functions, hfollows.retryLimit, hfollows.abandoned,
    hfollows.diagnostics⟩

theorem Follows.refl (parser : Parser) : Follows [] parser parser :=
  ⟨rfl, ⟨rfl, rfl⟩, rfl, rfl, rfl, Nat.le_refl _⟩

theorem Follows.trans {last : Parser} (hfirst : Follows earlier ahead behind)
    (hsecond : Follows [] behind last) : Follows earlier ahead last where
  states := hfirst.states.trans hsecond.states
  draft := ⟨hfirst.draft.nodes_eq.trans (by rw [hsecond.draft.nodes_eq, List.nil_append]),
    hfirst.draft.opened_eq.trans hsecond.draft.opened_eq⟩
  functions := hfirst.functions.trans hsecond.functions
  retryLimit := hfirst.retryLimit.trans hsecond.retryLimit
  abandoned := hfirst.abandoned.trans hsecond.abandoned
  diagnostics := Nat.le_trans hsecond.diagnostics hfirst.diagnostics

/-! ### Steps -/

theorem stepLine_agree (hfollows : Follows earlier ahead behind) :
    Agree earlier (stepLine ahead symbol) (stepLine behind symbol) := by
  unfold stepLine
  split
  · exact hfollows.answer true
  · exact hfollows.answer false
  · refine (hfollows.openStatement _).close.bind fun closed closed' hclosed => ?_
    exact (hclosed.push [.line]).answer true
  · split
    · exact (hfollows.push _).answer true
    · exact (hfollows.skipLine _).answer true
  · split
    · exact ((hfollows.openStatement _).push _).answer true
    · exact (hfollows.skipLine _).answer true
  · exact (hfollows.skipLine _).answer true
  · exact (hfollows.skipLine _).answer true

theorem stepOperand_agree (hfollows : Follows earlier ahead behind) (kind : OperandKind) :
    Agree earlier (stepOperand ahead kind symbol) (stepOperand behind kind symbol) := by
  unfold stepOperand
  rw [hfollows.functions]
  split
  · exact hfollows.answer false
  · exact (hfollows.push [.value]).answer false
  · exact (hfollows.push [.value]).answer false
  · split
    · refine .bind_eq hfollows.draft.top_eq fun top => ?_
      split
      · exact (hfollows.setOpen _).answer true
      · exact hfollows.answer true
    · exact hfollows.answer false
  · split
    · refine .bind_eq hfollows.draft.top_eq fun top => ?_
      split
      · exact (hfollows.setOpen _).answer true
      · exact hfollows.answer true
    · exact hfollows.answer false

theorem stepValue_agree (hfollows : Follows earlier ahead behind) :
    Agree earlier (stepValue ahead symbol) (stepValue behind symbol) := by
  unfold stepValue
  split
  · exact ((hfollows.openStatement _).push _).answer true
  · split
    · exact hfollows.answer false
    · exact ((hfollows.openStatement _).push _).answer true
    · exact (((hfollows.report _ _).openStatement _).push _).answer true

theorem stepTypeTag_agree (hfollows : Follows earlier ahead behind) :
    Agree earlier (stepTypeTag ahead symbol) (stepTypeTag behind symbol) := by
  unfold stepTypeTag
  refine .bind_eq hfollows.draft.top_eq fun top => ?_
  split
  · split
    · exact (hfollows.setOpen _).answer false
    · split
      · exact (hfollows.setOpen _).answer true
      · exact ((hfollows.report _ _).setOpen _).answer true
  · exact .error _

/-- The argument of a directive changes positions only. -/
theorem stepDirective_consistent (hfollows : Follows earlier ahead behind) (name : String) :
    Consistent (SameAnswer earlier) (stepDirective ahead name symbol)
      (stepDirective behind name symbol) := by
  have hanswer {next next' : Parser} (taken : Bool) (hnext : Follows earlier next next') :
      Consistent (SameAnswer earlier) (.ok (taken, next) : Except Fault _) (.ok (taken, next')) :=
    .ok ⟨rfl, hnext⟩
  unfold stepDirective
  split
  · exact hanswer true (hfollows.move _ _ _ _ _ _ _ _)
  · split
    · split
      · exact .bind (R := fun _ _ => True) (fun _ _ _ _ => trivial) fun _ _ _ =>
          hanswer true (hfollows.move _ _ _ _ _ _ _ _)
      · exact hanswer true hfollows
    · exact hanswer false (hfollows.report _ _)

theorem stepReduce_agree (hfollows : Follows earlier ahead behind) :
    Agree earlier (stepReduce ahead) (stepReduce behind) := by
  rw [stepReduce_bind, stepReduce_bind]
  refine .bind_eq hfollows.draft.top_eq fun top => ?_
  refine ((hfollows.reportAny _).setOpen _).close.bind fun closed closed' hclosed => ?_
  exact hclosed.answer false

theorem step_consistent (hfollows : Follows earlier ahead behind) (state : State) :
    Consistent (SameAnswer earlier) (step ahead state symbol) (step behind state symbol) := by
  have hanswer {next next' : Parser} (taken : Bool) (hnext : Follows earlier next next') :
      Consistent (SameAnswer earlier) (.ok (taken, next) : Except Fault _) (.ok (taken, next')) :=
    .ok ⟨rfl, hnext⟩
  cases state with
  | body =>
    simp only [step, stepBody]
    split
    · exact hanswer true (hfollows.move _ _ _ _ _ _ _ _)
    · exact hanswer false (hfollows.push _)
  | lines =>
    simp only [step, stepLines]
    split
    · exact hanswer false hfollows
    · exact hanswer false (hfollows.push _)
  | line => exact (stepLine_agree hfollows).consistent
  | operand kind => exact (stepOperand_agree hfollows kind).consistent
  | value => exact (stepValue_agree hfollows).consistent
  | typeTag => exact (stepTypeTag_agree hfollows).consistent
  | directive name => exact stepDirective_consistent hfollows name
  | endOfLine =>
    simp only [step, stepEndOfLine]
    split
    · exact hanswer true hfollows
    · exact hanswer false hfollows
    · exact hanswer false (hfollows.skipLine _)
  | skip =>
    simp only [step, stepSkip]
    split
    · exact hanswer true hfollows
    · exact hanswer false hfollows
    · exact hanswer true (hfollows.push _)
  | reduce => exact (stepReduce_agree hfollows).consistent

theorem put_consistent (hfollows : Follows earlier ahead behind) (symbol : Symbol) :
    Consistent (SameAnswer earlier) (put symbol ahead) (put symbol behind) := by
  unfold put
  split
  · split
    · exact .bind (R := fun _ _ => True) (fun _ _ _ _ => trivial) fun _ _ _ =>
        .ok ⟨rfl, hfollows.move _ _ _ _ _ _ _ _⟩
    · exact .ok ⟨rfl, hfollows⟩
  · rw [hfollows.states]
    split
    · split
      · exact .ok ⟨rfl, hfollows⟩
      · exact .ok ⟨rfl, hfollows.report _ _⟩
    · exact step_consistent (hfollows.setStates _) _

theorem offerTimes_consistent (hfollows : Follows earlier ahead behind) (symbol : Symbol)
    (attempts : Nat) :
    Consistent (SameAnswer earlier) (offerTimes (put symbol) attempts ahead)
      (offerTimes (put symbol) attempts behind) := by
  induction attempts generalizing ahead behind with
  | zero => exact .ok ⟨rfl, hfollows⟩
  | succ attempts ih =>
    refine (put_consistent hfollows symbol).bind ?_
    rintro ⟨taken, next⟩ ⟨_, next'⟩ ⟨rfl, hnext⟩
    cases taken with
    | true => exact .ok ⟨rfl, hnext⟩
    | false => exact ih hnext

/-- A symbol leaves parsers that go on in the same way. -/
theorem feed_follows (hfollows : Follows earlier ahead behind) (symbol : Symbol) :
    Consistent (Follows earlier) (feed symbol ahead) (feed symbol behind) := by
  unfold feed
  rw [hfollows.abandoned, hfollows.retryLimit]
  split
  · exact .ok hfollows
  · refine (offerTimes_consistent hfollows symbol _).bind ?_
    rintro ⟨taken, next⟩ ⟨_, next'⟩ ⟨rfl, hnext⟩
    cases taken with
    | true => exact .ok hnext
    | false =>
      refine .ok ⟨hnext.states, hnext.draft, hnext.functions, hnext.retryLimit, rfl, ?_⟩
      exact (hnext.report _ _).diagnostics

/-! ### Line marks -/

/-- A line mark changes positions only. -/
theorem feedItem_mark {parser next : Parser} {item : Item} (hmark : item.isLineMark = true)
    (hfeed : feedItem parser item = .ok next) :
    ∃ position textLine, next = { parser with position, textLine } := by
  cases item with
  | inclusion path => cases hmark
  | symbol symbol =>
    have hkind : symbol.kind = .lineMark := of_decide_eq_true hmark
    have hput (taken : Bool) (next : Parser) (hput : put symbol parser = .ok (taken, next)) :
        taken = true ∧ ∃ position textLine, next = { parser with position, textLine } := by
      unfold put at hput
      rw [hkind] at hput
      dsimp only at hput
      split at hput
      · obtain ⟨line, -, hnext⟩ := exists_of_bind_ok hput
        cases hnext
        exact ⟨rfl, _, _, rfl⟩
      · cases hput
        exact ⟨rfl, _, _, rfl⟩
    rw [feedItem, feed] at hfeed
    split at hfeed
    · cases hfeed
      exact ⟨_, _, rfl⟩
    · cases hresult : put symbol parser with
      | error fault =>
        rw [offer_of_error _ hresult] at hfeed
        cases hfeed
      | ok result =>
        obtain ⟨taken, next⟩ := result
        obtain ⟨rfl, hnext⟩ := hput taken next hresult
        rw [offer_of_taken _ hresult] at hfeed
        cases hfeed
        exact hnext

theorem foldlM_marks {marks : List Item} (hmarks : ∀ item ∈ marks, item.isLineMark = true)
    {parser next : Parser} (hfold : marks.foldlM feedItem parser = .ok next) :
    ∃ position textLine, next = { parser with position, textLine } := by
  induction marks generalizing parser with
  | nil =>
    cases hfold
    exact ⟨_, _, rfl⟩
  | cons mark marks ih =>
    rw [List.forall_mem_cons] at hmarks
    rw [List.foldlM_cons] at hfold
    obtain ⟨between, hmark, hrest⟩ := exists_of_bind_ok hfold
    obtain ⟨position, textLine, rfl⟩ := feedItem_mark hmarks.1 hmark
    obtain ⟨position, textLine, rfl⟩ := ih hmarks.2 hrest
    exact ⟨_, _, rfl⟩

/-- Marks that only one of the parsers sees. -/
theorem Follows.marks (hfollows : Follows earlier ahead behind) {marks marks' : List Item}
    (hmarks : ∀ item ∈ marks, item.isLineMark = true)
    (hmarks' : ∀ item ∈ marks', item.isLineMark = true) :
    Consistent (Follows earlier) (marks.foldlM feedItem ahead) (marks'.foldlM feedItem behind) := by
  intro next next' hfold hfold'
  obtain ⟨position, textLine, rfl⟩ := foldlM_marks hmarks hfold
  obtain ⟨position', textLine', rfl⟩ := foldlM_marks hmarks' hfold'
  exact hfollows.move _ _ _ _ _ _ _ _

/-- The first item that is no mark, in two lists that differ in marks. -/
theorem unmarked_cases {items others : List Item} (hsame : unmarked items = unmarked others) :
    ((∀ item ∈ items, item.isLineMark = true) ∧ ∀ item ∈ others, item.isLineMark = true) ∨
    ∃ (marks marks' : List Item) (item : Item) (rest rest' : List Item),
      items = marks ++ item :: rest ∧ others = marks' ++ item :: rest' ∧
      (∀ item ∈ marks, item.isLineMark = true) ∧ (∀ item ∈ marks', item.isLineMark = true) ∧
      item.isLineMark = false ∧ unmarked rest = unmarked rest' := by
  cases hitems : unmarked items with
  | nil =>
    rw [hitems] at hsame
    have hmarks {items : List Item} (hnil : unmarked items = []) :
        ∀ item ∈ items, item.isLineMark = true := by
      simpa [unmarked, List.filter_eq_nil_iff] using hnil
    exact .inl ⟨hmarks hitems, hmarks hsame.symm⟩
  | cons item tail =>
    rw [hitems] at hsame
    obtain ⟨marks, rest, rfl, hmarks, hitem, hrest⟩ := List.filter_eq_cons_iff.1 hitems
    obtain ⟨marks', rest', rfl, hmarks', -, hrest'⟩ := List.filter_eq_cons_iff.1 hsame.symm
    refine .inr ⟨marks, marks', item, rest, rest', rfl, rfl, ?_, ?_, ?_, hrest.trans hrest'.symm⟩
    · simpa using hmarks
    · simpa using hmarks'
    · simpa using hitem

/-- Items leave parsers that go on in the same way, also if they see different line marks. -/
theorem foldlM_follows {ahead behind : Parser} {items others : List Item}
    (hsame : unmarked items = unmarked others) (hfollows : Follows earlier ahead behind) :
    Consistent (Follows earlier) (items.foldlM feedItem ahead) (others.foldlM feedItem behind) := by
  obtain ⟨hmarks, hmarks'⟩ |
      ⟨marks, marks', item, rest, rest', rfl, rfl, hmarks, hmarks', -, hrest⟩ :=
    unmarked_cases hsame
  · exact hfollows.marks hmarks hmarks'
  · rw [List.foldlM_append, List.foldlM_append]
    refine (hfollows.marks hmarks hmarks').bind fun next next' hnext => ?_
    rw [List.foldlM_cons, List.foldlM_cons]
    cases item with
    | inclusion path => exact foldlM_follows hrest hnext
    | symbol symbol =>
      exact (feed_follows hnext symbol).bind fun _ _ hnext => foldlM_follows hrest hnext
termination_by items.length

end

/-! ## Line ends -/

section

variable {earlier : List Statement} {ahead behind : Parser}

/-- Both steps decline and leave parsers that go on in the same way. -/
abbrev BothDecline (earlier : List Statement) :
    Except Fault (Bool × Parser) → Except Fault (Bool × Parser) → Prop :=
  Paired fun ahead behind => ahead.1 = false ∧ behind.1 = false ∧ Follows earlier ahead.2 behind.2

/-- The state waits for the rest of a statement. -/
inductive Pending : State → Prop where
  | operand (kind : OperandKind) : Pending (.operand kind)
  | value : Pending .value
  | typeTag : Pending .typeTag
  | directive (name : String) : Pending (.directive name)
  | reduce : Pending .reduce

/-- What is missing from a statement is missing at the end of the line as at the end of the
data. -/
theorem step_lineEnd {state : State} (hpending : Pending state)
    (hfollows : Follows earlier ahead behind) :
    BothDecline earlier (step ahead state .newline) (step behind state .endOfData) := by
  have hdeclined {next next' : Parser} (hnext : Follows earlier next next') :
      BothDecline earlier (.ok (false, next)) (.ok (false, next')) := .ok ⟨rfl, rfl, hnext⟩
  cases hpending with
  | operand kind =>
    simp only [step, stepOperand]
    cases kind with
    | bare => exact hdeclined hfollows
    | value => exact hdeclined (hfollows.push [.value])
    | uuid => exact hdeclined (hfollows.push [.value])
    | ident => exact hdeclined hfollows
    | label => exact hdeclined hfollows
  | value => exact hdeclined hfollows
  | typeTag =>
    refine .bind_eq hfollows.draft.top_eq fun top => ?_
    split
    · exact hdeclined (hfollows.setOpen _)
    · exact .error _
  | directive name =>
    have hstep (parser : Parser) (symbol : Symbol) (hliteral : symbol.kind ≠ .literal)
        (htext : symbol.kind ≠ .text) (hnumber : symbol.kind ≠ .number) :
        stepDirective parser name symbol =
          .ok (false, parser.report (.mismatch (.argument name) symbol)) := by
      simp only [stepDirective, hliteral, htext, hnumber, or_self, and_false, if_false]
      rfl
    simp only [step]
    rw [hstep _ _ (by decide) (by decide) (by decide),
      hstep _ _ (by decide) (by decide) (by decide)]
    exact hdeclined (hfollows.report _ _)
  | reduce =>
    simp only [step, stepReduce_bind]
    refine .bind_eq hfollows.draft.top_eq fun top => ?_
    refine ((hfollows.reportAny _).setOpen _).close.bind fun closed closed' hclosed => ?_
    exact hdeclined hclosed

/-- The parser is between statements. -/
inductive Between : List State → Prop where
  | body : Between [.body]
  | lines : Between [.lines, .body]
  | line : Between [.line, .lines, .body]
  | endOfLine : Between lineEnd
  | skip : Between [.skip, .lines, .body]

theorem put_of_states {symbol : Symbol} {parser : Parser} {state : State} {rest : List State}
    (hkind : symbol.kind ≠ .lineMark) (hstates : parser.states = state :: rest) :
    put symbol parser = step { parser with states := rest } state symbol := by
  unfold put
  split
  · exact absurd ‹_› hkind
  · rw [hstates]

/-- Between statements a line break leads to the next line. -/
theorem Between.takes_newline {parser : Parser} (hbetween : Between parser.states) :
    Takes (put .newline) parser { parser with states := [.lines, .body] } := by
  have hput {state : State} {rest : List State} (parser : Parser)
      (hstates : parser.states = state :: rest) :
      put .newline parser = step { parser with states := rest } state .newline :=
    put_of_states (by decide) hstates
  generalize hstates : parser.states = states at hbetween
  have hline : Takes (put .newline) { parser with states := [.line, .lines, .body] }
      { parser with states := [.lines, .body] } := .taken rfl
  have hlines : Takes (put .newline) { parser with states := [.lines, .body] }
      { parser with states := [.lines, .body] } := .declined rfl hline
  cases hbetween with
  | body => exact .declined (hput parser hstates) hlines
  | lines => exact .declined (hput parser hstates) hline
  | line => exact .taken (hput parser hstates)
  | endOfLine => exact .taken (hput parser hstates)
  | skip => exact .taken (hput parser hstates)

/-- Between statements the end of the data is the end. -/
theorem Between.takes_end {parser : Parser} (hbetween : Between parser.states) :
    Takes (put .endOfData) parser { parser with states := [], finished := true } := by
  have hput {state : State} {rest : List State} (parser : Parser)
      (hstates : parser.states = state :: rest) :
      put .endOfData parser = step { parser with states := rest } state .endOfData :=
    put_of_states (by decide) hstates
  generalize hstates : parser.states = states at hbetween
  have hbody : Takes (put .endOfData) { parser with states := [.body] }
      { parser with states := [], finished := true } := .taken rfl
  have hlines : Takes (put .endOfData) { parser with states := [.lines, .body] }
      { parser with states := [], finished := true } := .declined rfl hbody
  cases hbetween with
  | body => exact .taken (hput parser hstates)
  | lines => exact .declined (hput parser hstates) hbody
  | line => exact .declined (hput parser hstates) hlines
  | endOfLine => exact .declined (hput parser hstates) hlines
  | skip => exact .declined (hput parser hstates) hlines

/-- A steady parser that has not reached the end of the data is between statements, with nothing
open, or waits for the rest of one. -/
theorem Steady.cases {parser : Parser} (hsteady : Steady parser) (hopen : parser.states ≠ []) :
    (Between parser.states ∧ parser.draft.stack = []) ∨
      ∃ state rest, parser.states = state :: rest ∧ Pending state ∧ rest ≠ [] := by
  have hfits := hsteady.fits
  generalize parser.states = states, parser.draft.stack = stack at hopen hfits
  cases hfits with
  | done => exact absurd rfl hopen
  | body => exact .inl ⟨.body, rfl⟩
  | lines => exact .inl ⟨.lines, rfl⟩
  | line => exact .inl ⟨.line, rfl⟩
  | endOfLine => exact .inl ⟨.endOfLine, rfl⟩
  | skip => exact .inl ⟨.skip, rfl⟩
  | directive name => exact .inr ⟨_, _, rfl, .directive name, nofun⟩
  | operand op position => exact .inr ⟨_, _, rfl, .operand _, nofun⟩
  | value hwaits position => exact .inr ⟨_, _, rfl, .value, nofun⟩
  | closing hinstruction position => exact .inr ⟨_, _, rfl, .reduce, nofun⟩
  | typeTag text hwaits position place => exact .inr ⟨_, _, rfl, .typeTag, nofun⟩
  | constant object hwaits position place => exact .inr ⟨_, _, rfl, .reduce, nofun⟩

/-- Only the end of the data leaves no state. -/
theorem put_states_ne_nil {symbol : Symbol} {parser next : Parser} {taken : Bool}
    (hmore : symbol.kind ≠ .endOfData) (hsteady : Steady parser) (hopen : parser.states ≠ [])
    (hput : put symbol parser = .ok (taken, next)) : next.states ≠ [] := by
  rcases put_steps hput with
    ⟨state, rest, hstates, _, states, hreplaces, hnext, _⟩ | ⟨_, _, hnext, _⟩
  · rw [hnext]
    intro hnil
    obtain ⟨rfl, hrest⟩ := List.append_eq_nil_iff.1 hnil
    obtain rfl : rest = [] := hrest
    have hfits := hsteady.fits
    rw [hstates] at hfits
    generalize parser.draft.stack = stack at hfits
    cases hfits
    cases hreplaces
    exact hmore ‹_›
  · rwa [hnext]

/-- A line break brings the parser to the next line, and declares what the end of the data would
declare. -/
theorem takes_lineEnd {line : Parser} (htakes : Takes (put .newline) ahead line)
    (hsteady : Steady ahead) (hopen : ahead.states ≠ []) (hfollows : Follows earlier ahead behind) :
    line.states = [.lines, .body] ∧ line.draft.stack = [] ∧
      ∃ ended, Takes (put .endOfData) behind ended ∧
        line.draft.nodes = earlier ++ ended.draft.nodes := by
  induction htakes generalizing behind with
  | @taken before after htaken =>
    rcases hsteady.cases hopen with ⟨hbetween, hstack⟩ | ⟨state, rest, hstates, hpending, _⟩
    · have hafter := hbetween.takes_newline.of_taken htaken
      rw [hfollows.states] at hbetween
      subst hafter
      exact ⟨rfl, hstack, _, hbetween.takes_end, hfollows.draft.nodes_eq⟩
    · have hboth := step_lineEnd hpending (hfollows.setStates rest)
      rw [← put_of_states (by decide) hstates, htaken] at hboth
      obtain ⟨_, _, hfalse, _⟩ := hboth.exists_of_ok
      cases hfalse
  | @declined before between after hdeclined hrest ih =>
    rcases hsteady.cases hopen with ⟨hbetween, hstack⟩ | ⟨state, rest, hstates, hpending, _⟩
    · have hafter := hrest.unique (hbetween.takes_newline.of_declined hdeclined)
      rw [hfollows.states] at hbetween
      subst hafter
      exact ⟨rfl, hstack, _, hbetween.takes_end, hfollows.draft.nodes_eq⟩
    · have hboth := step_lineEnd hpending (hfollows.setStates rest)
      rw [← put_of_states (by decide) hstates, hdeclined,
        ← put_of_states (by decide) (hfollows.states.symm.trans hstates)] at hboth
      obtain ⟨⟨taken, next⟩, hput, -, hfalse, hnext⟩ := hboth.exists_of_ok
      have hsteadyNext := steady_of_put hsteady hdeclined
      obtain ⟨hline, hstack, ended, hended, hnodes⟩ :=
        ih hsteadyNext (put_states_ne_nil (by decide) hsteady hopen hdeclined) hnext
      obtain rfl : taken = false := hfalse
      exact ⟨hline, hstack, ended, .declined hput hended, hnodes⟩

end

/-! ## Texts -/

section

variable {earlier : List Statement}

theorem states_ne_nil_of_takes {symbol : Symbol} {parser next : Parser}
    (htakes : Takes (put symbol) parser next) (hmore : symbol.kind ≠ .endOfData)
    (hsteady : Steady parser) (hopen : parser.states ≠ []) : next.states ≠ [] := by
  induction htakes with
  | taken htaken => exact put_states_ne_nil hmore hsteady hopen htaken
  | declined hdeclined _ ih =>
    exact ih (steady_of_put hsteady hdeclined) (put_states_ne_nil hmore hsteady hopen hdeclined)

/-- Before the end of the data the parser takes all items and stays open. -/
theorem open_of_foldlM {items : List Item} (hitems : NoEnd items) {parser next : Parser}
    (hready : Ready parser) (hlimit : 6 ≤ parser.retryLimit) (hopen : parser.states ≠ [])
    (hfold : items.foldlM feedItem parser = .ok next) :
    Ready next ∧ next.states ≠ [] ∧ Keeps parser next := by
  induction items generalizing parser with
  | nil =>
    cases hfold
    exact ⟨hready, hopen, .silent rfl rfl rfl rfl⟩
  | cons item items ih =>
    rw [noEnd_cons] at hitems
    cases item with
    | inclusion path => exact ih hitems.2 hready hlimit hopen hfold
    | symbol symbol =>
      have hmore : symbol.kind ≠ .endOfData := by simpa [Item.isEnd] using hitems.1
      rw [List.foldlM_cons] at hfold
      obtain ⟨between, hfeed, hrest⟩ := exists_of_bind_ok hfold
      obtain ⟨htakes, hbetween, hkeeps⟩ := takes_of_feed hready hlimit hfeed
      have hopen' := states_ne_nil_of_takes htakes hmore hready.steady hopen
      obtain ⟨hready', hstates, hkeeps'⟩ :=
        ih hitems.2 hbetween (by rw [hkeeps.retryLimit]; exact hlimit) hopen' hrest
      exact ⟨hready', hstates, hkeeps.trans hkeeps'⟩

/-- The start of a text is the start of a line. -/
theorem feed_firstLine {symbol : Symbol} (hmark : symbol.kind ≠ .lineMark) {parser : Parser}
    (hready : Ready parser) (hlimit : 6 ≤ parser.retryLimit) (hbody : parser.states = [.body]) :
    feed symbol parser = feed symbol { parser with states := [.lines, .body] } := by
  have hstack : parser.draft.stack = [] := by
    have hfits := hready.steady.fits
    rw [hbody] at hfits
    generalize parser.draft.stack = stack at hfits
    cases hfits
    rfl
  have hready' : Ready { parser with states := [.lines, .body] } := by
    refine ⟨⟨?_, fun hfinished => ?_, hready.steady.decls⟩, hready.notAbandoned⟩
    · show Fits [.lines, .body] parser.draft.stack
      rw [hstack]
      exact .lines
    · have hdone := hready.steady.finished hfinished
      rw [hbody] at hdone
      cases hdone
  obtain ⟨next, htakes, hfeed, _⟩ :=
    feed_takes symbol hready' hlimit (safe_of_calm hmark (by simp [Calm]))
  rw [hfeed]
  refine feed_of_takes hready hlimit ?_
  by_cases hend : symbol.kind = .endOfData
  · -- the two meet in the state that takes the end
    have hlines : put symbol { parser with states := [.lines, .body] } = .ok (false, parser) := by
      rw [put_of_states hmark rfl, step, stepLines, if_pos hend, ← hbody]
    exact htakes.of_declined hlines
  · have hdeclined : put symbol parser =
        .ok (false, { parser with states := [.lines, .body] }) := by
      rw [put_of_states hmark hbody, step, stepBody, if_neg hend]
      rfl
    exact .declined hdeclined htakes

/-- The line behind some declared statements goes on like a text at its start. -/
theorem foldlM_firstLine {ahead behind : Parser} {items others : List Item}
    (hsame : unmarked items = unmarked others) (hready : Ready behind)
    (hlimit : 6 ≤ behind.retryLimit) (hbody : behind.states = [.body])
    (hfollows : Follows earlier ahead { behind with states := [.lines, .body] }) :
    Consistent (fun ahead behind => ahead.draft.nodes = earlier ++ behind.draft.nodes)
      (items.foldlM feedItem ahead) (others.foldlM feedItem behind) := by
  have hmoved {marks marks' : List Item} (hmarks : ∀ item ∈ marks, item.isLineMark = true)
      (hmarks' : ∀ item ∈ marks', item.isLineMark = true) :
      Consistent
        (fun ahead behind => Follows earlier ahead { behind with states := [.lines, .body] } ∧
          behind.states = [.body] ∧ Ready behind ∧ 6 ≤ behind.retryLimit)
        (marks.foldlM feedItem ahead) (marks'.foldlM feedItem behind) := by
    intro next next' hfold hfold'
    obtain ⟨position, textLine, rfl⟩ := foldlM_marks hmarks hfold
    obtain ⟨position', textLine', rfl⟩ := foldlM_marks hmarks' hfold'
    exact ⟨hfollows.move _ _ _ _ _ _ _ _, hbody,
      ⟨⟨hready.steady.fits, hready.steady.finished, hready.steady.decls⟩, hready.notAbandoned⟩,
      hlimit⟩
  obtain ⟨hmarks, hmarks'⟩ |
      ⟨marks, marks', item, rest, rest', rfl, rfl, hmarks, hmarks', hitem, hrest⟩ :=
    unmarked_cases hsame
  · intro next next' hfold hfold'
    exact (hmoved hmarks hmarks' next next' hfold hfold').1.draft.nodes_eq
  · rw [List.foldlM_append, List.foldlM_append]
    refine (hmoved hmarks hmarks').bind fun next next' hnext => ?_
    obtain ⟨hnext, hbody, hready, hlimit⟩ := hnext
    rw [List.foldlM_cons, List.foldlM_cons]
    cases item with
    | inclusion path => exact foldlM_firstLine hrest hready hlimit hbody hnext
    | symbol symbol =>
      have hmark : symbol.kind ≠ .lineMark := by simpa [Item.isLineMark] using hitem
      rw [feedItem, feedItem, feed_firstLine hmark hready hlimit hbody]
      refine (feed_follows hnext symbol).bind fun last last' hlast => ?_
      exact fun final final' hfinal hfinal' =>
        (foldlM_follows hrest hlast final final' hfinal hfinal').draft.nodes_eq
termination_by items.length

end

/-- A text that is assembled is parsed item by item. -/
theorem exists_run_of_assemble {text : String} {last : Mode} {raw : List Item}
    (hscans : Scans Mode.step .start (Token.runs (dropReturns text.toList) ++ [Token.endOfText])
      last raw) {file : String} {retryLimit : Nat} {functions : FunctionTable} {program : Program}
    (hassemble : assemble file text retryLimit functions = .ok program) :
    ∃ items parser, unmarked items = unmarked raw ∧
      items.foldlM feedItem (start file retryLimit functions) = .ok parser ∧
      program.decls.map Decl.node = parser.draft.nodes ∧
      parser.diagnostics.size ≤ program.diagnostics.length := by
  obtain ⟨items, last', raw', hlex, hscans', hitems⟩ := lex_eq_scans Mode.patient .start text
  obtain ⟨-, rfl⟩ := hscans.unique hscans'
  obtain ⟨parser, hparser, rfl⟩ := run_of_assemble hlex hassemble
  refine ⟨items, parser, hitems, hparser, rfl, ?_⟩
  simp only [Program.ofStatements, List.length_append, Array.length_toList]
  omega

/-- A line break and the end of the data, from a parser that is still open. -/
theorem feed_lineEnd {parser : Parser} (hready : Ready parser) (hlimit : 6 ≤ parser.retryLimit)
    (hopen : parser.states ≠ []) :
    ∃ line ended, feed .newline parser = .ok line ∧ feed .endOfData parser = .ok ended ∧
      line.states = [.lines, .body] ∧ line.draft.stack = [] ∧ Ready line ∧ Keeps parser line ∧
      line.draft.nodes = ended.draft.nodes := by
  obtain ⟨line, htakes, hline, hready', hkeeps⟩ :=
    feed_takes .newline hready hlimit (safe_of_kind (by decide) (by decide))
  obtain ⟨hstates, hstack, ended, hended, hnodes⟩ :=
    takes_lineEnd htakes hready.steady hopen (.refl parser)
  exact ⟨line, ended, hline, feed_of_takes hready hlimit hended, hstates, hstack, hready', hkeeps,
    hnodes⟩

/-- Line breaks at the end of a text declare nothing that its end does not. -/
theorem foldlM_trailing {parser line : Parser} (hready : Ready parser)
    (hlimit : 6 ≤ parser.retryLimit) (hopen : parser.states ≠ [])
    (hline : feed .newline parser = .ok line) (count : Nat) :
    ∃ ended, (breakItems count ++ [Item.symbol .endOfData]).foldlM feedItem parser = .ok ended ∧
      ended.draft.nodes = line.draft.nodes := by
  obtain ⟨line', ended, hline', hended, hstates, hstack, hready', hkeeps, hnodes⟩ :=
    feed_lineEnd hready hlimit hopen
  rw [hline] at hline'
  cases hline'
  by_cases hcount : count = 0
  · refine ⟨ended, ?_, hnodes.symm⟩
    rw [breakItems, if_pos hcount, List.nil_append, List.foldlM_cons, feedItem, hended]
    rfl
  · have hbetween : Between line.states := hstates ▸ .lines
    have hend := feed_of_takes hready' (by rw [hkeeps.retryLimit]; exact hlimit)
      hbetween.takes_end
    refine ⟨{ line with states := [], finished := true }, ?_, rfl⟩
    rw [breakItems, if_neg hcount, List.cons_append, List.foldlM_cons, feedItem, hline, ok_bind,
      List.nil_append, List.foldlM_cons, feedItem, hend]
    rfl

/-- Line breaks at the start of a text declare nothing. -/
theorem foldlM_leading {line : Parser} {breaks items others : List Item} {count : Nat}
    (hbreaks : unmarked breaks = breakItems count) (hsame : unmarked items = unmarked others)
    {file : String} {retryLimit : Nat} (hlimit : 6 ≤ retryLimit) {functions : FunctionTable}
    (hfollows : Follows line.draft.nodes line
      { start file retryLimit functions with states := [.lines, .body] }) :
    Consistent (fun ahead behind => ahead.draft.nodes = line.draft.nodes ++ behind.draft.nodes)
      (items.foldlM feedItem line)
      ((breaks ++ others).foldlM feedItem (start file retryLimit functions)) := by
  have hready := ready_start file retryLimit functions
  by_cases hcount : count = 0
  · rw [breakItems, if_pos hcount] at hbreaks
    refine foldlM_firstLine ?_ hready hlimit rfl hfollows
    rw [unmarked_append, hbreaks, List.nil_append, hsame]
  · rw [breakItems, if_neg hcount] at hbreaks
    have hbreak : feed .newline (start file retryLimit functions) =
        .ok { start file retryLimit functions with states := [.lines, .body] } :=
      feed_of_takes hready hlimit (Between.takes_newline .body)
    intro whole other hwhole hother
    rw [List.foldlM_append] at hother
    obtain ⟨behind, hbehind, hother⟩ := exists_of_bind_ok hother
    -- the line break, without the marks around it
    have hfirst : Follows [] { start file retryLimit functions with states := [.lines, .body] }
        behind := by
      have hsame : unmarked [.symbol .newline] = unmarked breaks := hbreaks.symm
      refine foldlM_follows hsame (.refl _) _ _ ?_ hbehind
      rw [List.foldlM_cons, feedItem, hbreak]
      rfl
    exact (foldlM_follows hsame (hfollows.trans hfirst) _ _ hwhole hother).draft.nodes_eq

/-- Items with a line break in the middle declare what those before and behind it declare. -/
theorem nodes_of_lines {before after one other whole : List Item} (hbefore : NoEnd before)
    {trailing leading : Nat}
    (hone : unmarked one = before ++ breakItems trailing ++ [Item.symbol .endOfData])
    (hother : unmarked other = breakItems leading ++ after)
    (hwhole : unmarked whole = before ++ [Item.symbol .newline] ++ after)
    {file : String} {retryLimit : Nat} (hlimit : 6 ≤ retryLimit) {functions : FunctionTable}
    {parserOne parserOther parserWhole : Parser}
    (hrunOne : one.foldlM feedItem (start file retryLimit functions) = .ok parserOne)
    (hrunOther : other.foldlM feedItem (start file retryLimit functions) = .ok parserOther)
    (hrunWhole : whole.foldlM feedItem (start file retryLimit functions) = .ok parserWhole) :
    parserWhole.draft.nodes = parserOne.draft.nodes ++ parserOther.draft.nodes := by
  obtain ⟨wholeFront, wholeRest, rfl, hwhole, hrest⟩ := List.filter_eq_append_iff.1 hwhole
  obtain ⟨front, broken, rfl, hfront, hbroken⟩ := List.filter_eq_append_iff.1 hwhole
  rw [List.append_assoc] at hone
  obtain ⟨oneFront, oneRest, rfl, honeFront, honeRest⟩ := List.filter_eq_append_iff.1 hone
  obtain ⟨breaks, otherRest, rfl, hbreaks, hotherRest⟩ := List.filter_eq_append_iff.1 hother
  rw [List.append_assoc, List.foldlM_append] at hrunWhole
  obtain ⟨parser, hparser, hrunWhole⟩ := exists_of_bind_ok hrunWhole
  rw [List.foldlM_append] at hrunWhole
  obtain ⟨line, hline, hrunWhole⟩ := exists_of_bind_ok hrunWhole
  rw [List.foldlM_append] at hrunOne
  obtain ⟨parser', hparser', hrunOne⟩ := exists_of_bind_ok hrunOne
  have hnoEnd : NoEnd front := by
    refine isEnd_of_unmarked (hfront.trans (unmarked_eq_self fun item hmem => ?_).symm) hbefore
    rw [← hfront] at hmem
    exact isLineMark_of_mem_unmarked front item hmem
  obtain ⟨hready, hopen, hkeeps⟩ := open_of_foldlM hnoEnd
    (ready_start file retryLimit functions) hlimit (by simp [start]) hparser
  have hlimit' : 6 ≤ parser.retryLimit := by
    rw [hkeeps.retryLimit]
    exact hlimit
  obtain ⟨line', _, hline', _, hstates, hstack, _, hkept, _⟩ := feed_lineEnd hready hlimit' hopen
  -- the line break, with the marks around it
  have hbreak : Follows [] line' line := by
    have hsame : unmarked [.symbol .newline] = unmarked broken := hbroken.symm
    refine foldlM_follows hsame (.refl parser) _ _ ?_ hline
    rw [List.foldlM_cons, feedItem, hline']
    rfl
  have hfirst : parserOne.draft.nodes = line.draft.nodes := by
    obtain ⟨ended, hended, hsame⟩ := foldlM_trailing hready hlimit' hopen hline' trailing
    have hfollows := foldlM_follows (honeFront.trans hfront.symm) (.refl _) _ _ hparser' hparser
    have hends : unmarked oneRest = unmarked (breakItems trailing ++ [Item.symbol .endOfData]) := by
      rw [unmarked_append, unmarked_breakItems]
      exact honeRest
    rw [(foldlM_follows hends hfollows _ _ hrunOne hended).draft.nodes_eq, List.nil_append, hsame,
      hbreak.draft.nodes_eq, List.nil_append]
  -- behind the line break the parser goes on as at the start of a text
  have hfollows : Follows line.draft.nodes line
      { start file retryLimit functions with states := [.lines, .body] } := by
    refine ⟨hbreak.states.symm.trans hstates, ⟨(List.append_nil _).symm, ?_⟩,
      hbreak.functions.symm.trans (hkept.functions.trans hkeeps.functions),
      hbreak.retryLimit.symm.trans (hkept.retryLimit.trans hkeeps.retryLimit),
      hbreak.abandoned.symm.trans (hkept.abandoned.trans hkeeps.abandoned), Nat.zero_le _⟩
    rw [← hbreak.draft.opened_eq, Draft.opened, hstack]
    rfl
  rw [foldlM_leading hbreaks (hrest.trans hotherRest.symm) hlimit hfollows _ _ hrunWhole hrunOther,
    hfirst]

end Parser

/-- Two texts with a line break between them declare what each of them declares, whatever is wrong
with their lines.  Only a carriage return at the end of the first one would get lost. -/
theorem nodes_of_assemble_lines {first second : String}
    (hlast : first.toList.getLast? ≠ some '\r') {file : String} {retryLimit : Nat}
    (hlimit : 6 ≤ retryLimit) {functions : FunctionTable} {one other whole : Program}
    (hone : assemble file first retryLimit functions = .ok one)
    (hother : assemble file second retryLimit functions = .ok other)
    (hwhole : assemble file (first ++ "\n" ++ second) retryLimit functions = .ok whole) :
    whole.decls.map Decl.node = one.decls.map Decl.node ++ other.decls.map Decl.node := by
  obtain ⟨before, after, trailing, leading, last, hnoEnd, hscansOne, hscansOther, hscansWhole⟩ :=
    scans_lines (dropReturns first.toList) (dropReturns second.toList)
  have htext : dropReturns (first ++ "\n" ++ second).toList =
      dropReturns first.toList ++ '\n' :: dropReturns second.toList := by
    rw [← dropReturns_append_lineFeed hlast]
    simp
  rw [← htext] at hscansWhole
  obtain ⟨itemsOne, parserOne, hitemsOne, hrunOne, hnodesOne, -⟩ :=
    Parser.exists_run_of_assemble hscansOne hone
  obtain ⟨itemsOther, parserOther, hitemsOther, hrunOther, hnodesOther, -⟩ :=
    Parser.exists_run_of_assemble hscansOther hother
  obtain ⟨itemsWhole, parserWhole, hitemsWhole, hrunWhole, hnodesWhole, -⟩ :=
    Parser.exists_run_of_assemble hscansWhole hwhole
  have hend : unmarked [.symbol .endOfData] = [.symbol .endOfData] := rfl
  have hbreak : unmarked [.symbol .newline] = [.symbol .newline] := rfl
  rw [unmarked_append, unmarked_append, unmarked_breakItems, hend] at hitemsOne
  rw [unmarked_append, unmarked_breakItems] at hitemsOther
  rw [unmarked_append, unmarked_append, hbreak] at hitemsWhole
  rw [hnodesOne, hnodesOther, hnodesWhole]
  have hbefore : NoEnd (unmarked before) := fun item hmem =>
    hnoEnd item (List.mem_of_mem_filter hmem)
  exact Parser.nodes_of_lines hbefore hitemsOne hitemsOther hitemsWhole hlimit hrunOne hrunOther
    hrunWhole

end Assembly
end Docpress
