import Docpress.Assembly.Program
import Docpress.Proofs.AssemblyStacks

/-!
# How often the assembly parser is offered a symbol

A state of the assembly parser that is offered a symbol goes off the stack and leaves other
states in its place.  `Replaces` lists which.  A declined offer lowers a rank of the states
(`rank_lt_of_replaces`), and the states of a steady parser have a rank of at most five, so six
offers are always enough (`feed_takes`): a parser with that limit never gives up.

The first offer computes all numbers that are computed for a symbol (`safe_of_declined`), so a
symbol is fed unless there is an overflow right away (`feed_cases`), and a run ends with a steady
parser or at the first symbol that overflows (`foldlM_feedItem_cases`).
-/

namespace Docpress.Assembly

namespace Parser

/-! ## States -/

/-- The states that the topmost one leaves in its place when it is offered the symbol. -/
inductive Replaces (symbol : Symbol) : State → Bool → List State → Prop where
  | finish (hend : symbol.kind = .endOfData) : Replaces symbol .body true []
  | body (hmore : symbol.kind ≠ .endOfData) : Replaces symbol .body false [.lines, .body]
  | noLines (hend : symbol.kind = .endOfData) : Replaces symbol .lines false []
  | lines (hmore : symbol.kind ≠ .endOfData) : Replaces symbol .lines false [.line, .lines]
  | noLine (hend : symbol.kind = .endOfData) : Replaces symbol .line false []
  | line (hmore : symbol.kind ≠ .endOfData) (states : List State) :
      Replaces symbol .line true states
  | noOperand (kind : OperandKind) : Replaces symbol (.operand kind) false []
  | constant (kind : OperandKind) : Replaces symbol (.operand kind) false [.value]
  | operand (kind : OperandKind) : Replaces symbol (.operand kind) true []
  | noValue : Replaces symbol .value false []
  | value (states : List State) : Replaces symbol .value true states
  | typeTag (taken : Bool) : Replaces symbol .typeTag taken []
  | directive (name : String) (taken : Bool) : Replaces symbol (.directive name) taken []
  | endOfLine (taken : Bool) (hend : taken = true ↔ symbol.kind ≠ .endOfData) :
      Replaces symbol .endOfLine taken []
  | surplus (hmore : symbol.kind ≠ .endOfData) : Replaces symbol .endOfLine false [.skip]
  | skipped (taken : Bool) (hend : taken = true ↔ symbol.kind ≠ .endOfData) :
      Replaces symbol .skip taken []
  | skip (hmore : symbol.kind ≠ .endOfData) : Replaces symbol .skip true [.skip]
  | reduce : Replaces symbol .reduce false []

/-- The declarations and the diagnostics so far. -/
def outcome (parser : Parser) : List (Decl Statement) × List Diagnostic :=
  (parser.draft.decls.toList, parser.diagnostics.toList)

@[simp] theorem outcome_setOpen (parser : Parser) (statement : Statement) :
    (parser.setOpen statement).outcome = parser.outcome := by
  simp [outcome, setOpen]

/-- What no offer changes.  Declarations and diagnostics are never withdrawn. -/
structure Keeps (parser next : Parser) : Prop where
  functions : next.functions = parser.functions
  retryLimit : next.retryLimit = parser.retryLimit
  abandoned : next.abandoned = parser.abandoned
  grows : Grows parser.outcome next.outcome

namespace Keeps

variable {parser next : Parser}

theorem diagnostics (hkeeps : Keeps parser next) :
    parser.diagnostics.size ≤ next.diagnostics.size := by
  obtain ⟨added, hadded, -⟩ := hkeeps.grows.diagnostics
  have hlength := congrArg List.length hadded
  simp only [outcome, List.length_append, Array.length_toList] at hlength
  omega

/-- Nothing is reported. -/
theorem silent (hfunctions : next.functions = parser.functions)
    (hretryLimit : next.retryLimit = parser.retryLimit)
    (habandoned : next.abandoned = parser.abandoned)
    (houtcome : next.outcome = parser.outcome) : Keeps parser next :=
  ⟨hfunctions, hretryLimit, habandoned, houtcome ▸ .refl _⟩

theorem report (cause : Cause) (hfunctions : next.functions = parser.functions)
    (hretryLimit : next.retryLimit = parser.retryLimit)
    (habandoned : next.abandoned = parser.abandoned)
    (houtcome : next.outcome = (parser.report cause).outcome)
    (hmistake : cause.isMistake = true) : Keeps parser next := by
  refine ⟨hfunctions, hretryLimit, habandoned, ?_⟩
  rw [houtcome, outcome, outcome, Parser.report, Array.toList_push]
  exact .report hmistake

theorem trans {last : Parser} (hfirst : Keeps parser next) (hsecond : Keeps next last) :
    Keeps parser last where
  functions := hsecond.functions.trans hfirst.functions
  retryLimit := hsecond.retryLimit.trans hfirst.retryLimit
  abandoned := hsecond.abandoned.trans hfirst.abandoned
  grows := hfirst.grows.trans hsecond.grows

end Keeps

/-- The outcome of a step of a state that is already off the stack. -/
def Steps (symbol : Symbol) (state : State) (parser : Parser) (taken : Bool) (next : Parser) :
    Prop :=
  ∃ states, Replaces symbol state taken states ∧ next.states = states ++ parser.states ∧
    Keeps parser next

section

variable {symbol : Symbol} {parser next : Parser} {taken : Bool}

theorem Keeps.of_close (hclose : parser.close = .ok next) :
    next.states = parser.states ∧ Keeps parser next := by
  obtain ⟨draft, hmerged, hnext⟩ := exists_of_bind_ok hclose
  cases hnext
  have hgrows : Grows parser.outcome (draft.decls.toList, parser.diagnostics.toList) :=
    ⟨Draft.decls_prefix_of_merged hmerged, (Grows.refl parser.outcome).diagnostics⟩
  exact ⟨rfl, rfl, rfl, rfl, hgrows⟩

theorem stepLine_steps (hstep : stepLine parser symbol = .ok (taken, next)) :
    Steps symbol .line parser taken next := by
  unfold stepLine at hstep
  split at hstep
  · rename_i hkind
    cases hstep
    exact ⟨[], .line (by simp [hkind]) _, rfl, .silent rfl rfl rfl rfl⟩
  · rename_i hkind
    cases hstep
    exact ⟨[], .noLine hkind, rfl, .silent rfl rfl rfl rfl⟩
  · rename_i hkind
    obtain ⟨closed, hclose, hnext⟩ := exists_of_bind_ok hstep
    obtain ⟨hstates, hkeeps⟩ := Keeps.of_close hclose
    cases hnext
    refine ⟨[.line], .line (by simp [hkind]) _, ?_, hkeeps.functions, hkeeps.retryLimit,
      hkeeps.abandoned, hkeeps.grows⟩
    show [.line] ++ closed.states = _
    rw [hstates]
    rfl
  · rename_i hkind
    split at hstep
    · cases hstep
      exact ⟨_, .line (by simp [hkind]) _, rfl, .silent rfl rfl rfl rfl⟩
    · cases hstep
      exact ⟨_, .line (by simp [hkind]) _, rfl, .report _ rfl rfl rfl rfl rfl⟩
  · rename_i hkind
    split at hstep
    · cases hstep
      exact ⟨_, .line (by simp [hkind]) _, rfl, .silent rfl rfl rfl rfl⟩
    · cases hstep
      exact ⟨_, .line (by simp [hkind]) _, rfl, .report _ rfl rfl rfl rfl rfl⟩
  · rename_i hkind
    cases hstep
    exact ⟨_, .line (by simp [hkind]) _, rfl, .report _ rfl rfl rfl rfl rfl⟩
  · rename_i hend _ _ _ _
    cases hstep
    exact ⟨_, .line hend _, rfl, .report _ rfl rfl rfl rfl rfl⟩

theorem stepOperand_steps {kind : OperandKind}
    (hstep : stepOperand parser kind symbol = .ok (taken, next)) :
    Steps symbol (.operand kind) parser taken next := by
  unfold stepOperand at hstep
  split at hstep
  · cases hstep
    exact ⟨[], .noOperand _, rfl, .silent rfl rfl rfl rfl⟩
  · cases hstep
    exact ⟨_, .constant _, rfl, .silent rfl rfl rfl rfl⟩
  · cases hstep
    exact ⟨_, .constant _, rfl, .silent rfl rfl rfl rfl⟩
  · split at hstep
    · obtain ⟨top, _, hnext⟩ := exists_of_bind_ok hstep
      split at hnext
      · cases hnext
        exact ⟨[], .operand _, rfl, .silent rfl rfl rfl (outcome_setOpen _ _)⟩
      · cases hnext
        exact ⟨[], .operand _, rfl, .silent rfl rfl rfl rfl⟩
    · cases hstep
      exact ⟨[], .noOperand _, rfl, .silent rfl rfl rfl rfl⟩
  · split at hstep
    · obtain ⟨top, _, hnext⟩ := exists_of_bind_ok hstep
      split at hnext
      · cases hnext
        exact ⟨[], .operand _, rfl, .silent rfl rfl rfl (outcome_setOpen _ _)⟩
      · cases hnext
        exact ⟨[], .operand _, rfl, .silent rfl rfl rfl rfl⟩
    · cases hstep
      exact ⟨[], .noOperand _, rfl, .silent rfl rfl rfl rfl⟩

theorem stepValue_steps (hstep : stepValue parser symbol = .ok (taken, next)) :
    Steps symbol .value parser taken next := by
  unfold stepValue at hstep
  split at hstep
  · cases hstep
    exact ⟨_, .value _, rfl, .silent rfl rfl rfl rfl⟩
  · split at hstep
    · cases hstep
      exact ⟨[], .noValue, rfl, .silent rfl rfl rfl rfl⟩
    · cases hstep
      exact ⟨_, .value _, rfl, .silent rfl rfl rfl rfl⟩
    · cases hstep
      exact ⟨_, .value _, rfl, .report _ rfl rfl rfl rfl rfl⟩

theorem stepTypeTag_steps (hstep : stepTypeTag parser symbol = .ok (taken, next)) :
    Steps symbol .typeTag parser taken next := by
  obtain ⟨top, _, hnext⟩ := exists_of_bind_ok hstep
  split at hnext
  · split at hnext
    · cases hnext
      exact ⟨[], .typeTag _, rfl, .silent rfl rfl rfl (outcome_setOpen _ _)⟩
    · split at hnext
      · cases hnext
        exact ⟨[], .typeTag _, rfl, .silent rfl rfl rfl (outcome_setOpen _ _)⟩
      · cases hnext
        exact ⟨[], .typeTag _, rfl, .report _ rfl rfl rfl (outcome_setOpen _ _) rfl⟩
  · cases hnext

theorem stepDirective_steps {name : String}
    (hstep : stepDirective parser name symbol = .ok (taken, next)) :
    Steps symbol (.directive name) parser taken next := by
  unfold stepDirective at hstep
  split at hstep
  · cases hstep
    exact ⟨[], .directive _ _, rfl, .silent rfl rfl rfl rfl⟩
  · split at hstep
    · split at hstep
      · obtain ⟨lineShift, -, hnext⟩ := exists_of_bind_ok hstep
        cases hnext
        exact ⟨[], .directive _ _, rfl, .silent rfl rfl rfl rfl⟩
      · cases hstep
        exact ⟨[], .directive _ _, rfl, .silent rfl rfl rfl rfl⟩
    · cases hstep
      exact ⟨[], .directive _ _, rfl, .report _ rfl rfl rfl rfl rfl⟩

theorem stepEndOfLine_steps (hstep : stepEndOfLine parser symbol = .ok (taken, next)) :
    Steps symbol .endOfLine parser taken next := by
  unfold stepEndOfLine at hstep
  split at hstep
  · rename_i hkind
    cases hstep
    exact ⟨[], .endOfLine _ (by simp [hkind]), rfl, .silent rfl rfl rfl rfl⟩
  · rename_i hkind
    cases hstep
    exact ⟨[], .endOfLine _ (by simp [hkind]), rfl, .silent rfl rfl rfl rfl⟩
  · rename_i hend
    cases hstep
    exact ⟨_, .surplus hend, rfl, .report _ rfl rfl rfl rfl rfl⟩

theorem stepSkip_steps (hstep : stepSkip parser symbol = .ok (taken, next)) :
    Steps symbol .skip parser taken next := by
  unfold stepSkip at hstep
  split at hstep
  · rename_i hkind
    cases hstep
    exact ⟨[], .skipped _ (by simp [hkind]), rfl, .silent rfl rfl rfl rfl⟩
  · rename_i hkind
    cases hstep
    exact ⟨[], .skipped _ (by simp [hkind]), rfl, .silent rfl rfl rfl rfl⟩
  · rename_i hend
    cases hstep
    exact ⟨_, .skip hend, rfl, .silent rfl rfl rfl rfl⟩

/-- The steps of closing a statement. -/
theorem stepReduce_bind (parser : Parser) :
    stepReduce parser = (do
      let top ← parser.draft.top
      let closed ← ((parser.reportAny (completed top).2).setOpen (completed top).1).close
      return (false, closed)) := rfl

/-- What is wrong with an operand is a mistake. -/
theorem isMistake_completed (statement : Statement) :
    ∀ cause ∈ (completed statement).2, cause.isMistake = true := by
  intro cause hcause
  unfold completed forwardOperand at hcause
  grind [Cause.isMistake]

theorem keeps_reportAny (parser : Parser) {cause : Option Cause}
    (hmistake : ∀ reported ∈ cause, reported.isMistake = true) :
    (parser.reportAny cause).states = parser.states ∧ Keeps parser (parser.reportAny cause) := by
  cases cause with
  | none => exact ⟨rfl, .silent rfl rfl rfl rfl⟩
  | some cause => exact ⟨rfl, .report _ rfl rfl rfl rfl (hmistake _ rfl)⟩

theorem stepReduce_steps (hstep : stepReduce parser = .ok (taken, next)) :
    Steps symbol .reduce parser taken next := by
  rw [stepReduce_bind] at hstep
  obtain ⟨top, _, hrest⟩ := exists_of_bind_ok hstep
  obtain ⟨closed, hclose, hnext⟩ := exists_of_bind_ok hrest
  obtain ⟨hstates, hkeeps⟩ := Keeps.of_close hclose
  obtain ⟨hreported, hkept⟩ := keeps_reportAny parser (isMistake_completed top)
  cases hnext
  have hopen : Keeps parser ((parser.reportAny (completed top).2).setOpen (completed top).1) :=
    hkept.trans (.silent rfl rfl rfl (outcome_setOpen _ _))
  exact ⟨[], .reduce, hstates.trans hreported, hopen.trans hkeeps⟩

/-- A step replaces the topmost state. -/
theorem step_steps {state : State} (hstep : step parser state symbol = .ok (taken, next)) :
    Steps symbol state parser taken next := by
  cases state with
  | body =>
    by_cases hend : symbol.kind = .endOfData
    · rw [step, stepBody, if_pos hend] at hstep
      cases hstep
      exact ⟨[], .finish hend, rfl, .silent rfl rfl rfl rfl⟩
    · rw [step, stepBody, if_neg hend] at hstep
      cases hstep
      exact ⟨_, .body hend, rfl, .silent rfl rfl rfl rfl⟩
  | lines =>
    by_cases hend : symbol.kind = .endOfData
    · rw [step, stepLines, if_pos hend] at hstep
      cases hstep
      exact ⟨[], .noLines hend, rfl, .silent rfl rfl rfl rfl⟩
    · rw [step, stepLines, if_neg hend] at hstep
      cases hstep
      exact ⟨_, .lines hend, rfl, .silent rfl rfl rfl rfl⟩
  | line => exact stepLine_steps hstep
  | operand kind => exact stepOperand_steps hstep
  | value => exact stepValue_steps hstep
  | typeTag => exact stepTypeTag_steps hstep
  | directive name => exact stepDirective_steps hstep
  | endOfLine => exact stepEndOfLine_steps hstep
  | skip => exact stepSkip_steps hstep
  | reduce => exact stepReduce_steps hstep

/-- An offer replaces the topmost state.  Line marks and what follows the end of the data change
no state. -/
theorem put_steps (hput : put symbol parser = .ok (taken, next)) :
    (∃ state rest, parser.states = state :: rest ∧ symbol.kind ≠ .lineMark ∧
      Steps symbol state { parser with states := rest } taken next) ∨
    (taken = true ∧ (symbol.kind = .lineMark ∨ parser.states = []) ∧
      next.states = parser.states ∧ Keeps parser next) := by
  unfold put at hput
  split at hput
  · rename_i hkind
    right
    split at hput
    · obtain ⟨line, -, hnext⟩ := exists_of_bind_ok hput
      cases hnext
      exact ⟨rfl, .inl hkind, rfl, .silent rfl rfl rfl rfl⟩
    · cases hput
      exact ⟨rfl, .inl hkind, rfl, .silent rfl rfl rfl rfl⟩
  · rename_i hkind
    split at hput
    · rename_i hstates
      right
      split at hput
      · cases hput
        exact ⟨rfl, .inr hstates, rfl, .silent rfl rfl rfl rfl⟩
      · cases hput
        exact ⟨rfl, .inr hstates, rfl, .report _ rfl rfl rfl rfl rfl⟩
    · rename_i state rest hstates
      left
      exact ⟨state, rest, hstates, hkind, step_steps hput⟩

theorem put_keeps (hput : put symbol parser = .ok (taken, next)) : Keeps parser next := by
  rcases put_steps hput with ⟨_, _, _, _, _, _, _, hkeeps⟩ | ⟨_, _, _, hkeeps⟩
  · exact ⟨hkeeps.functions, hkeeps.retryLimit, hkeeps.abandoned, hkeeps.grows⟩
  · exact hkeeps

/-! ## Ranks -/

/-- How often the states decline the symbol at most. -/
def rank (symbol : Symbol) : List State → Nat
  | [] => 0
  | state :: rest =>
    match state with
    | .body => if symbol.kind = .endOfData then 0 else 2
    | .lines => if symbol.kind = .endOfData then rank symbol rest + 1 else 1
    | .line | .skip => if symbol.kind = .endOfData then rank symbol rest + 1 else 0
    | .endOfLine => if symbol.kind = .endOfData then rank symbol rest + 1 else 1
    | .operand _ => rank symbol rest + 2
    | .value | .typeTag | .directive _ | .reduce => rank symbol rest + 1

/-- A declined offer lowers the rank. -/
theorem rank_lt_of_replaces {state : State} {states : List State}
    (hreplaces : Replaces symbol state false states) (rest : List State) :
    rank symbol (states ++ rest) < rank symbol (state :: rest) := by
  cases hreplaces with
  | body hmore => simp [rank, hmore]
  | noLines hend => simp [rank, hend]
  | lines hmore => simp [rank, hmore]
  | noLine hend => simp [rank, hend]
  | noOperand kind => simp [rank]
  | constant kind => simp [rank]
  | noValue => simp [rank]
  | typeTag => simp [rank]
  | directive name => simp [rank]
  | endOfLine _ hend =>
    have hend : symbol.kind = .endOfData := by simpa using hend
    simp [rank, hend]
  | surplus hmore => simp [rank, hmore]
  | skipped _ hend =>
    have hend : symbol.kind = .endOfData := by simpa using hend
    simp [rank, hend]
  | reduce => simp [rank]

/-- The states of a steady parser decline a symbol at most five times. -/
theorem rank_lt_six {states : List State} {stack : List (Statement × Position)}
    (hfits : Fits states stack) : rank symbol states < 6 := by
  by_cases hend : symbol.kind = .endOfData
  · cases hfits <;> simp [rank, lineEnd, hend]
  · cases hfits <;> simp [rank, lineEnd, hend]

end

/-! ## Symbols -/

/-- The parser is steady and has not given up. -/
structure Ready (parser : Parser) : Prop where
  steady : Steady parser
  notAbandoned : parser.abandoned = false

theorem ready_start (file : String) (retryLimit : Nat) (functions : FunctionTable) :
    Ready (start file retryLimit functions) :=
  ⟨steady_start file retryLimit functions, rfl⟩

theorem keeps_of_takes {symbol : Symbol} {parser next : Parser}
    (htakes : Takes (put symbol) parser next) : Keeps parser next := by
  induction htakes with
  | taken htaken => exact put_keeps htaken
  | declined hdeclined _ ih => exact (put_keeps hdeclined).trans ih

/-- The argument of a directive is computed with at its first offer. -/
theorem safe_of_declined {symbol : Symbol} {parser next : Parser} (hsteady : Steady parser)
    (hdeclined : put symbol parser = .ok (false, next)) : Safe next symbol := by
  obtain ⟨state, rest, hstates, hmark, states, hreplaces, hnext, -⟩ | ⟨htaken, -⟩ :=
    put_steps hdeclined
  · refine safe_of_calm hmark ?_
    have hfits := hsteady.fits
    rw [hstates] at hfits
    have hrest : Calm rest := by
      generalize parser.draft.stack = stack at hfits
      cases hfits <;> simp [Calm, lineEnd]
    rw [hnext, Calm, List.mem_append, not_or]
    exact ⟨by cases hreplaces <;> simp, hrest⟩
  · cases htaken

/-- Six offers are enough for every symbol. -/
theorem offer_takes (symbol : Symbol) {parser : Parser} (hsteady : Steady parser)
    (hsafe : Safe parser symbol) {limit : Nat} (hlimit : 6 ≤ limit) :
    ∃ next, Takes (put symbol) parser next ∧ offer limit (put symbol) parser = .ok (true, next) ∧
      Steady next := by
  have hattempt (state : Parser) (hstate : Steady state ∧ Safe state symbol) :
      ∃ taken next, put symbol state = .ok (taken, next) ∧ Steady next ∧
        (taken = false → (Steady next ∧ Safe next symbol) ∧
          rank symbol next.states < rank symbol state.states) := by
    obtain ⟨taken, next, hput, hnext⟩ := put_steady symbol hstate.1 hstate.2
    refine ⟨taken, next, hput, hnext, ?_⟩
    rintro rfl
    refine ⟨⟨hnext, safe_of_declined hstate.1 hput⟩, ?_⟩
    rcases put_steps hput with
      ⟨top, rest, hstates, _, states, hreplaces, hnext, _⟩ | ⟨htaken, _⟩
    · rw [hstates, hnext]
      exact rank_lt_of_replaces hreplaces rest
    · cases htaken
  have hrank : rank symbol parser.states < limit :=
    Nat.lt_of_lt_of_le (rank_lt_six hsteady.fits) hlimit
  exact exists_takes_of_rank (fun state : Parser => rank symbol state.states) hattempt
    ⟨hsteady, hsafe⟩ hrank

/-- With a limit of six or more, no symbol makes the parser give up. -/
theorem feed_takes (symbol : Symbol) {parser : Parser} (hready : Ready parser)
    (hlimit : 6 ≤ parser.retryLimit) (hsafe : Safe parser symbol) :
    ∃ next, Takes (put symbol) parser next ∧ feed symbol parser = .ok next ∧ Ready next ∧
      Keeps parser next := by
  obtain ⟨next, htakes, hoffer, hsteady⟩ := offer_takes symbol hready.steady hsafe hlimit
  have hkeeps := keeps_of_takes htakes
  refine ⟨next, htakes, ?_, ⟨hsteady, hkeeps.abandoned.trans hready.notAbandoned⟩, hkeeps⟩
  rw [feed, hready.notAbandoned, hoffer]
  rfl

theorem safe_of_takes {symbol : Symbol} {parser next : Parser}
    (htakes : Takes (put symbol) parser next) : Safe parser symbol := by
  cases htakes with
  | taken htaken => exact safe_of_put htaken
  | declined hdeclined _ => exact safe_of_put hdeclined

theorem feed_of_takes {symbol : Symbol} {parser next : Parser} (hready : Ready parser)
    (hlimit : 6 ≤ parser.retryLimit) (htakes : Takes (put symbol) parser next) :
    feed symbol parser = .ok next := by
  obtain ⟨other, hother, hfeed, _⟩ := feed_takes symbol hready hlimit (safe_of_takes htakes)
  rw [hfeed, htakes.unique hother]

/-! ## Runs

A parser that has given up computes nothing.  Any other one is fed a symbol without a fault exactly
if the symbol is safe. -/

theorem feed_of_abandoned {symbol : Symbol} {parser : Parser} (habandoned : parser.abandoned = true) :
    feed symbol parser = .ok parser := by
  rw [feed, habandoned]
  rfl

theorem feed_overflow {symbol : Symbol} {parser : Parser} {operation : Arithmetic}
    (hopen : parser.abandoned = false) (hoverflow : Overflow parser symbol operation) :
    feed symbol parser = .error (.overflow operation) := by
  rw [feed, hopen, offer_of_error _ (put_overflow hoverflow)]
  rfl

/-- How feeding a symbol ends. -/
theorem feed_cases (symbol : Symbol) {parser : Parser} (hsteady : Steady parser) :
    (∃ next, feed symbol parser = .ok next ∧ Steady next ∧
      (parser.abandoned = false → Safe parser symbol)) ∨
    ∃ operation, parser.abandoned = false ∧ Overflow parser symbol operation ∧
      feed symbol parser = .error (.overflow operation) := by
  cases hopen : parser.abandoned with
  | true => exact .inl ⟨parser, feed_of_abandoned hopen, hsteady, by simp⟩
  | false =>
    by_cases hoverflow : ∃ operation, Overflow parser symbol operation
    · obtain ⟨operation, hoverflow⟩ := hoverflow
      exact .inr ⟨operation, rfl, hoverflow, feed_overflow hopen hoverflow⟩
    · have hsafe : Safe parser symbol := fun operation h => hoverflow ⟨operation, h⟩
      have hattempt (state : Parser) (hstate : Steady state ∧ Safe state symbol) :
          (∃ next, put symbol state = .ok (true, next) ∧ Steady next) ∨
          (∃ next, put symbol state = .ok (false, next) ∧ Steady next ∧ Safe next symbol) ∨
          ∃ fault, put symbol state = .error fault ∧ False := by
        obtain ⟨taken, next, hput, hnext⟩ := put_steady symbol hstate.1 hstate.2
        cases taken with
        | true => exact .inl ⟨next, hput, hnext⟩
        | false => exact .inr (.inl ⟨next, hput, hnext, safe_of_declined hstate.1 hput⟩)
      left
      rw [feed, hopen]
      obtain ⟨next, hoffer, hnext⟩ | ⟨next, hoffer, hnext, -⟩ | ⟨_, _, hfalse⟩ :=
        offer_cases hattempt parser.retryLimit ⟨hsteady, hsafe⟩
      · rw [hoffer]
        exact ⟨next, rfl, hnext, fun _ => hsafe⟩
      · rw [hoffer]
        exact ⟨_, rfl, ⟨hnext.fits, hnext.finished, hnext.decls⟩, fun _ => hsafe⟩
      · exact hfalse.elim

/-- A symbol that is fed without a fault leaves a steady parser. -/
theorem steady_of_feed {symbol : Symbol} {parser next : Parser} (hsteady : Steady parser)
    (hfeed : feed symbol parser = .ok next) :
    Steady next ∧ (parser.abandoned = false → Safe parser symbol) := by
  obtain ⟨_, hnext, hresult⟩ | ⟨_, _, _, hfault⟩ := feed_cases symbol hsteady
  · rw [hfeed] at hnext
    cases hnext
    exact hresult
  · rw [hfeed] at hfault
    cases hfault

/-- What is fed to a parser that does not give up is taken. -/
theorem takes_of_feed {symbol : Symbol} {parser next : Parser} (hready : Ready parser)
    (hlimit : 6 ≤ parser.retryLimit) (hfeed : feed symbol parser = .ok next) :
    Takes (put symbol) parser next ∧ Ready next ∧ Keeps parser next := by
  obtain ⟨other, htakes, hother, hnext⟩ :=
    feed_takes symbol hready hlimit ((steady_of_feed hready.steady hfeed).2 hready.notAbandoned)
  rw [hfeed] at hother
  cases hother
  exact ⟨htakes, hnext⟩

/-- How feeding items ends: with a steady parser, or at the first symbol that is not safe. -/
theorem foldlM_feedItem_cases (items : List Item) {parser : Parser} (hsteady : Steady parser) :
    (∃ next, items.foldlM feedItem parser = .ok next ∧ Steady next) ∨
    ∃ (before : List Item) (symbol : Symbol) (after : List Item) (between : Parser)
      (operation : Arithmetic), items = before ++ Item.symbol symbol :: after ∧
      before.foldlM feedItem parser = .ok between ∧ Steady between ∧ between.abandoned = false ∧
      Overflow between symbol operation ∧
      items.foldlM feedItem parser = .error (.overflow operation) := by
  induction items generalizing parser with
  | nil => exact .inl ⟨parser, rfl, hsteady⟩
  | cons item items ih =>
    cases item with
    | inclusion path =>
      obtain hnext | ⟨before, symbol, after, between, operation, rfl, hbefore, hrest⟩ := ih hsteady
      · exact .inl hnext
      · exact .inr ⟨.inclusion path :: before, symbol, after, between, operation, rfl, hbefore,
          hrest⟩
    | symbol symbol =>
      obtain ⟨next, hfeed, hnext, -⟩ | ⟨operation, hopen, hoverflow, hfeed⟩ :=
        feed_cases symbol hsteady
      · have hcons (items : List Item) : (.symbol symbol :: items).foldlM feedItem parser =
            items.foldlM feedItem next := by
          rw [List.foldlM_cons, feedItem, hfeed, ok_bind]
        simp only [hcons]
        obtain hlast | ⟨before, found, after, between, operation, rfl, hbefore, hrest⟩ := ih hnext
        · exact .inl hlast
        · refine .inr ⟨.symbol symbol :: before, found, after, between, operation, rfl, ?_, hrest⟩
          rw [hcons, hbefore]
      · refine .inr ⟨[], symbol, items, parser, operation, rfl, rfl, hsteady, hopen, hoverflow, ?_⟩
        rw [List.foldlM_cons, feedItem, hfeed]
        rfl

end Parser

/-- How parsing items ends: with labels and instructions that have their operands, or with an
overflow. -/
theorem parseItems_cases (items : List Item) (file : String) (retryLimit : Nat)
    (functions : FunctionTable) :
    (∃ decls diagnostics, parseItems (.start file retryLimit functions) items =
      .ok (decls, diagnostics) ∧ ∀ decl ∈ decls, decl.node.IsDeclared) ∨
    ∃ operation,
      parseItems (.start file retryLimit functions) items = .error (.overflow operation) := by
  obtain ⟨parser, hparser, hsteady⟩ | ⟨_, _, _, _, operation, _, _, _, _, _, hfault⟩ :=
    Parser.foldlM_feedItem_cases items (Parser.steady_start file retryLimit functions)
  · refine .inl ⟨parser.draft.decls.toList, parser.diagnostics.toList, ?_, fun decl hmem => ?_⟩
    · rw [parseItems, hparser, ok_bind, Parser.finish_of_steady hsteady]
    · exact hsteady.decls decl (by simpa using hmem)
  · refine .inr ⟨operation, ?_⟩
    rw [parseItems, hfault]
    rfl

/-! ## Assembling -/

section

variable {file text : String} {retryLimit : Nat} {functions : FunctionTable} {items : List Item}

/-- A text is assembled by feeding its items. -/
theorem assemble_of_run {parser : Parser} (hlex : lex text = .ok items)
    (hfold : items.foldlM Parser.feedItem (.start file retryLimit functions) = .ok parser) :
    assemble file text retryLimit functions =
      .ok (.ofStatements parser.draft.decls.toList parser.diagnostics.toList) := by
  have hsteady : Parser.Steady parser := by
    obtain ⟨_, hnext, hsteady⟩ | ⟨_, _, _, _, _, _, _, _, _, _, hfault⟩ :=
      Parser.foldlM_feedItem_cases items (Parser.steady_start file retryLimit functions)
    · rw [hfold] at hnext
      cases hnext
      exact hsteady
    · rw [hfold] at hfault
      cases hfault
  rw [assemble, parse, hlex, ok_bind, parseItems, hfold, ok_bind, Parser.finish_of_steady hsteady,
    ok_bind]
  rfl

theorem run_of_assemble {program : Program} (hlex : lex text = .ok items)
    (hassemble : assemble file text retryLimit functions = .ok program) :
    ∃ parser, items.foldlM Parser.feedItem (.start file retryLimit functions) = .ok parser ∧
      program = .ofStatements parser.draft.decls.toList parser.diagnostics.toList := by
  obtain ⟨parser, hfold, -⟩ | ⟨_, _, _, _, _, _, _, _, _, _, hfault⟩ :=
    Parser.foldlM_feedItem_cases items (Parser.steady_start file retryLimit functions)
  · rw [assemble_of_run hlex hfold] at hassemble
    cases hassemble
    exact ⟨parser, hfold, rfl⟩
  · rw [assemble, parse, hlex, ok_bind, parseItems, hfault] at hassemble
    cases hassemble

end

end Docpress.Assembly
