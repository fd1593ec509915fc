import Docpress.Proofs.AssemblyOffers
import Docpress.Proofs.Requests

/-!
# Raising the retry limit

The retry limit decides when a parser gives up, and nothing else.  A parser with a higher limit does
the same as one with a lower limit until that one gives up, and then goes on.  It declares and
reports what the other one does, and possibly more.

* `IgnoresLimit`: a step that neither looks at the limit nor changes it.
* `Limited`: what the comparison needs to know about a parser.  `Limited.Follows` relates the two
  parsers while they are fed: the higher limit made no difference so far, or the first parser has
  given up and the second one has gone on (`Follows.feed`, `Follows.feedAll`).
* Both parsers are instances (`Document.Parser.limited`, `Assembly.Parser.limited`).
-/

namespace Docpress

/-- The step does not depend on the limit, which `relimited` exchanges. -/
def IgnoresLimit {σ : Type} (relimited : Nat → σ → σ) (step : σ → Except Fault (Bool × σ)) : Prop :=
  ∀ limit parser, step (relimited limit parser) = Prod.map id (relimited limit) <$> step parser

/-- The diagnostics without those that say that a parser has given up. -/
def withoutRetryLimit (diagnostics : List Diagnostic) : List Diagnostic :=
  diagnostics.filter (!·.cause.isRetryLimit)

/-- The second result begins with the first one, as far as that goes. -/
structure Continues {α : Type} (first second : List (Decl α) × List Diagnostic) : Prop where
  decls : first.1 <+: second.1
  diagnostics : withoutRetryLimit first.2 <+: second.2
  /-- the first result ends but once -/
  once : (first.2.filter (·.cause.isRetryLimit)).length ≤ 1

/-- A parser with a retry limit. -/
structure Limited (σ α : Type) extends Service σ where
  limit : σ → Nat
  /-- the parser with another limit -/
  relimited : Nat → σ → σ
  giveUp : σ → σ
  /-- the declarations and the diagnostics so far -/
  outcome : σ → List (Decl α) × List Diagnostic
  finish : σ → Except Fault (List (Decl α) × List Diagnostic)

namespace Limited

variable {σ α : Type}

/-- What a parser does with offers, and what the limit has no part in. -/
structure Lawful (parser : Limited σ α) (Inv : σ → Prop) (Fails : Fault → Prop) : Prop where
  feeds : parser.FeedsByOffers parser.limit parser.giveUp
  put_ignoresLimit : ∀ symbol, IgnoresLimit parser.relimited (parser.put symbol)
  limit_relimited : ∀ limit state, parser.limit (parser.relimited limit state) = limit
  abandoned_relimited : ∀ limit state,
    parser.abandoned (parser.relimited limit state) = parser.abandoned state
  outcome_relimited : ∀ limit state,
    parser.outcome (parser.relimited limit state) = parser.outcome state
  inv_relimited : ∀ limit {state}, Inv state → Inv (parser.relimited limit state)
  put_grows : ∀ symbol {state}, Inv state →
    (∃ taken next, parser.put symbol state = .ok (taken, next) ∧ Inv next ∧
      parser.limit next = parser.limit state ∧ parser.abandoned next = parser.abandoned state ∧
      Grows (parser.outcome state) (parser.outcome next)) ∨
    ∃ fault, parser.put symbol state = .error fault ∧ Fails fault
  inv_giveUp : ∀ {state}, Inv state → Inv (parser.giveUp state)
  abandoned_giveUp : ∀ state, parser.abandoned (parser.giveUp state) = true
  outcome_giveUp : ∀ state, ∃ position limit, parser.outcome (parser.giveUp state) =
    ((parser.outcome state).1, (parser.outcome state).2 ++ [⟨position, .retryLimit limit⟩])
  finish_eq : ∀ {state}, Inv state → parser.finish state = .ok (parser.outcome state)

/-- The state is reached by offers. -/
structure After (parser : Limited σ α) (Inv : σ → Prop) (start state : σ) : Prop where
  inv : Inv state
  limit : parser.limit state = parser.limit start
  abandoned : parser.abandoned state = parser.abandoned start
  grows : Grows (parser.outcome start) (parser.outcome state)

/-- The parser has given up, behind these declarations and diagnostics. -/
structure GivenUp (parser : Limited σ α) (Inv : σ → Prop) (decls : List (Decl α))
    (diagnostics : List Diagnostic) (state : σ) : Prop where
  inv : Inv state
  abandoned : parser.abandoned state = true
  outcome : ∃ position limit,
    parser.outcome state = (decls, diagnostics ++ [⟨position, .retryLimit limit⟩])
  mistakes : ∀ diagnostic ∈ diagnostics, diagnostic.cause.isRetryLimit = false

/-- How two parsers compare whose limits differ, where the second one has the limit `raised`. -/
inductive Follows (parser : Limited σ α) (Inv : σ → Prop) (raised : Nat) (first second : σ) :
    Prop where
  | same (hinv : Inv first) (hlimit : parser.limit first ≤ raised)
      (hopen : parser.abandoned first = false) (hsecond : second = parser.relimited raised first)
      (hmistakes : ∀ diagnostic ∈ (parser.outcome first).2, diagnostic.cause.isRetryLimit = false)
  | ahead {decls : List (Decl α)} {diagnostics : List Diagnostic}
      (hfirst : GivenUp parser Inv decls diagnostics first) (hsecond : Inv second)
      (hbegins : decls <+: (parser.outcome second).1 ∧ diagnostics <+: (parser.outcome second).2)

/-- How what the two parsers do with the same symbols compares.  Where the second one fails, the
first one fails in the same way or has given up before. -/
inductive Compares (parser : Limited σ α) (Inv : σ → Prop) (Fails : Fault → Prop) (raised : Nat) :
    Except Fault σ → Except Fault σ → Prop where
  | follows {first second : σ} (hfollows : Follows parser Inv raised first second) :
      Compares parser Inv Fails raised (.ok first) (.ok second)
  | alike {fault : Fault} (hfails : Fails fault) :
      Compares parser Inv Fails raised (.error fault) (.error fault)
  | beyond {fault : Fault} {decls : List (Decl α)} {diagnostics : List Diagnostic} {first : σ}
      (hfirst : GivenUp parser Inv decls diagnostics first) (hfails : Fails fault) :
      Compares parser Inv Fails raised (.ok first) (.error fault)

section

variable {parser : Limited σ α} {Inv : σ → Prop} {Fails : Fault → Prop} {raised : Nat}
variable {state first second : σ}

theorem After.refl (hinv : Inv state) : After parser Inv state state :=
  ⟨hinv, rfl, rfl, .refl _⟩

/-- The diagnostics are about mistakes, as those before the offers were. -/
theorem After.mistakes (hafter : After parser Inv first second)
    (hmistakes : ∀ diagnostic ∈ (parser.outcome first).2, diagnostic.cause.isRetryLimit = false) :
    ∀ diagnostic ∈ (parser.outcome second).2, diagnostic.cause.isRetryLimit = false := by
  obtain ⟨added, hadded, hothers⟩ := hafter.grows.diagnostics
  rw [hadded, List.forall_mem_append]
  exact ⟨hmistakes, fun diagnostic hmem =>
    Cause.isRetryLimit_of_isMistake (hothers diagnostic hmem)⟩

/-- What was declared and reported before the offers stands at the beginning. -/
theorem After.begins (hafter : After parser Inv first second) :
    (parser.outcome first).1 <+: (parser.outcome second).1 ∧
      (parser.outcome first).2 <+: (parser.outcome second).2 := by
  obtain ⟨added, hadded, -⟩ := hafter.grows.diagnostics
  exact ⟨hafter.grows.decls, hadded ▸ List.prefix_append _ _⟩

namespace Lawful

theorem offerTimes_after (hlawful : parser.Lawful Inv Fails) (symbol : Symbol) (attempts : Nat)
    (hinv : Inv state) :
    (∃ taken next, offerTimes (parser.put symbol) attempts state = .ok (taken, next) ∧
      After parser Inv state next) ∨
    ∃ fault, offerTimes (parser.put symbol) attempts state = .error fault ∧ Fails fault := by
  have hattempt (between : σ) (hbetween : After parser Inv state between) :
      (∃ next, parser.put symbol between = .ok (true, next) ∧ After parser Inv state next) ∨
      (∃ next, parser.put symbol between = .ok (false, next) ∧ After parser Inv state next) ∨
      ∃ fault, parser.put symbol between = .error fault ∧ Fails fault := by
    obtain ⟨taken, next, hput, hnext, hlimit, habandoned, hgrows⟩ | hfault :=
      hlawful.put_grows symbol hbetween.inv
    · have hafter : After parser Inv state next := ⟨hnext, hlimit.trans hbetween.limit,
        habandoned.trans hbetween.abandoned, hbetween.grows.trans hgrows⟩
      cases taken with
      | true => exact .inl ⟨next, hput, hafter⟩
      | false => exact .inr (.inl ⟨next, hput, hafter⟩)
    · exact .inr (.inr hfault)
  obtain ⟨next, hnext, hafter⟩ | ⟨next, hnext, hafter⟩ | hfault :=
    offerTimes_cases hattempt attempts (.refl hinv)
  · exact .inl ⟨true, next, hnext, hafter⟩
  · exact .inl ⟨false, next, hnext, hafter⟩
  · exact .inr hfault

/-- Giving up adds a diagnostic. -/
theorem begins_giveUp (hlawful : parser.Lawful Inv Fails) (state : σ) :
    (parser.outcome state).1 <+: (parser.outcome (parser.giveUp state)).1 ∧
      (parser.outcome state).2 <+: (parser.outcome (parser.giveUp state)).2 := by
  obtain ⟨position, limit, houtcome⟩ := hlawful.outcome_giveUp state
  rw [houtcome]
  exact ⟨List.prefix_rfl, List.prefix_append _ _⟩

theorem givenUp_giveUp (hlawful : parser.Lawful Inv Fails) (hinv : Inv state)
    (hmistakes : ∀ diagnostic ∈ (parser.outcome state).2, diagnostic.cause.isRetryLimit = false) :
    GivenUp parser Inv (parser.outcome state).1 (parser.outcome state).2 (parser.giveUp state) :=
  ⟨hlawful.inv_giveUp hinv, hlawful.abandoned_giveUp state, hlawful.outcome_giveUp state, hmistakes⟩

theorem feed_of_abandoned (hlawful : parser.Lawful Inv Fails) (symbol : Symbol)
    (habandoned : parser.abandoned state = true) : parser.feed symbol state = .ok state := by
  rw [hlawful.feeds symbol state, if_pos habandoned]
  rfl

/-- A parser that has not given up is fed by offers, after which it may give up. -/
theorem feed_of_offer (hlawful : parser.Lawful Inv Fails) {symbol : Symbol} {taken : Bool}
    {next : σ} (hopen : parser.abandoned state = false)
    (hoffer : offerTimes (parser.put symbol) (max (parser.limit state) 1) state =
      .ok (taken, next)) :
    parser.feed symbol state = .ok (if taken then next else parser.giveUp next) := by
  rw [hlawful.feeds symbol state, hopen, offer, hoffer]
  cases taken <;> rfl

theorem feed_of_fault (hlawful : parser.Lawful Inv Fails) {symbol : Symbol} {fault : Fault}
    (hopen : parser.abandoned state = false)
    (hoffer : offerTimes (parser.put symbol) (max (parser.limit state) 1) state = .error fault) :
    parser.feed symbol state = .error fault := by
  rw [hlawful.feeds symbol state, hopen, offer, hoffer]
  rfl

/-- What is fed adds declarations and diagnostics. -/
theorem feed_begins (hlawful : parser.Lawful Inv Fails) (symbol : Symbol) (hinv : Inv state) :
    (∃ next, parser.feed symbol state = .ok next ∧ Inv next ∧
      (parser.outcome state).1 <+: (parser.outcome next).1 ∧
      (parser.outcome state).2 <+: (parser.outcome next).2) ∨
    ∃ fault, parser.feed symbol state = .error fault ∧ Fails fault := by
  cases hopen : parser.abandoned state with
  | true =>
    exact .inl ⟨state, hlawful.feed_of_abandoned symbol hopen, hinv, List.prefix_rfl,
      List.prefix_rfl⟩
  | false =>
    obtain ⟨taken, next, hoffer, hafter⟩ | ⟨fault, hoffer, hfails⟩ :=
      hlawful.offerTimes_after symbol (max (parser.limit state) 1) hinv
    · have hfeed := hlawful.feed_of_offer hopen hoffer
      obtain ⟨hdecls, hdiagnostics⟩ := hafter.begins
      cases taken with
      | true => exact .inl ⟨next, hfeed, hafter.inv, hdecls, hdiagnostics⟩
      | false =>
        obtain ⟨hdecls', hdiagnostics'⟩ := hlawful.begins_giveUp next
        exact .inl ⟨parser.giveUp next, hfeed, hlawful.inv_giveUp hafter.inv,
          hdecls.trans hdecls', hdiagnostics.trans hdiagnostics'⟩
    · exact .inr ⟨fault, hlawful.feed_of_fault hopen hoffer, hfails⟩

/-- Attempts do not depend on the limit. -/
theorem offerTimes_relimited (hlawful : parser.Lawful Inv Fails) (symbol : Symbol) (raised : Nat)
    (attempts : Nat) (state : σ) :
    offerTimes (parser.put symbol) attempts (parser.relimited raised state) =
      Prod.map id (parser.relimited raised) <$> offerTimes (parser.put symbol) attempts state :=
  offerTimes_map (fun state (_ : True) => hlawful.put_ignoresLimit symbol raised state)
    (fun _ _ _ _ _ => trivial) attempts trivial

/-- The higher limit allows for the attempts of the lower one, and for more behind them. -/
theorem offerTimes_raised (hlawful : parser.Lawful Inv Fails) {symbol : Symbol} {taken : Bool}
    {next : σ} {attempts : Nat}
    (hoffer : offerTimes (parser.put symbol) attempts state = .ok (taken, next))
    (raised more : Nat) :
    offerTimes (parser.put symbol) (attempts + more) (parser.relimited raised state) =
      if taken then .ok (true, parser.relimited raised next)
      else offerTimes (parser.put symbol) more (parser.relimited raised next) := by
  rw [offerTimes_add, hlawful.offerTimes_relimited, hoffer]
  cases taken <;> rfl

theorem offerTimes_raised_of_fault (hlawful : parser.Lawful Inv Fails) {symbol : Symbol}
    {fault : Fault} {attempts : Nat}
    (hoffer : offerTimes (parser.put symbol) attempts state = .error fault) (raised more : Nat) :
    offerTimes (parser.put symbol) (attempts + more) (parser.relimited raised state) =
      .error fault := by
  rw [offerTimes_add, hlawful.offerTimes_relimited, hoffer]
  rfl

/-- Where the limits make the first difference, the parser with the higher one goes on. -/
theorem compares_feed_of_same (hlawful : parser.Lawful Inv Fails) (symbol : Symbol)
    (hinv : Inv first) (hlimit : parser.limit first ≤ raised)
    (hopen : parser.abandoned first = false)
    (hmistakes : ∀ diagnostic ∈ (parser.outcome first).2, diagnostic.cause.isRetryLimit = false) :
    Compares parser Inv Fails raised (parser.feed symbol first)
      (parser.feed symbol (parser.relimited raised first)) := by
  obtain ⟨more, hmore⟩ : ∃ more, max (parser.limit (parser.relimited raised first)) 1 =
      max (parser.limit first) 1 + more :=
    ⟨max raised 1 - max (parser.limit first) 1, by rw [hlawful.limit_relimited]; omega⟩
  have hopen' : parser.abandoned (parser.relimited raised first) = false :=
    (hlawful.abandoned_relimited raised first).trans hopen
  obtain ⟨taken, next, hoffer, hafter⟩ | ⟨fault, hoffer, hfails⟩ :=
    hlawful.offerTimes_after symbol (max (parser.limit first) 1) hinv
  · have hmistakes := hafter.mistakes hmistakes
    have hraised := hlawful.offerTimes_raised hoffer raised more
    rw [← hmore] at hraised
    rw [hlawful.feed_of_offer hopen hoffer]
    cases taken with
    | true =>
      rw [hlawful.feed_of_offer hopen' hraised]
      exact .follows (.same hafter.inv (hafter.limit ▸ hlimit) (hafter.abandoned.trans hopen) rfl
        hmistakes)
    | false =>
      have hgivenUp := hlawful.givenUp_giveUp hafter.inv hmistakes
      obtain ⟨taken, last, hlast, hafter'⟩ | ⟨fault, hlast, hfails⟩ :=
        hlawful.offerTimes_after symbol more (hlawful.inv_relimited raised hafter.inv)
      · obtain ⟨hdecls, hdiagnostics⟩ := hafter'.begins
        rw [hlawful.outcome_relimited] at hdecls hdiagnostics
        rw [hlawful.feed_of_offer hopen' (hraised.trans hlast)]
        cases taken with
        | true => exact .follows (.ahead hgivenUp hafter'.inv ⟨hdecls, hdiagnostics⟩)
        | false =>
          obtain ⟨hdecls', hdiagnostics'⟩ := hlawful.begins_giveUp last
          exact .follows (.ahead hgivenUp (hlawful.inv_giveUp hafter'.inv)
            ⟨hdecls.trans hdecls', hdiagnostics.trans hdiagnostics'⟩)
      · rw [hlawful.feed_of_fault hopen' (hraised.trans hlast)]
        exact .beyond hgivenUp hfails
  · have hraised := hlawful.offerTimes_raised_of_fault hoffer raised more
    rw [← hmore] at hraised
    rw [hlawful.feed_of_fault hopen hoffer, hlawful.feed_of_fault hopen' hraised]
    exact .alike hfails

end Lawful

/-- Feeding both parsers the same symbol keeps the relation. -/
theorem Follows.feed (hfollows : Follows parser Inv raised first second)
    (hlawful : parser.Lawful Inv Fails) (symbol : Symbol) :
    Compares parser Inv Fails raised (parser.feed symbol first) (parser.feed symbol second) := by
  cases hfollows with
  | same hinv hlimit hopen hsecond hmistakes =>
    subst hsecond
    exact hlawful.compares_feed_of_same symbol hinv hlimit hopen hmistakes
  | ahead hfirst hsecond hbegins =>
    rw [hlawful.feed_of_abandoned symbol hfirst.abandoned]
    obtain ⟨other, hfeed, hother, hdecls, hdiagnostics⟩ | ⟨fault, hfeed, hfails⟩ :=
      hlawful.feed_begins symbol hsecond
    · rw [hfeed]
      exact .follows (.ahead hfirst hother
        ⟨hbegins.1.trans hdecls, hbegins.2.trans hdiagnostics⟩)
    · rw [hfeed]
      exact .beyond hfirst hfails

/-- Feeds symbols one after the other. -/
def feedAll (parser : Limited σ α) (state : σ) (symbols : List Symbol) : Except Fault σ :=
  symbols.foldlM (fun state symbol => parser.feed symbol state) state

theorem Lawful.feedAll_of_abandoned (hlawful : parser.Lawful Inv Fails) (symbols : List Symbol)
    (habandoned : parser.abandoned state = true) : parser.feedAll state symbols = .ok state := by
  induction symbols with
  | nil => rfl
  | cons symbol symbols ih =>
    rw [feedAll, List.foldlM_cons, hlawful.feed_of_abandoned symbol habandoned]
    exact ih

theorem Follows.feedAll (hfollows : Follows parser Inv raised first second)
    (hlawful : parser.Lawful Inv Fails) (symbols : List Symbol) :
    Compares parser Inv Fails raised (parser.feedAll first symbols)
      (parser.feedAll second symbols) := by
  induction symbols generalizing first second with
  | nil => exact .follows hfollows
  | cons symbol symbols ih =>
    have hcompares := hfollows.feed hlawful symbol
    simp only [Limited.feedAll, List.foldlM_cons]
    revert hcompares
    generalize parser.feed symbol first = next
    generalize parser.feed symbol second = other
    intro hcompares
    cases hcompares with
    | follows hfollows => exact ih hfollows
    | alike hfails => exact .alike hfails
    | beyond hfirst hfails =>
      have hfed := hlawful.feedAll_of_abandoned symbols hfirst.abandoned
      rw [feedAll] at hfed
      rw [ok_bind, hfed]
      exact .beyond hfirst hfails

theorem withoutRetryLimit_of_mistakes {diagnostics : List Diagnostic}
    (hmistakes : ∀ diagnostic ∈ diagnostics, diagnostic.cause.isRetryLimit = false) :
    withoutRetryLimit diagnostics = diagnostics ∧
      diagnostics.filter (·.cause.isRetryLimit) = [] := by
  constructor
  · exact List.filter_eq_self.2 fun diagnostic hmem => by simp [hmistakes diagnostic hmem]
  · exact List.filter_eq_nil_iff.2 fun diagnostic hmem => by simp [hmistakes diagnostic hmem]

/-- What the second parser has declared and reported begins with what the first one has. -/
theorem Follows.continues (hfollows : Follows parser Inv raised first second)
    (hlawful : parser.Lawful Inv Fails) :
    Continues (parser.outcome first) (parser.outcome second) := by
  cases hfollows with
  | same _ _ _ hsecond hmistakes =>
    obtain ⟨hwithout, hnone⟩ := withoutRetryLimit_of_mistakes hmistakes
    rw [hsecond, hlawful.outcome_relimited]
    exact ⟨List.prefix_rfl, ⟨[], by rw [hwithout, List.append_nil]⟩, by simp [hnone]⟩
  | ahead hfirst _ hbegins =>
    obtain ⟨position, limit, houtcome⟩ := hfirst.outcome
    obtain ⟨hwithout, hnone⟩ := withoutRetryLimit_of_mistakes hfirst.mistakes
    rw [houtcome]
    refine ⟨hbegins.1, ?_, ?_⟩
    · rw [withoutRetryLimit, List.filter_append, ← withoutRetryLimit, hwithout]
      simpa [Cause.isRetryLimit] using hbegins.2
    · rw [List.filter_append, hnone]
      exact Nat.le_refl 1

theorem Follows.inv (hfollows : Follows parser Inv raised first second)
    (hlawful : parser.Lawful Inv Fails) : Inv first ∧ Inv second := by
  cases hfollows with
  | same hinv _ _ hsecond => exact ⟨hinv, hsecond ▸ hlawful.inv_relimited raised hinv⟩
  | ahead hfirst hsecond => exact ⟨hfirst.inv, hsecond⟩

/-- A parser with nothing to report yet is followed by one with a higher limit, to the end or until
the latter fails.  The former fails there as well, unless it has given up. -/
theorem Lawful.continues (hlawful : parser.Lawful Inv Fails) (hinv : Inv state)
    (hlimit : parser.limit state ≤ raised) (hopen : parser.abandoned state = false)
    (hsilent : (parser.outcome state).2 = []) (symbols : List Symbol) :
    (∃ first second, (parser.feedAll state symbols >>= parser.finish) = .ok first ∧
      (parser.feedAll (parser.relimited raised state) symbols >>= parser.finish) = .ok second ∧
      Continues first second) ∨
    ∃ fault, Fails fault ∧ parser.feedAll (parser.relimited raised state) symbols = .error fault ∧
      (parser.feedAll state symbols = .error fault ∨
        ∃ first, (parser.feedAll state symbols >>= parser.finish) = .ok first ∧
          ∃ diagnostic ∈ first.2, diagnostic.cause.isRetryLimit) := by
  have hstart : Follows parser Inv raised state (parser.relimited raised state) :=
    .same hinv hlimit hopen rfl (by simp [hsilent])
  have hcompares := hstart.feedAll hlawful symbols
  revert hcompares
  generalize parser.feedAll state symbols = fed
  generalize parser.feedAll (parser.relimited raised state) symbols = other
  intro hcompares
  cases hcompares with
  | @follows first second hfollows =>
    obtain ⟨hinv, hinv'⟩ := hfollows.inv hlawful
    exact .inl ⟨parser.outcome first, parser.outcome second, hlawful.finish_eq hinv,
      hlawful.finish_eq hinv', hfollows.continues hlawful⟩
  | @alike fault hfails => exact .inr ⟨fault, hfails, rfl, .inl rfl⟩
  | @beyond fault _ _ first hfirst hfails =>
    obtain ⟨position, limit, houtcome⟩ := hfirst.outcome
    refine .inr ⟨fault, hfails, rfl, .inr ⟨_, hlawful.finish_eq hfirst.inv, ?_⟩⟩
    exact ⟨⟨position, .retryLimit limit⟩, by simp [houtcome], rfl⟩

end

end Limited

/-! ## Documents -/

namespace Document.Parser

/-- The parser with another retry limit. -/
def relimited (limit : Nat) (parser : Parser) : Parser :=
  { parser with retryLimit := limit }

section

variable (symbol : Symbol)

theorem openMethod_relimited (limit : Nat) (parser : Parser) (name : String)
    (states : List State) :
    ((parser.relimited limit).openMethod name).push states =
      ((parser.openMethod name).push states).relimited limit := by
  simp only [openMethod_push, moved, reportAll_eq]
  rfl

theorem append_relimited (limit : Nat) (parser : Parser) (value : Value) :
    append (parser.relimited limit) value = relimited limit <$> append parser value := by
  simp only [append, relimited]
  cases parser.draft.top with
  | error => rfl
  | ok call =>
    simp only [ok_bind]
    cases call.append value <;> rfl

theorem stepBody_ignoresLimit : IgnoresLimit relimited (stepBody · symbol) := by
  intro limit parser
  unfold stepBody
  split <;> rfl

theorem stepList_ignoresLimit : IgnoresLimit relimited (stepList · symbol) := by
  intro limit parser
  simp only [stepList, openMethod_relimited]
  repeat' split
  all_goals rfl

theorem stepParams_ignoresLimit : IgnoresLimit relimited (stepParams · symbol) := by
  intro limit parser
  simp only [stepParams, relimited]
  cases parser.draft.top with
  | error => rfl
  | ok call =>
    simp only [ok_bind]
    repeat' split
    all_goals rfl

theorem stepVector_ignoresLimit (enclosure : Enclosure) :
    IgnoresLimit relimited (stepVector · enclosure symbol) := by
  intro limit parser
  unfold stepVector
  repeat' split
  all_goals rfl

theorem stepPresentValue_ignoresLimit : IgnoresLimit relimited (stepPresentValue · symbol) := by
  intro limit parser
  have happend (value : Value) :
      (do return (true, ← relimited limit <$> append parser value)) =
        Prod.map id (relimited limit) <$>
          (do return (true, ← append parser value) : Except Fault (Bool × Parser)) := by
    cases append parser value <;> rfl
  simp only [stepPresentValue, openMethod_relimited, append_relimited]
  repeat' split
  all_goals first | rfl | exact happend _

theorem stepValue_ignoresLimit : IgnoresLimit relimited (stepValue · symbol) := by
  intro limit parser
  have hpresent := stepPresentValue_ignoresLimit symbol limit parser
  dsimp only at hpresent
  simp only [stepValue, hpresent]
  split
  · simp only [inMap, relimited]
    cases parser.draft.top with
    | error => rfl
    | ok call => cases call <;> rfl
  · rfl

theorem stepMap_ignoresLimit : IgnoresLimit relimited (stepMap · symbol) := by
  intro limit parser
  simp only [stepMap, relimited]
  split
  · cases parser.draft.top with
    | error => rfl
    | ok call => cases call <;> rfl
  · rfl
  · split <;> rfl

theorem stepTail_ignoresLimit : IgnoresLimit relimited (stepTail · symbol) := by
  intro limit parser
  unfold stepTail
  split <;> rfl

theorem stepExactly_ignoresLimit (expected : Symbol) :
    IgnoresLimit relimited (stepExactly · expected symbol) := by
  intro limit parser
  unfold stepExactly
  split <;> rfl

theorem stepReduce_ignoresLimit : IgnoresLimit relimited stepReduce := by
  intro limit parser
  simp only [stepReduce, relimited]
  cases parser.draft.top with
  | error => rfl
  | ok call =>
    cases call with
    | vector name entry args =>
      simp only [ok_bind, pure_bind]
      cases (Draft.merged (parser.draft.setTop _)) <;> rfl
    | map name entry params =>
      simp only [ok_bind, pure_bind, reportAll_eq]
      cases (Draft.merged (parser.draft.setTop _)) <;> rfl

theorem step_ignoresLimit (state : State) : IgnoresLimit relimited (step · state symbol) := by
  cases state with
  | body => exact stepBody_ignoresLimit symbol
  | list => exact stepList_ignoresLimit symbol
  | params => exact stepParams_ignoresLimit symbol
  | vector enclosure => exact stepVector_ignoresLimit symbol enclosure
  | value => exact stepValue_ignoresLimit symbol
  | map => exact stepMap_ignoresLimit symbol
  | tail => exact stepTail_ignoresLimit symbol
  | exactly expected => exact stepExactly_ignoresLimit symbol expected
  | reduce => exact stepReduce_ignoresLimit

theorem put_ignoresLimit : IgnoresLimit relimited (put symbol) := by
  intro limit parser
  unfold put
  split
  · rfl
  · split <;> rfl
  · simp only [relimited]
    split
    · split <;> rfl
    · rename_i state rest _
      exact step_ignoresLimit symbol state limit { parser with states := rest }

end

/-- The parser of documents and its limit. -/
def limited : Limited Parser Call where
  toService := service
  limit := retryLimit
  relimited := relimited
  giveUp := giveUp
  outcome := outcome
  finish := finish

theorem limited_lawful : limited.Lawful Steady fun _ => False where
  feeds := service_feedsByOffers
  put_ignoresLimit := put_ignoresLimit
  limit_relimited _ _ := rfl
  abandoned_relimited _ _ := rfl
  outcome_relimited _ _ := rfl
  inv_relimited _ _ hsteady := ⟨hsteady.fits, hsteady.finished⟩
  put_grows symbol state hsteady := by
    obtain ⟨taken, next, hput, hmove, hfits⟩ : Moves symbol state _ := put_moves hsteady.fits
    exact .inl ⟨taken, next, hput, hmove.steady hsteady hfits, hmove.retryLimit, hmove.abandoned,
      hmove.grows⟩
  inv_giveUp := steady_giveUp
  abandoned_giveUp _ := rfl
  outcome_giveUp state :=
    ⟨state.position, state.retryLimit, by simp [limited, outcome, giveUp, report]⟩
  finish_eq := finish_of_steady

end Document.Parser

/-! ## Assembly text -/

namespace Assembly.Parser

/-- The parser with another retry limit. -/
def relimited (limit : Nat) (parser : Parser) : Parser :=
  { parser with retryLimit := limit }

section

variable (symbol : Symbol)

theorem close_relimited (limit : Nat) (parser : Parser) :
    close (parser.relimited limit) = relimited limit <$> close parser := by
  simp only [close, relimited]
  cases parser.draft.merged <;> rfl

theorem stepLine_ignoresLimit : IgnoresLimit relimited (stepLine · symbol) := by
  intro limit parser
  have hopen : (parser.relimited limit).openStatement (.label symbol.text) =
    (parser.openStatement (.label symbol.text)).relimited limit := rfl
  simp only [stepLine, hopen, close_relimited]
  repeat' split
  all_goals try rfl
  cases (parser.openStatement _).close <;> rfl

theorem stepOperand_ignoresLimit (kind : OperandKind) :
    IgnoresLimit relimited (stepOperand · kind symbol) := by
  intro limit parser
  simp only [stepOperand, relimited]
  cases parser.draft.top with
  | error =>
    repeat' split
    all_goals rfl
  | ok statement =>
    simp only [ok_bind]
    repeat' split
    all_goals rfl

theorem stepValue_ignoresLimit : IgnoresLimit relimited (stepValue · symbol) := by
  intro limit parser
  unfold stepValue
  repeat' split
  all_goals rfl

theorem stepTypeTag_ignoresLimit : IgnoresLimit relimited (stepTypeTag · symbol) := by
  intro limit parser
  simp only [stepTypeTag, relimited]
  cases parser.draft.top with
  | error => rfl
  | ok statement =>
    simp only [ok_bind]
    repeat' split
    all_goals rfl

theorem stepDirective_ignoresLimit (name : String) :
    IgnoresLimit relimited (stepDirective · name symbol) := by
  intro limit parser
  have hshift (number : Int64) : (parser.relimited limit).shiftTo number = parser.shiftTo number :=
    rfl
  simp only [stepDirective, hshift]
  repeat' split
  · rfl
  · cases parser.shiftTo _ <;> rfl
  all_goals rfl

theorem stepReduce_ignoresLimit : IgnoresLimit relimited stepReduce := by
  intro limit parser
  rw [stepReduce_bind, stepReduce_bind]
  simp only [relimited]
  cases parser.draft.top with
  | error => rfl
  | ok statement =>
    have hreported :
        ((parser.relimited limit).reportAny (completed statement).2).setOpen
            (completed statement).1 =
          ((parser.reportAny (completed statement).2).setOpen
            (completed statement).1).relimited limit := by
      cases (completed statement).2 <;> rfl
    simp only [ok_bind]
    rw [← relimited, hreported, close_relimited]
    cases close _ <;> rfl

theorem step_ignoresLimit (state : State) : IgnoresLimit relimited (step · state symbol) := by
  cases state with
  | line => exact stepLine_ignoresLimit symbol
  | operand kind => exact stepOperand_ignoresLimit symbol kind
  | value => exact stepValue_ignoresLimit symbol
  | typeTag => exact stepTypeTag_ignoresLimit symbol
  | directive name => exact stepDirective_ignoresLimit symbol name
  | reduce => exact stepReduce_ignoresLimit
  | body | lines | endOfLine | skip =>
    intro limit parser
    simp only [step, stepBody, stepLines, stepEndOfLine, stepSkip]
    split <;> rfl

theorem put_ignoresLimit : IgnoresLimit relimited (put symbol) := by
  intro limit parser
  have hshifted (line : Nat) : (parser.relimited limit).shifted line = parser.shifted line := rfl
  simp only [put, hshifted]
  split
  · split
    · cases parser.shifted _ <;> rfl
    · rfl
  · simp only [relimited]
    split
    · split <;> rfl
    · rename_i state rest _
      exact step_ignoresLimit symbol state limit { parser with states := rest }

end

/-- The parser of assembly text and its limit. -/
def limited : Limited Parser Statement where
  toService := service
  limit := retryLimit
  relimited := relimited
  giveUp := giveUp
  outcome := outcome
  finish := finish

theorem limited_lawful :
    limited.Lawful Steady fun fault => ∃ operation, fault = .overflow operation where
  feeds := service_feedsByOffers
  put_ignoresLimit := put_ignoresLimit
  limit_relimited _ _ := rfl
  abandoned_relimited _ _ := rfl
  outcome_relimited _ _ := rfl
  inv_relimited _ _ hsteady := ⟨hsteady.fits, hsteady.finished, hsteady.decls⟩
  put_grows symbol state hsteady := by
    obtain ⟨taken, next, hput, hnext⟩ | ⟨operation, -, hput⟩ := put_cases symbol hsteady
    · have hkeeps := put_keeps hput
      exact .inl ⟨taken, next, hput, hnext, hkeeps.retryLimit, hkeeps.abandoned, hkeeps.grows⟩
    · exact .inr ⟨_, hput, operation, rfl⟩
  inv_giveUp hsteady := ⟨hsteady.fits, hsteady.finished, hsteady.decls⟩
  abandoned_giveUp _ := rfl
  outcome_giveUp state :=
    ⟨state.position, state.retryLimit, by simp [limited, outcome, giveUp, report]⟩
  finish_eq := finish_of_steady

end Assembly.Parser

/-! ## Both parsers -/

/-- With a higher limit, both parsers declare and report what they do with a lower one, and
possibly more.  Only the diagnostic that a parser has given up may be missing.  The parser of
assembly text may meet a line whose number does not fit in 64 bits.  With the lower limit it fails
there too, or has given up before. -/
theorem raised_limit_continues {limit raised : Nat} (hlimit : limit ≤ raised)
    (symbols : List Symbol) (file : String) (functions : Assembly.FunctionTable) :
    (∃ first second,
      (symbols.foldlM (fun parser symbol => parser.feed symbol)
        (Document.Parser.start file limit) >>= Document.Parser.finish) = .ok first ∧
      (symbols.foldlM (fun parser symbol => parser.feed symbol)
        (Document.Parser.start file raised) >>= Document.Parser.finish) = .ok second ∧
      Continues first second) ∧
    ((∃ first second,
      (symbols.foldlM (fun parser symbol => parser.feed symbol)
        (Assembly.Parser.start file limit functions) >>= Assembly.Parser.finish) = .ok first ∧
      (symbols.foldlM (fun parser symbol => parser.feed symbol)
        (Assembly.Parser.start file raised functions) >>= Assembly.Parser.finish) = .ok second ∧
      Continues first second) ∨
    ∃ operation,
      symbols.foldlM (fun parser symbol => parser.feed symbol)
        (Assembly.Parser.start file raised functions) = .error (.overflow operation) ∧
      (symbols.foldlM (fun parser symbol => parser.feed symbol)
        (Assembly.Parser.start file limit functions) = .error (.overflow operation) ∨
      ∃ first,
        (symbols.foldlM (fun parser symbol => parser.feed symbol)
          (Assembly.Parser.start file limit functions) >>= Assembly.Parser.finish) = .ok first ∧
        ∃ diagnostic ∈ first.2, diagnostic.cause.isRetryLimit)) := by
  constructor
  · obtain hcontinues | ⟨_, hfalse, -⟩ := Document.Parser.limited_lawful.continues
      (Document.Parser.steady_start file limit) hlimit rfl rfl symbols
    · exact hcontinues
    · exact hfalse.elim
  · obtain hcontinues | ⟨_, ⟨operation, rfl⟩, hraised, hfirst⟩ :=
      Assembly.Parser.limited_lawful.continues
        (Assembly.Parser.steady_start file limit functions) hlimit rfl rfl symbols
    · exact .inl hcontinues
    · exact .inr ⟨operation, hraised, hfirst⟩

/-- A label needs three offers, and is declared only with the higher one of the limits. -/
theorem label_with_raised_limit :
    2 ≤ 3 ∧ ∃ first second,
      ([⟨.label, "a"⟩, .endOfData].foldlM (fun parser symbol => parser.feed symbol)
        (Assembly.Parser.start "a.asm" 2 {}) >>= Assembly.Parser.finish) = .ok first ∧
      ([⟨.label, "a"⟩, .endOfData].foldlM (fun parser symbol => parser.feed symbol)
        (Assembly.Parser.start "a.asm" 3 {}) >>= Assembly.Parser.finish) = .ok second ∧
      Continues first second := by
  refine ⟨by decide, ?_⟩
  obtain hcontinues | ⟨operation, hraised, -⟩ :=
    (raised_limit_continues (by decide : 2 ≤ 3) [⟨.label, "a"⟩, .endOfData] "a.asm" {}).2
  · exact hcontinues
  · cases hraised

/-- With the lower limit the parser gives up on the directive.  With the higher one it takes it, and
fails behind it. -/
theorem overflow_with_raised_limit :
    (∃ first,
      (pastLargestLine.foldlM (fun parser symbol => parser.feed symbol)
        (Assembly.Parser.start "t.asm" 2 {}) >>= Assembly.Parser.finish) = .ok first) ∧
    pastLargestLine.foldlM (fun parser symbol => parser.feed symbol)
      (Assembly.Parser.start "t.asm" 3 {}) = .error (.overflow .addition) :=
  ⟨⟨_, rfl⟩, rfl⟩

end Docpress
