import Docpress.Proofs.AssemblyOffers
import Docpress.Proofs.KeptTexts

/-!
# Parsers under any use

The compiler feeds its parsers: it offers each symbol until it is taken, and the end of the data
comes last.  The parsers do not rely on that.  Whoever offers a symbol may go on with another
one although it was declined, and the end of the data may come at any time and more than once.
No such request fails, and a parser can be finished after any of them.

* `Request`, `Service`: what can be asked of a parser, for both parsers alike.
* `Service.Reliable`: what one answer keeps, and what taking the end of the data brings about.
  `Reliable.answerAll` is the induction over the requests, and `reliable_of_put` reduces an answer
  to a single offer.
* For documents a single offer is a `Move`, so that every invariant of moves holds after all
  requests (`Document.Parser.reliable`).  For assembly text it is a step between stacks that fit
  (`Assembly.Parser.reliable`).
-/

namespace Docpress

/-! ## Requests -/

/-- What is asked of a parser. -/
inductive Request where
  /-- to look at the symbol once -/
  | put (symbol : Symbol)
  /-- to look at the symbol until it is taken, or to give up on the input -/
  | feed (symbol : Symbol)
deriving DecidableEq, Repr, Inhabited

/-- The symbol that the request is about. -/
def Request.symbol : Request → Symbol
  | put symbol => symbol
  | feed symbol => symbol

/-- A parser as those see it that use it. -/
structure Service (σ : Type) where
  put : Symbol → σ → Except Fault (Bool × σ)
  feed : Symbol → σ → Except Fault σ
  /-- whether the parser has given up on its input -/
  abandoned : σ → Bool

namespace Service

variable {σ : Type} {service : Service σ} {Inv Ended : σ → Prop} {Fails : Fault → Prop}

/-- Answers whether the symbol was taken.  A symbol that is fed is not taken just if the parser
has given up by then. -/
def answer (service : Service σ) (parser : σ) : Request → Except Fault (Bool × σ)
  | .put symbol => service.put symbol parser
  | .feed symbol => do
    let next ← service.feed symbol parser
    return (!service.abandoned next, next)

/-- Answers one request after the other.  The result has the symbols that were taken. -/
def answerAll (service : Service σ) (parser : σ) : List Request → Except Fault (List Symbol × σ)
  | [] => .ok ([], parser)
  | request :: rest => do
    let (taken, next) ← service.answer parser request
    let (symbols, last) ← answerAll service next rest
    return (if taken then request.symbol :: symbols else symbols, last)

/-- A parser that may already have ended is asked about a symbol, and taking the end of the data
ends it. -/
def Ends (Ended : σ → Prop) (symbol : Symbol) (parser : σ) (taken : Bool) (next : σ) : Prop :=
  Ended parser ∨ (taken = true ∧ symbol.kind = .endOfData) → Ended next

/-- Every answer keeps the invariant unless it fails, and with the end of the data the parser has
ended for good. -/
def Reliable (service : Service σ) (Inv Ended : σ → Prop) (Fails : Fault → Prop) : Prop :=
  ∀ parser request, Inv parser →
    (∃ taken next, service.answer parser request = .ok (taken, next) ∧ Inv next ∧
      Ends Ended request.symbol parser taken next) ∨
    ∃ fault, service.answer parser request = .error fault ∧ Fails fault

/-- What holds of single answers holds of all.  The first answer that fails is the last. -/
theorem Reliable.answerAll_cases (hreliable : service.Reliable Inv Ended Fails)
    (requests : List Request) {parser : σ} (hinv : Inv parser) :
    (∃ symbols last, service.answerAll parser requests = .ok (symbols, last) ∧ Inv last ∧
      (Ended parser ∨ (∃ symbol ∈ symbols, symbol.kind = .endOfData) → Ended last)) ∨
    ∃ (before : List Request) (request : Request) (after : List Request) (symbols : List Symbol)
      (between : σ) (fault : Fault), requests = before ++ request :: after ∧
      service.answerAll parser before = .ok (symbols, between) ∧ Inv between ∧
      service.answer between request = .error fault ∧ Fails fault ∧
      service.answerAll parser requests = .error fault := by
  induction requests generalizing parser with
  | nil => exact .inl ⟨[], parser, rfl, hinv, by simp⟩
  | cons request requests ih =>
    obtain ⟨taken, next, hanswer, hnext, hends⟩ | ⟨fault, hanswer, hfails⟩ :=
      hreliable parser request hinv
    · obtain ⟨symbols, last, hrest, hlast, hended⟩ |
          ⟨before, failing, after, symbols, between, fault, rfl, hbefore, hbetween, hfault, hfails,
            hrest⟩ := ih hnext
      · refine .inl ⟨if taken then request.symbol :: symbols else symbols, last, ?_, hlast, ?_⟩
        · rw [Service.answerAll, hanswer, ok_bind]
          simp only [hrest]
          rfl
        · intro hcause
          apply hended
          rcases hcause with hparser | ⟨symbol, hmem, hkind⟩
          · exact .inl (hends (.inl hparser))
          · cases taken with
            | false => exact .inr ⟨symbol, hmem, hkind⟩
            | true =>
              rcases List.mem_cons.1 hmem with rfl | hmem
              · exact .inl (hends (.inr ⟨rfl, hkind⟩))
              · exact .inr ⟨symbol, hmem, hkind⟩
      · refine .inr ⟨request :: before, failing, after,
          if taken then request.symbol :: symbols else symbols, between, fault, rfl, ?_, hbetween,
          hfault, hfails, ?_⟩
        · rw [Service.answerAll, hanswer, ok_bind]
          simp only [hbefore]
          rfl
        · rw [Service.answerAll, hanswer, ok_bind]
          simp only [hrest]
          rfl
    · refine .inr ⟨[], request, requests, [], parser, fault, rfl, rfl, hinv, hanswer, hfails, ?_⟩
      rw [Service.answerAll, hanswer]
      rfl

theorem answerAll_of_error {before : List Request} {request : Request} {parser between : σ}
    {symbols : List Symbol} {fault : Fault}
    (hbefore : service.answerAll parser before = .ok (symbols, between))
    (hfault : service.answer between request = .error fault) (after : List Request) :
    service.answerAll parser (before ++ request :: after) = .error fault := by
  induction before generalizing parser symbols with
  | nil =>
    cases hbefore
    rw [List.nil_append, Service.answerAll, hfault]
    rfl
  | cons first before ih =>
    obtain ⟨⟨taken, next⟩, hanswer, hrest⟩ := exists_of_bind_ok hbefore
    obtain ⟨⟨more, last⟩, hmore, hlast⟩ := exists_of_bind_ok hrest
    cases hlast
    rw [List.cons_append, Service.answerAll, hanswer, ok_bind]
    simp only [ih hmore]
    rfl

/-- A parser of which no answer fails answers everything. -/
theorem Reliable.answerAll (hreliable : service.Reliable Inv Ended fun _ => False)
    (requests : List Request) {parser : σ} (hinv : Inv parser) :
    ∃ symbols last, service.answerAll parser requests = .ok (symbols, last) ∧ Inv last ∧
      (Ended parser ∨ (∃ symbol ∈ symbols, symbol.kind = .endOfData) → Ended last) := by
  obtain hanswered | ⟨_, _, _, _, _, _, _, _, _, _, hfails, _⟩ :=
    hreliable.answerAll_cases requests hinv
  · exact hanswered
  · exact hfails.elim

/-- The symbol is fed by offering it, up to a limit.  A parser that does not take it then gives
up. -/
def FeedsByOffers (service : Service σ) (limit : σ → Nat) (giveUp : σ → σ) : Prop :=
  ∀ symbol parser, service.feed symbol parser = (do
    if service.abandoned parser then return parser
    let (taken, next) ← offer (limit parser) (service.put symbol) parser
    if taken then return next
    return giveUp next)

/-- A parser is reliable if single offers are, and giving up changes nothing that matters. -/
theorem reliable_of_put {limit : σ → Nat} {giveUp : σ → σ}
    (hput : ∀ symbol parser, Inv parser →
      (∃ taken next, service.put symbol parser = .ok (taken, next) ∧ Inv next ∧
        Ends Ended symbol parser taken next) ∨
      ∃ fault, service.put symbol parser = .error fault ∧ Fails fault)
    (hfeeds : service.FeedsByOffers limit giveUp)
    (hgiveUp : ∀ parser, Inv parser → Inv (giveUp parser) ∧ (Ended parser → Ended (giveUp parser)) ∧
      service.abandoned (giveUp parser) = true) : service.Reliable Inv Ended Fails := by
  intro parser request hinv
  cases request with
  | put symbol => exact hput symbol parser hinv
  | feed symbol =>
    simp only [answer, hfeeds symbol parser]
    split
    · rename_i habandoned
      refine .inl ⟨_, parser, rfl, hinv, fun hcause => ?_⟩
      simpa [habandoned] using hcause
    · -- the parser may have ended before, which every offer keeps
      have hattempt : ∀ between, Inv between ∧ (Ended parser → Ended between) →
          (∃ next, service.put symbol between = .ok (true, next) ∧
            Inv next ∧ (Ended parser ∨ symbol.kind = .endOfData → Ended next)) ∨
          (∃ next, service.put symbol between = .ok (false, next) ∧
            Inv next ∧ (Ended parser → Ended next)) ∨
          ∃ fault, service.put symbol between = .error fault ∧ Fails fault := by
        rintro between ⟨hbetween, hbefore⟩
        obtain ⟨taken, next, hnext, hkept, hends⟩ | hfault := hput symbol between hbetween
        · cases taken with
          | true =>
            refine .inl ⟨next, hnext, hkept, fun hcause => hends ?_⟩
            exact hcause.imp hbefore fun hkind => ⟨rfl, hkind⟩
          | false =>
            exact .inr (.inl ⟨next, hnext, hkept, fun hparser => hends (.inl (hbefore hparser))⟩)
        · exact .inr (.inr hfault)
      obtain ⟨next, hoffer, hnext, hended⟩ | ⟨next, hoffer, hnext, hbefore⟩ |
          ⟨fault, hoffer, hfails⟩ := offer_cases hattempt (limit parser) ⟨hinv, id⟩
      · rw [hoffer]
        exact .inl ⟨_, next, rfl, hnext, fun hcause => hended (hcause.imp_right And.right)⟩
      · rw [hoffer]
        obtain ⟨hkept, hended, habandoned⟩ := hgiveUp next hnext
        refine .inl ⟨_, giveUp next, rfl, hkept, fun hcause => ?_⟩
        rcases hcause with hparser | ⟨htaken, _⟩
        · exact hended (hbefore hparser)
        · simp [habandoned] at htaken
      · rw [hoffer]
        exact .inr ⟨fault, rfl, hfails⟩

end Service

/-! ## Documents -/

namespace Document.Parser

/-- The parser of documents, as it is used. -/
def service : Service Parser := ⟨put, feed, abandoned⟩

theorem service_feedsByOffers : service.FeedsByOffers retryLimit giveUp := fun _ _ => rfl

/-- A document that is finished remains so. -/
theorem Move.finished_of_finished {symbol : Symbol} {parser next : Parser} {taken : Bool}
    (hmove : Move symbol parser taken next) (hfinished : parser.finished = true) :
    next.finished = true := by
  cases hmove <;> simp [hfinished]

/-- Taking the end of the data finishes the document. -/
theorem Move.ends {symbol : Symbol} {parser next : Parser} {taken : Bool}
    (hmove : Move symbol parser taken next) (hsteady : Steady parser) :
    Service.Ends (fun parser => parser.finished = true) symbol parser taken next := by
  intro hcause
  cases hfinished : parser.finished with
  | true => exact hmove.finished_of_finished hfinished
  | false =>
    rw [hmove.finished hsteady hfinished]
    rcases hcause with hbefore | ⟨htaken, hkind⟩
    · rw [hfinished] at hbefore
      cases hbefore
    · simp [htaken, hkind]

/-- What every move and giving up preserve, all answers preserve. -/
theorem reliable (Inv : Parser → Prop)
    (hmoves : ∀ {symbol parser taken next}, Steady parser → Inv parser →
      Move symbol parser taken next → Inv next)
    (hgiveUp : ∀ {parser}, Inv parser → Inv parser.giveUp) :
    service.Reliable (fun parser => Steady parser ∧ Inv parser)
      (fun parser => parser.finished = true) fun _ => False := by
  refine Service.reliable_of_put ?_ service_feedsByOffers ?_
  · rintro symbol parser ⟨hsteady, hinv⟩
    obtain ⟨taken, next, hput, hmove, hfits⟩ : Moves symbol parser _ := put_moves hsteady.fits
    refine .inl ⟨taken, next, hput, ⟨hmove.steady hsteady hfits, hmoves hsteady hinv hmove⟩, ?_⟩
    exact hmove.ends hsteady
  · rintro parser ⟨hsteady, hinv⟩
    exact ⟨⟨steady_giveUp hsteady, hgiveUp hinv⟩, id, rfl⟩

end Document.Parser

/-! ## Assembly text -/

namespace Assembly.Parser

/-- The parser of assembly text, as it is used. -/
def service : Service Parser := ⟨put, feed, abandoned⟩

/-- The parser that has been given up on. -/
def giveUp (parser : Parser) : Parser :=
  { parser.report (.retryLimit parser.retryLimit) with abandoned := true }

theorem service_feedsByOffers : service.FeedsByOffers retryLimit giveUp := fun _ _ => rfl

section

variable {symbol : Symbol} {parser next : Parser} {taken : Bool}

/-- Of the states only the lowest takes the end of the data. -/
theorem state_of_step_end {state : State} (hend : symbol.kind = .endOfData)
    (hstep : step parser state symbol = .ok (true, next)) :
    state = .body ∧ next.states = parser.states := by
  cases state with
  | body =>
    rw [step, stepBody, if_pos hend] at hstep
    cases hstep
    exact ⟨rfl, rfl⟩
  | lines => simp [step, stepLines, hend] at hstep
  | line => simp [step, stepLine, hend, pure, Except.pure] at hstep
  | operand kind => cases kind <;> simp [step, stepOperand, hend, pure, Except.pure] at hstep
  | value => simp [step, stepValue, constant?, hend] at hstep
  | typeTag =>
    obtain ⟨top, _, hnext⟩ := exists_of_bind_ok hstep
    split at hnext
    · simp [hend, pure, Except.pure] at hnext
    · cases hnext
  | directive name => simp [step, stepDirective, hend, pure, Except.pure] at hstep
  | endOfLine => simp [step, stepEndOfLine, hend] at hstep
  | skip => simp [step, stepSkip, hend] at hstep
  | reduce =>
    obtain ⟨top, _, hrest⟩ := exists_of_bind_ok hstep
    obtain ⟨closed, _, hnext⟩ := exists_of_bind_ok hrest
    cases hnext

/-- Without states the parser only ever reports. -/
theorem states_of_put_done (hstates : parser.states = [])
    (hput : put symbol parser = .ok (taken, next)) : next.states = [] := by
  unfold put at hput
  split at hput
  · split at hput
    · obtain ⟨line, -, hnext⟩ := exists_of_bind_ok hput
      cases hnext
      exact hstates
    · cases hput
      exact hstates
  · split at hput
    · split at hput <;> cases hput <;> exact hstates
    · rename_i hcons
      rw [hstates] at hcons
      cases hcons

/-- Taking the end of the data leaves no state. -/
theorem ends_of_put (hsteady : Steady parser) (hput : put symbol parser = .ok (taken, next)) :
    Service.Ends (fun parser => parser.states = []) symbol parser taken next := by
  rintro (hstates | ⟨rfl, hend⟩)
  · exact states_of_put_done hstates hput
  · cases hstates : parser.states with
    | nil => exact states_of_put_done hstates hput
    | cons state rest =>
      have hstep : step { parser with states := rest } state symbol = .ok (true, next) := by
        rw [← hput, put, hstates, hend]
      obtain ⟨rfl, hnext⟩ := state_of_step_end hend hstep
      have hfits := hsteady.fits
      rw [hstates] at hfits
      generalize parser.draft.stack = stack at hfits
      cases hfits
      exact hnext

end

/-- Only an overflow is a fault. -/
theorem reliable : service.Reliable Steady (fun parser => parser.states = [])
    fun fault => ∃ operation, fault = .overflow operation := by
  refine Service.reliable_of_put ?_ service_feedsByOffers ?_
  · intro symbol parser hsteady
    obtain ⟨taken, next, hput, hnext⟩ | ⟨operation, -, hput⟩ := put_cases symbol hsteady
    · exact .inl ⟨taken, next, hput, hnext, ends_of_put hsteady hput⟩
    · exact .inr ⟨_, hput, operation, rfl⟩
  · intro parser hsteady
    exact ⟨⟨hsteady.fits, hsteady.finished, hsteady.decls⟩, id, rfl⟩

/-- Asked one request after the other, the parser comes to one for which a number does not fit. -/
def OverflowsAt (parser : Parser) (requests : List Request) (operation : Arithmetic) : Prop :=
  ∃ (before : List Request) (request : Request) (after : List Request) (taken : List Symbol)
    (between : Parser), requests = before ++ request :: after ∧
    service.answerAll parser before = .ok (taken, between) ∧
    (∀ symbol, request = .feed symbol → between.abandoned = false) ∧
    Overflow between request.symbol operation

/-- An answer fails just where a number does not fit. -/
theorem overflow_of_answer {parser : Parser} {request : Request} {operation : Arithmetic}
    (hsteady : Steady parser)
    (hanswer : service.answer parser request = .error (.overflow operation)) :
    (∀ symbol, request = .feed symbol → parser.abandoned = false) ∧
      Overflow parser request.symbol operation := by
  cases request with
  | put symbol =>
    refine ⟨by simp, ?_⟩
    have hput : put symbol parser = .error (.overflow operation) := hanswer
    obtain ⟨_, _, hresult, -⟩ | ⟨other, hoverflow, hresult⟩ := put_cases symbol hsteady
    · rw [hput] at hresult
      cases hresult
    · rw [hput] at hresult
      cases hresult
      exact hoverflow
  | feed symbol =>
    obtain ⟨next, hfeed, -⟩ | ⟨other, hopen, hoverflow, hfeed⟩ := feed_cases symbol hsteady
    · rw [Service.answer, show service.feed symbol parser = .ok next from hfeed] at hanswer
      cases hanswer
    · rw [Service.answer, show service.feed symbol parser = _ from hfeed] at hanswer
      cases hanswer
      exact ⟨fun _ _ => hopen, hoverflow⟩

theorem answer_of_overflow {parser : Parser} {request : Request} {operation : Arithmetic}
    (hopen : ∀ symbol, request = .feed symbol → parser.abandoned = false)
    (hoverflow : Overflow parser request.symbol operation) :
    service.answer parser request = .error (.overflow operation) := by
  cases request with
  | put symbol => exact put_overflow hoverflow
  | feed symbol =>
    rw [Service.answer, show service.feed symbol parser = _ from
      feed_overflow (hopen symbol rfl) hoverflow]
    rfl

/-- Without states nothing is open. -/
theorem stack_of_states_nil {parser : Parser} (hsteady : Steady parser)
    (hstates : parser.states = []) : parser.draft.stack = [] := by
  have hfits := hsteady.fits
  rw [hstates] at hfits
  generalize parser.draft.stack = stack at hfits
  cases hfits
  rfl

end Assembly.Parser

/-- The directive that gives the next line the largest number, and the mark of the line behind
that one. -/
def pastLargestLine : List Symbol :=
  [⟨.directive, "line"⟩, ⟨.number, "9223372036854775807"⟩, ⟨.lineMark, "3"⟩]

/-! ## Both parsers -/

/-- Whatever is asked of the two parsers, in whatever order, they answer, and they can be finished
afterwards.  Once the end of the data was taken, no construct is open.  The parser of assembly text
fails just where it is to compute the number of a line that does not fit in 64 bits. -/
theorem parsers_answer_all (requests : List Request) (file : String) (retryLimit : Nat)
    (functions : Assembly.FunctionTable) :
    (∃ taken parser result,
      Document.Parser.service.answerAll (.start file retryLimit) requests = .ok (taken, parser) ∧
      parser.finish = .ok result ∧
      ((∃ symbol ∈ taken, symbol.kind = .endOfData) → parser.draft.stack = [])) ∧
    ((∃ taken parser result,
      Assembly.Parser.service.answerAll (.start file retryLimit functions) requests =
        .ok (taken, parser) ∧
      parser.finish = .ok result ∧
      ((∃ symbol ∈ taken, symbol.kind = .endOfData) → parser.draft.stack = [])) ∨
    ∃ operation,
      Assembly.Parser.OverflowsAt (.start file retryLimit functions) requests operation) ∧
    ∀ operation,
      Assembly.Parser.OverflowsAt (.start file retryLimit functions) requests operation →
        Assembly.Parser.service.answerAll (.start file retryLimit functions) requests =
          .error (.overflow operation) := by
  refine ⟨?_, ?_, fun operation hoverflows => ?_⟩
  · have hreliable := Document.Parser.reliable (fun _ => True) (fun _ _ _ => trivial) id
    obtain ⟨taken, parser, hanswer, ⟨hsteady, -⟩, hended⟩ := hreliable.answerAll requests
      ⟨Document.Parser.steady_start file retryLimit, trivial⟩
    refine ⟨taken, parser, _, hanswer, Document.Parser.finish_of_steady hsteady, fun htaken => ?_⟩
    exact Document.Parser.stack_of_finished hsteady (hended (.inr htaken))
  · obtain ⟨taken, parser, hanswer, hsteady, hended⟩ |
        ⟨before, request, after, taken, parser, _, hrequests, hbefore, hsteady, hfault,
          ⟨operation, rfl⟩, -⟩ :=
      Assembly.Parser.reliable.answerAll_cases requests
        (Assembly.Parser.steady_start file retryLimit functions)
    · refine .inl ⟨taken, parser, _, hanswer, Assembly.Parser.finish_of_steady hsteady,
        fun htaken => ?_⟩
      exact Assembly.Parser.stack_of_states_nil hsteady (hended (.inr htaken))
    · exact .inr ⟨operation, before, request, after, taken, parser, hrequests, hbefore,
        Assembly.Parser.overflow_of_answer hsteady hfault⟩
  · obtain ⟨before, request, after, taken, parser, rfl, hbefore, hopen, hoverflow⟩ := hoverflows
    exact Service.answerAll_of_error hbefore
      (Assembly.Parser.answer_of_overflow hopen hoverflow) after

/-- The number of the second line behind the directive does not fit. -/
theorem answerAll_past_largest_line :
    Assembly.Parser.service.answerAll (.start "t.asm" 1024 {}) (pastLargestLine.map .feed) =
      .error (.overflow .addition) :=
  rfl

end Docpress
