import Docpress.Assembly.Program
import Docpress.Proofs.AssemblyOffers
import Docpress.Proofs.LineNumbering
import Docpress.Proofs.Patience
import Docpress.Proofs.Requests
import Docpress.Proofs.SymbolForms

/-!
# How many offers a symbol needs

A parser that declines a symbol is offered it again, up to its retry limit.  A symbol that is
declined forever would be lost whatever the limit is.  There is no such symbol in assembly text,
where six offers are enough for any symbol at all, and none that a document is lexed into.

* In documents every state waits for something that lies beneath it, so that the number of offers
  depends on how many states there are.  `rank` bounds the offers that are declined: `Move.rank_lt`
  says that a declined one lowers it, and `rank_le_of_fits` that it hardly exceeds the number of
  states.  Labels, instructions and type tags are left out, since a paragraph declines them
  forever.
* In assembly text no more than six states ever lie above each other.  `Persists` is what keeps the
  parser from giving up.
-/

namespace Docpress

/-- Whether documents have symbols of the kind. -/
def SymbolKind.isOfDocuments : SymbolKind → Bool
  | label | instruction | typeTag => false
  | _ => true

/-! ## Documents -/

namespace Document

theorem WellFormed.isOfDocuments {symbol : Symbol} (hform : WellFormed symbol) :
    symbol.kind.isOfDocuments = true := by
  unfold WellFormed at hform
  unfold SymbolKind.isOfDocuments
  split at hform <;> simp_all

/-- What a text is lexed into, at the start of a document or later, are symbols of documents. -/
theorem isOfDocuments_of_lex {start : Scanner} (hstart : start.mode = .start) {text : String}
    {items : List Item} (hlex : Docpress.lex Scanner.scan start text = .ok items)
    {symbol : Symbol} (hmem : .symbol symbol ∈ items) : symbol.kind.isOfDocuments = true := by
  by_cases hmark : symbol.kind = .lineMark
  · rw [hmark]
    rfl
  by_cases hdirective : symbol.kind = .directive
  · rw [hdirective]
    rfl
  · exact (wellFormed_of_lex hstart hlex hmem hdirective hmark).isOfDocuments

namespace Parser

/-- How often the states decline the symbol at most. -/
def rank (symbol : Symbol) : List State → Nat
  | [] => 0
  | state :: rest =>
    match state with
    | .body => if symbol.kind = .endOfData then 0 else 3
    | .list => if symbol.kind = .endOfData then rank symbol rest + 1 else 2
    | .params => rank symbol rest + 2
    | .vector enclosure => if closes enclosure symbol then rank symbol rest + 1 else 1
    | .value =>
      -- only the value of a parameter may be left out
      if (isContent symbol.kind ∨ symbol.kind = .directive) ∧
        ¬(isOmission symbol ∧ rest.head? = some .tail) then 0
      else rank symbol rest + 1
    | .map | .tail | .exactly _ | .reduce => rank symbol rest + 1

/-- Whether symbols of the kind have a place in documents: values, and what separates them. -/
def Placed (kind : SymbolKind) : Prop :=
  isContent kind = true ∨ kind = .directive ∨ kind = .newline ∨ kind = .endOfData

section

variable {symbol : Symbol} {parser next : Parser} {states below : List State}
  {stack : List (Call × Position)}

attribute [local simp] rank

/-- Arguments without parentheses are present values. -/
theorem isPresent_of_startsValue (hstarts : startsValue symbol = true) :
    (isContent symbol.kind = true ∨ symbol.kind = .directive) ∧ isOmission symbol = false := by
  unfold startsValue at hstarts
  split at hstarts
  all_goals try
    rename_i hkind
    have hpunct : symbol.kind ≠ .punct := by simp [hkind]
    simp [hkind, isContent, isOmission, Symbol.isPunct_of_kind hpunct]
  rw [Symbol.isPunct, decide_eq_true_eq] at hstarts
  subst hstarts
  exact ⟨.inl rfl, by decide⟩

/-- What neither closes an enclosure nor is a break in it is a value. -/
theorem isPresent_of_closes {enclosure : Enclosure} (hplaced : Placed symbol.kind)
    (hcloses : closes enclosure symbol = false) (hbreak : symbol.kind ≠ .newline) :
    isContent symbol.kind = true ∨ symbol.kind = .directive := by
  rcases hplaced with hcontent | hkind | hkind | hkind
  · exact .inl hcontent
  · exact .inr hkind
  · exact absurd hkind hbreak
  · simp [closes, hkind] at hcloses

theorem closes_paragraph (hend : symbol.kind ≠ .endOfData) (hbreak : symbol.kind ≠ .newline)
    (hblock : symbol.kind = .directive → isBlock symbol.text = false) :
    closes .paragraph symbol = false := by
  unfold closes
  split <;> simp_all

/-- A declined offer lowers the rank. -/
theorem Move.rank_lt (hmove : Move symbol parser false next) (hplaced : Placed symbol.kind)
    (hfits : Fits parser.states parser.draft.stack) :
    rank symbol next.states < rank symbol parser.states := by
  cases hmove with
  | blocks hstates hkind => simp [hstates, hkind]
  | noBlock hstates hkind =>
    rw [hstates] at hfits
    obtain ⟨rfl, -⟩ := hfits.of_list
    simp [hstates, hkind]
  | paragraph hstates hend hblock htaken =>
    have hopen := closes_paragraph hend (by simpa using htaken) hblock
    simp [hstates, hend, hopen]
  | noParameters hstates => simp [hstates]
  | oneArgument hstates _ _ hstarts =>
    obtain ⟨hpresent, hgiven⟩ := isPresent_of_startsValue hstarts
    simp [hstates, hpresent, hgiven]
  | noArgument hstates => simp [hstates]
  | closeVector hstates hcloses => simp [hstates, hcloses]
  | argument hstates hcloses hkind =>
    have hpresent := isPresent_of_closes hplaced hcloses hkind
    simp [hstates, hcloses, hpresent]
  | omitted hstates hstack homission =>
    rw [hstates, hstack] at hfits
    obtain ⟨_, _, _, _, hcall, hhosts, -⟩ := hfits.of_value
    cases hcall
    cases hhosts
    simp [hstates, homission]
  | noValue hstates hcontent hkind => simp [hstates, hcontent, hkind]
  | noName hstates => simp [hstates]
  | noComma hstates => simp [hstates]
  | unexpected hstates => simp [hstates]
  | declare hstates => simp [hstates]
  | attach hstates => simp [hstates]

/-! ### The number of states -/

theorem rank_le_of_closes (hcloses : Closes states below)
    (hbelow : rank symbol below ≤ below.length) : rank symbol states ≤ states.length := by
  cases hcloses <;> simp [hbelow]

theorem rank_vector_le (enclosure : Enclosure) (hrest : rank symbol states ≤ states.length) :
    rank symbol (.vector enclosure :: states) ≤ states.length + 1 := by
  simp only [rank]
  split <;> omega

theorem rank_value_le (hrest : rank symbol states ≤ states.length) :
    rank symbol (.value :: states) ≤ states.length + 1 := by
  simp only [rank]
  split <;> omega

theorem rank_le_of_hosts {call : Call} (hhosts : Hosts call states below)
    (hbelow : rank symbol below ≤ below.length) : rank symbol states ≤ states.length := by
  cases hhosts with
  | vector hcloses => exact rank_le_of_closes hcloses hbelow
  | vectorMore enclosure hcloses =>
    exact rank_vector_le enclosure (rank_le_of_closes hcloses hbelow)
  | map hcloses =>
    have hrest := rank_le_of_closes hcloses hbelow
    simpa using hrest

theorem rank_le_of_surrounds (hsurrounds : Surrounds states stack) :
    rank symbol states ≤ states.length := by
  induction hsurrounds with
  | document => by_cases hend : symbol.kind = .endOfData <;> simp [hend]
  | call hhosts _ ih => exact rank_le_of_hosts hhosts ih

theorem rank_le_of_completes {call : Call} (hcompletes : Completes call states below)
    (hbelow : rank symbol below ≤ below.length) : rank symbol states ≤ states.length + 1 := by
  cases hcompletes with
  | params => simp [hbelow]
  | closing _ hcloses => exact Nat.le_succ_of_le (rank_le_of_closes hcloses hbelow)
  | vector enclosure hcloses =>
    exact Nat.le_succ_of_le (rank_vector_le enclosure (rank_le_of_closes hcloses hbelow))
  | value hhosts => exact Nat.le_succ_of_le (rank_value_le (rank_le_of_hosts hhosts hbelow))
  | named c hhosts =>
    have hvalue := rank_value_le (rank_le_of_hosts hhosts hbelow)
    exact Nat.le_succ_of_le (Nat.succ_le_succ hvalue)
  | map hcloses => exact Nat.le_succ_of_le (Nat.succ_le_succ (rank_le_of_closes hcloses hbelow))
  | tail hcloses => exact Nat.le_succ_of_le (Nat.succ_le_succ (rank_le_of_closes hcloses hbelow))

/-- The states decline a symbol at most twice more than there are states. -/
theorem rank_le_of_fits (hfits : Fits states stack) : rank symbol states ≤ states.length + 2 := by
  cases hfits with
  | done => simp
  | body => by_cases hend : symbol.kind = .endOfData <;> simp [hend]
  | list => by_cases hend : symbol.kind = .endOfData <;> simp [hend]
  | call hcompletes hbelow =>
    exact Nat.le_succ_of_le (rank_le_of_completes hcompletes (rank_le_of_surrounds hbelow))

/-! ### Offers -/

theorem placed_or_mark (hkind : symbol.kind.isOfDocuments = true) :
    Placed symbol.kind ∨ symbol.kind = .fileMark ∨ symbol.kind = .lineMark := by
  generalize symbol.kind = kind at *
  cases kind <;> simp_all [SymbolKind.isOfDocuments, Placed, isContent]

/-- As many offers as there are states, and three more, are enough. -/
theorem offer_takes (hsteady : Steady parser) (hkind : symbol.kind.isOfDocuments = true)
    {limit : Nat} (hlimit : parser.states.length + 3 ≤ limit) :
    ∃ next, offer limit (put symbol) parser = .ok (true, next) ∧
      Grows parser.outcome next.outcome := by
  rcases placed_or_mark hkind with hplaced | hmark
  · have hattempt (state : Parser) (hstate : Steady state ∧ Grows parser.outcome state.outcome) :
        ∃ taken next, put symbol state = .ok (taken, next) ∧ Grows parser.outcome next.outcome ∧
          (taken = false → (Steady next ∧ Grows parser.outcome next.outcome) ∧
            rank symbol next.states < rank symbol state.states) := by
      obtain ⟨hstate, hgrows⟩ := hstate
      obtain ⟨taken, next, hput, hmove, hfits⟩ : Moves symbol state _ := put_moves hstate.fits
      have hnext := hgrows.trans hmove.grows
      refine ⟨taken, next, hput, hnext, ?_⟩
      rintro rfl
      exact ⟨⟨hmove.steady hstate hfits, hnext⟩, hmove.rank_lt hplaced hstate.fits⟩
    have hrank : rank symbol parser.states < limit :=
      Nat.lt_of_lt_of_le (Nat.lt_succ_of_le (rank_le_of_fits hsteady.fits)) hlimit
    obtain ⟨next, -, hoffer, hgrows⟩ := exists_takes_of_rank
      (fun state : Parser => rank symbol state.states) hattempt ⟨hsteady, .refl _⟩ hrank
    exact ⟨next, hoffer, hgrows⟩
  · obtain ⟨position, hput⟩ := put_mark hmark parser
    exact ⟨_, offer_of_taken limit hput, .refl _⟩

/-- Feeding a symbol adds diagnostics, and gives up only where there are too many states. -/
theorem feed_reports (hsteady : Steady parser) (hkind : symbol.kind.isOfDocuments = true) :
    ∃ next added, feed symbol parser = .ok next ∧
      next.diagnostics.toList = parser.diagnostics.toList ++ added ∧
      ((∃ diagnostic ∈ added, diagnostic.cause.isRetryLimit = true) →
        parser.retryLimit < parser.states.length + 3) := by
  cases habandoned : parser.abandoned with
  | true => exact ⟨parser, [], feed_of_abandoned habandoned, by simp, by simp⟩
  | false =>
    by_cases hlimit : parser.states.length + 3 ≤ parser.retryLimit
    · obtain ⟨next, hoffer, hgrows⟩ := offer_takes hsteady hkind hlimit
      obtain ⟨added, hadded, hmistakes⟩ := hgrows.diagnostics
      refine ⟨next, added, ?_, hadded, ?_⟩
      · rw [feed, habandoned, hoffer]
        rfl
      · rintro ⟨diagnostic, hmem, hcause⟩
        rw [Cause.isRetryLimit_of_isMistake (hmistakes diagnostic hmem)] at hcause
        cases hcause
    · obtain ⟨taken, last, hfeed, hseries, -⟩ := feed_series symbol hsteady habandoned
      have hgrows : Grows parser.outcome last.outcome :=
        hseries.preserves (fun state => Grows parser.outcome state.outcome)
          (fun hgrows hmove => hgrows.trans hmove.grows) (.refl _)
      obtain ⟨added, hadded, -⟩ := hgrows.diagnostics
      have hadded : last.diagnostics.toList = parser.diagnostics.toList ++ added := hadded
      cases taken with
      | true => exact ⟨last, added, hfeed, hadded, fun _ => by omega⟩
      | false =>
        refine ⟨last.giveUp, added ++ [⟨last.position, .retryLimit last.retryLimit⟩], hfeed, ?_,
          fun _ => by omega⟩
        simp [giveUp, report, hadded]

end

/-- After whatever requests, a symbol that documents have is taken within three more offers than
the parser has states.  Feeding it makes the parser give up only if the states are too many for the
retry limit.  Every text is lexed into such symbols, at the start of a document or later. -/
theorem document_symbols_taken_within_depth (file : String) (retryLimit : Nat)
    (requests : List Request) :
    (∀ start ∈ [Scanner.initial, .continuation], ∀ text, ∃ items,
      Docpress.lex Scanner.scan start text = .ok items ∧
      ∀ symbol ∈ symbols items, symbol.kind.isOfDocuments = true) ∧
    ∃ taken parser, service.answerAll (.start file retryLimit) requests = .ok (taken, parser) ∧
      ∀ symbol : Symbol, symbol.kind.isOfDocuments = true →
        (∃ next, offer (parser.states.length + 3) (put symbol) parser = .ok (true, next)) ∧
        ∃ next added, feed symbol parser = .ok next ∧
          next.diagnostics.toList = parser.diagnostics.toList ++ added ∧
          ((∃ diagnostic ∈ added, diagnostic.cause.isRetryLimit = true) →
            retryLimit < parser.states.length + 3) := by
  constructor
  · intro start hstart text
    have hmode : start.mode = .start := by
      rcases List.mem_pair.1 hstart with rfl | rfl <;> rfl
    obtain ⟨items, _, hlex, -⟩ := lex_eq_formed hmode text
    refine ⟨items, hlex, fun symbol hmem => ?_⟩
    exact isOfDocuments_of_lex hmode hlex (mem_symbols.1 hmem)
  · have hreliable := reliable (fun parser => parser.retryLimit = retryLimit)
      (fun _ hlimit hmove => hmove.retryLimit.trans hlimit) id
    obtain ⟨taken, parser, hanswer, ⟨hsteady, rfl⟩, -⟩ :=
      hreliable.answerAll requests ⟨steady_start file retryLimit, rfl⟩
    refine ⟨taken, parser, hanswer, fun symbol hkind => ⟨?_, feed_reports hsteady hkind⟩⟩
    obtain ⟨next, hoffer, -⟩ := offer_takes hsteady hkind (Nat.le_refl _)
    exact ⟨next, hoffer⟩

/-- Three more offers than there are states are needed after an end of the data that was
declined. -/
theorem text_taken_behind_declined_end :
    SymbolKind.text.isOfDocuments = true ∧
    ∃ taken parser, service.answerAll (.start "a.doc" 3) [.put .endOfData] = .ok (taken, parser) ∧
      ∃ next, offer (parser.states.length + 3) (put ⟨.text, "a"⟩) parser = .ok (true, next) := by
  obtain ⟨-, taken, parser, hanswer, htakes⟩ :=
    document_symbols_taken_within_depth "a.doc" 3 [.put .endOfData]
  exact ⟨rfl, taken, parser, hanswer, (htakes ⟨.text, "a"⟩ rfl).1⟩

example : (do
    let (_, parser) ← service.answerAll (.start "a.doc" 3) [.put .endOfData]
    let (taken, _) ← offer 3 (put ⟨.text, "a"⟩) parser
    return (parser.states, taken)) = .ok ([.body], false) := by
  decide +kernel

end Parser
end Document

/-! ## Assembly text -/

namespace Assembly

theorem isRetryLimit_collectLabels (offset : Nat) (labels : Labels) (decls : List (Decl Statement)) :
    ∀ diagnostic ∈ (collectLabels offset labels decls).2,
      diagnostic.cause.isRetryLimit = false := by
  fun_induction collectLabels offset labels decls with
  | case1 => simp
  | case2 offset labels decl rest next name hname hdefined labels' diagnostics hrest ih =>
    simp only [hrest] at ih
    exact List.forall_mem_cons.2 ⟨rfl, ih⟩
  | case3 _ _ _ _ _ _ _ _ ih => exact ih
  | case4 _ _ _ _ _ _ ih => exact ih

theorem isRetryLimit_unresolved (labels : Labels) (decl : Decl Statement) :
    ∀ diagnostic ∈ unresolved labels decl, diagnostic.cause.isRetryLimit = false := by
  unfold unresolved
  split
  · split <;> simp [Cause.isRetryLimit]
  · simp

/-- The layout of a program reports only what is wrong with its labels. -/
theorem Program.isRetryLimit_ofStatements (decls : List (Decl Statement))
    {diagnostics : List Diagnostic}
    (hdiagnostics : ∀ diagnostic ∈ diagnostics, diagnostic.cause.isRetryLimit = false) :
    ∀ diagnostic ∈ (ofStatements decls diagnostics).diagnostics,
      diagnostic.cause.isRetryLimit = false := by
  simp only [ofStatements, objectsOf, labelsOf, List.forall_mem_append]
  refine ⟨⟨hdiagnostics, isRetryLimit_collectLabels 0 {} decls⟩, fun diagnostic hmem => ?_⟩
  obtain ⟨decl, -, hmem⟩ := List.mem_flatMap.1 hmem
  exact isRetryLimit_unresolved _ decl diagnostic hmem

namespace Parser

/-- The parser has not given up, and its limit is high enough for it never to do so. -/
structure Persists (parser : Parser) : Prop where
  ready : Ready parser
  limit : 6 ≤ parser.retryLimit
  reports : ∀ diagnostic ∈ parser.diagnostics.toList, diagnostic.cause.isRetryLimit = false

section

variable {parser next : Parser}

theorem persists_start (file : String) {retryLimit : Nat} (functions : FunctionTable)
    (hlimit : 6 ≤ retryLimit) : Persists (start file retryLimit functions) :=
  ⟨ready_start file retryLimit functions, hlimit, by simp [start]⟩

theorem Persists.of_keeps (hpersists : Persists parser) (hkeeps : Keeps parser next)
    (hsteady : Steady next) : Persists next := by
  obtain ⟨added, hadded, hmistakes⟩ := hkeeps.grows.diagnostics
  refine ⟨⟨hsteady, hkeeps.abandoned.trans hpersists.ready.notAbandoned⟩, ?_, ?_⟩
  · rw [hkeeps.retryLimit]
    exact hpersists.limit
  · rw [show next.diagnostics.toList = parser.diagnostics.toList ++ added from hadded]
    refine List.forall_mem_append.2 ⟨hpersists.reports, fun diagnostic hmem => ?_⟩
    exact Cause.isRetryLimit_of_isMistake (hmistakes diagnostic hmem)

theorem Persists.of_put {symbol : Symbol} {taken : Bool} (hpersists : Persists parser)
    (hput : put symbol parser = .ok (taken, next)) : Persists next :=
  hpersists.of_keeps (put_keeps hput) (steady_of_put hpersists.ready.steady hput)

theorem Persists.of_feed {symbol : Symbol} (hpersists : Persists parser)
    (hfeed : feed symbol parser = .ok next) : Persists next := by
  obtain ⟨-, hready, hkeeps⟩ := takes_of_feed hpersists.ready hpersists.limit hfeed
  exact hpersists.of_keeps hkeeps hready.steady

/-- No request makes the parser give up. -/
theorem Persists.of_answerAll {requests : List Request} {taken : List Symbol}
    (hpersists : Persists parser)
    (hanswer : service.answerAll parser requests = .ok (taken, next)) : Persists next := by
  have hreliable : service.Reliable Persists (fun _ => True) fun _ => True := by
    intro parser request hpersists
    cases hanswer : service.answer parser request with
    | error fault => exact .inr ⟨fault, rfl, trivial⟩
    | ok result =>
      obtain ⟨taken, next⟩ := result
      refine .inl ⟨taken, next, rfl, ?_, fun _ => trivial⟩
      cases request with
      | put symbol => exact hpersists.of_put hanswer
      | feed symbol =>
        obtain ⟨fed, hfeed, hrest⟩ := exists_of_bind_ok hanswer
        cases hrest
        exact hpersists.of_feed hfeed
  obtain ⟨_, _, hlast, hpersists, -⟩ | ⟨_, _, _, _, _, _, _, _, _, _, _, hfault⟩ :=
    hreliable.answerAll_cases requests hpersists
  · rw [hanswer] at hlast
    cases hlast
    exact hpersists
  · rw [hanswer] at hfault
    cases hfault

theorem Persists.of_foldlM {items : List Item} (hpersists : Persists parser)
    (hfold : items.foldlM feedItem parser = .ok next) : Persists next := by
  induction items generalizing parser with
  | nil =>
    cases hfold
    exact hpersists
  | cons item items ih =>
    cases item with
    | inclusion path => exact ih hpersists hfold
    | symbol symbol =>
      rw [List.foldlM_cons] at hfold
      obtain ⟨between, hfeed, hrest⟩ := exists_of_bind_ok hfold
      exact ih (hpersists.of_feed hfeed) hrest

end

/-- Six offers are enough, or the first of them fails since a number does not fit. -/
theorem offer_six_cases (symbol : Symbol) {parser : Parser} (hsteady : Steady parser) :
    (∃ next, offer 6 (put symbol) parser = .ok (true, next)) ∨
    ∃ operation, Overflow parser symbol operation ∧
      offer 6 (put symbol) parser = .error (.overflow operation) := by
  by_cases hoverflow : ∃ operation, Overflow parser symbol operation
  · obtain ⟨operation, hoverflow⟩ := hoverflow
    exact .inr ⟨operation, hoverflow, offer_of_error 6 (put_overflow hoverflow)⟩
  · obtain ⟨next, -, hoffer, -⟩ :=
      offer_takes symbol hsteady (fun operation h => hoverflow ⟨operation, h⟩) (Nat.le_refl 6)
    exact .inl ⟨next, hoffer⟩

/-- After whatever requests, every symbol is taken within six offers.  With a retry limit of six or
more the parser therefore never gives up, whatever it is asked and whatever the text is.  Only a
symbol for which the number of a line does not fit in 64 bits is not taken: offering it fails. -/
theorem assembly_symbols_taken_within_six (file : String) (retryLimit : Nat)
    (functions : FunctionTable) :
    (∀ requests : List Request,
      (∃ taken parser,
        service.answerAll (.start file retryLimit functions) requests = .ok (taken, parser) ∧
        (∀ symbol, (∃ next, offer 6 (put symbol) parser = .ok (true, next)) ∨
          ∃ operation, Overflow parser symbol operation ∧
            offer 6 (put symbol) parser = .error (.overflow operation)) ∧
        (6 ≤ retryLimit → parser.abandoned = false ∧
          ∀ diagnostic ∈ parser.diagnostics.toList, diagnostic.cause.isRetryLimit = false)) ∨
      ∃ operation, OverflowsAt (.start file retryLimit functions) requests operation ∧
        service.answerAll (.start file retryLimit functions) requests =
          .error (.overflow operation)) ∧
    (6 ≤ retryLimit → ∀ text,
      (∃ program, assemble file text retryLimit functions = .ok program ∧
        ∀ diagnostic ∈ program.diagnostics, diagnostic.cause.isRetryLimit = false) ∨
      ∃ operation, assemble file text retryLimit functions = .error (.overflow operation) ∧
        (1 + text.toList.count '\n' < 2 ^ 63 → lineOverflow? text = some operation)) := by
  constructor
  · intro requests
    obtain ⟨taken, parser, hanswer, hsteady, -⟩ |
        ⟨before, request, after, taken, parser, _, hrequests, hbefore, hsteady, hfault,
          ⟨operation, rfl⟩, hanswer⟩ :=
      reliable.answerAll_cases requests (steady_start file retryLimit functions)
    · refine .inl ⟨taken, parser, hanswer, fun symbol => offer_six_cases symbol hsteady,
        fun hlimit => ?_⟩
      have hpersists := (persists_start file functions hlimit).of_answerAll hanswer
      exact ⟨hpersists.ready.notAbandoned, hpersists.reports⟩
    · exact .inr ⟨operation, ⟨before, request, after, taken, parser, hrequests, hbefore,
        overflow_of_answer hsteady hfault⟩, hanswer⟩
  · intro hlimit text
    obtain ⟨program, hassemble⟩ | ⟨operation, hassemble⟩ :=
      assemble_cases file text retryLimit functions
    · refine .inl ⟨program, hassemble, ?_⟩
      obtain ⟨items, _, _, hlex, -⟩ := lex_eq_scans Mode.patient .start text
      obtain ⟨parser, hfold, rfl⟩ := run_of_assemble hlex hassemble
      exact Program.isRetryLimit_ofStatements _
        ((persists_start file functions hlimit).of_foldlM hfold).reports
    · exact .inr ⟨operation, hassemble, fun hlines => lineOverflow?_of_assemble hlines hassemble⟩

/-- The end of the data behind a literal operand is taken at the sixth offer. -/
theorem end_taken_behind_literal :
    6 ≤ 6 ∧ ∃ taken parser,
      service.answerAll (.start "a.asm" 6 {})
        [.feed ⟨.instruction, "push"⟩, .feed ⟨.literal, "a"⟩] = .ok (taken, parser) ∧
      (∃ next, offer 6 (put .endOfData) parser = .ok (true, next)) ∧ parser.abandoned = false := by
  obtain ⟨hanswers, -⟩ := assembly_symbols_taken_within_six "a.asm" 6 {}
  obtain ⟨taken, parser, hanswer, htakes, hpersists⟩ | ⟨_, _, hfault⟩ :=
    hanswers [.feed ⟨.instruction, "push"⟩, .feed ⟨.literal, "a"⟩]
  · refine ⟨Nat.le_refl 6, taken, parser, hanswer, ?_, (hpersists (Nat.le_refl 6)).1⟩
    obtain htaken | ⟨operation, hoverflow, -⟩ := htakes .endOfData
    · exact htaken
    · exact absurd hoverflow (safe_of_kind (by decide) (by decide) operation)
  · cases hfault

example : (do
    let (_, parser) ← service.answerAll (.start "a.asm" 6 {})
      [.feed ⟨.instruction, "push"⟩, .feed ⟨.literal, "a"⟩]
    let (taken, _) ← offer 5 (put .endOfData) parser
    return taken) = .ok false := by
  decide +kernel

/-- The mark of the second line behind the directive is not taken, but fails. -/
theorem lineMark_past_largest_line :
    ∃ taken parser,
      service.answerAll (.start "t.asm" 1024 {}) ((pastLargestLine.take 2).map .feed) =
        .ok (taken, parser) ∧
      offer 6 (put (.lineMark 3)) parser = .error (.overflow .addition) :=
  ⟨_, _, rfl, rfl⟩

end Parser
end Assembly
end Docpress
