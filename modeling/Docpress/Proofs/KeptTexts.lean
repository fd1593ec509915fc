import Docpress.Proofs.Completeness
import Docpress.Proofs.Leaves

/-!
# No text is lost

Whatever symbols the parser is fed and however often it has to recover from a mistake, the
texts of the constants and parameter names among them end up as the leaves of the returned
trees, in order and once each.  The only ones left out are those that it reports to have found
in the place of a parameter name, and punctuation marks.

* `Gathers parser texts`: the declarations and the open calls, the outermost first, have
  the given leaves.
* `Move.accounts`: one offer keeps the leaves and adds the text of the symbol or nothing;
  `Series.accounts` and `feed_accounts` say the same of feeding a symbol, and
  `feedAll_accounts` of any sequence.
-/

namespace Docpress.Document

/-! ## What diagnostics tell -/

/-- Whether a symbol was found where a parameter name was expected. -/
def isNameMismatch (cause : Cause) : Bool :=
  match cause with
  | .mismatch .parameterName _ => true
  | _ => false

/-- The method and the key of a parameter that is reported as empty. -/
def emptyReport? (cause : Cause) : Option (String × String) :=
  match cause with
  | .emptyParameter method key => some (method, key)
  | _ => none

/-- The methods and keys of the parameters that are reported as empty. -/
def emptyReports (diagnostics : List Diagnostic) : List (String × String) :=
  diagnostics.filterMap fun diagnostic => emptyReport? diagnostic.cause

theorem emptyReports_append (first second : List Diagnostic) :
    emptyReports (first ++ second) = emptyReports first ++ emptyReports second :=
  List.filterMap_append

theorem emptyReports_map_mk (position : Position) (causes : List Cause) :
    emptyReports (causes.map (Diagnostic.mk position)) = causes.filterMap emptyReport? := by
  rw [emptyReports, List.filterMap_map]
  rfl

/-- Closing a call reports its own empty parameters. -/
theorem filterMap_closingCauses (call : Call) :
    call.closingCauses.filterMap emptyReport? = call.ownEmptied := by
  cases call with
  | vector name entry args => rfl
  | map name entry params =>
    simp [Call.closingCauses, Call.ownEmptied, emptyReport?, List.filterMap_append,
      List.filterMap_map, Function.comp_def]

theorem ownEmptied_suppliedWithin (call : Call) :
    call.suppliedWithin.ownEmptied = call.ownEmptied := by
  cases call with
  | vector name entry args => rfl
  | map name entry params =>
    have hkeys : Call.pendingKeys (params.map Param.suppliedWithin) = Call.pendingKeys params := by
      induction params with
      | nil => rfl
      | cons param params ih =>
        cases param <;> simp_all [Call.pendingKeys, Param.suppliedWithin, Param.isBound, Param.key]
    simp [Call.suppliedWithin, Call.ownEmptied, hkeys]

theorem any_isNameMismatch_closingCauses (call : Call) :
    call.closingCauses.any isNameMismatch = false := by
  cases call with
  | vector name entry args => rfl
  | map name entry params =>
    simp [Call.closingCauses, isNameMismatch]

namespace Parser

/-! ## Leaves of a parser -/

/-- The sparse trees of the declarations and of the open calls, the innermost first, have the
given leaves, and their empty parameters are those that were reported. -/
structure Gathered (parser : Parser) (decls stack : List Call) (texts : List String) : Prop where
  declared : parser.draft.decls.toList.map Decl.node = decls.map Call.supplied
  opened : parser.draft.stack.map Prod.fst = stack.map Call.suppliedWithin
  leaves : decls.flatMap Call.leaves ++ stack.reverse.flatMap Call.leaves = texts
  reports : emptyReports parser.diagnostics.toList =
    decls.flatMap Call.emptied ++ stack.reverse.flatMap Call.emptiedWithin

/-- The parser has gathered the texts. -/
def Gathers (parser : Parser) (texts : List String) : Prop :=
  ∃ decls stack, Gathered parser decls stack texts

section

variable {parser : Parser} {causes : List Cause} {states : List State} {texts : List String}
  {decls stack : List Call}

theorem emptyReports_moved (draft : Draft Call) :
    emptyReports (parser.moved causes states draft).diagnostics.toList =
      emptyReports parser.diagnostics.toList ++ causes.filterMap emptyReport? := by
  simp [emptyReports_append, emptyReports_map_mk]

theorem Gathers.of_eq (hgathers : Gathers parser texts) {next : Parser}
    (hdraft : next.draft = parser.draft) (hdiagnostics : next.diagnostics = parser.diagnostics) :
    Gathers next texts := by
  obtain ⟨decls, stack, hgathered⟩ := hgathers
  refine ⟨decls, stack, ?_, ?_, hgathered.leaves, ?_⟩
  · rw [hdraft, hgathered.declared]
  · rw [hdraft, hgathered.opened]
  · rw [hdiagnostics, hgathered.reports]

/-- A move that leaves the draft alone and reports no empty parameter. -/
theorem Gathers.keep (hgathers : Gathers parser texts)
    (hcauses : causes.filterMap emptyReport? = []) :
    Gathers (parser.moved causes states parser.draft) texts := by
  obtain ⟨decls, stack, hgathered⟩ := hgathers
  refine ⟨decls, stack, hgathered.declared, hgathered.opened, hgathered.leaves, ?_⟩
  rw [emptyReports_moved, hcauses, List.append_nil, hgathered.reports]

/-- A move that opens a call. -/
theorem Gathers.push (hgathers : Gathers parser texts) (name : String) (position : Position)
    (hcauses : causes.filterMap emptyReport? = []) :
    Gathers (parser.moved causes states (parser.draft.push (.ofName name) position)) texts := by
  obtain ⟨decls, stack, hgathered⟩ := hgathers
  refine ⟨decls, .ofName name :: stack, hgathered.declared, ?_, ?_, ?_⟩
  · simp only [moved_draft, Draft.push, List.map_cons, hgathered.opened]
    rcases Call.ofName_cases name with hname | hname <;> rw [hname] <;> rfl
  · rw [← hgathered.leaves]
    rcases Call.ofName_cases name with hname | hname <;> simp [hname, Call.leaves]
  · rw [emptyReports_moved, hcauses, List.append_nil, hgathered.reports]
    rcases Call.ofName_cases name with hname | hname <;> simp [hname, Call.emptiedWithin]

/-- The innermost open call has a sparse tree. -/
theorem Gathered.top (hgathered : Gathered parser decls stack texts) {call : Call}
    {position : Position} {around : List (Call × Position)}
    (hstack : parser.draft.stack = (call, position) :: around) :
    ∃ sparse below, stack = sparse :: below ∧ call = sparse.suppliedWithin ∧
      around.map Prod.fst = below.map Call.suppliedWithin := by
  have hopened := hgathered.opened
  rw [hstack, List.map_cons] at hopened
  obtain ⟨sparse, below, rfl, hsparse, hbelow⟩ := List.map_eq_cons_iff.1 hopened.symm
  exact ⟨sparse, below, rfl, hsparse.symm, hbelow.symm⟩

/-- A move that adds a text to the innermost open call. -/
theorem Gathers.extend (hgathers : Gathers parser texts) {call next : Call} {position : Position}
    {around : List (Call × Position)} {text : String}
    (hstack : parser.draft.stack = (call, position) :: around)
    (hnext : ∀ sparse : Call, call = sparse.suppliedWithin →
      ∃ sparse' : Call, next = sparse'.suppliedWithin ∧ sparse'.leaves = sparse.leaves ++ [text] ∧
        sparse'.emptiedWithin = sparse.emptiedWithin) :
    Gathers (parser.moved [] states { parser.draft with stack := (next, position) :: around })
      (texts ++ [text]) := by
  obtain ⟨decls, stack, hgathered⟩ := hgathers
  obtain ⟨sparse, below, rfl, hcall, haround⟩ := hgathered.top hstack
  obtain ⟨sparse', hsparse', hleaves, hemptied⟩ := hnext sparse hcall
  refine ⟨decls, sparse' :: below, hgathered.declared, ?_, ?_, ?_⟩
  · simp [hsparse', haround]
  · simp [← hgathered.leaves, hleaves]
  · rw [emptyReports_moved, hgathered.reports]
    simp [hemptied]

/-- A move that declares the only open call. -/
theorem Gathers.declare (hgathers : Gathers parser texts) {call : Call} {position : Position}
    (hstack : parser.draft.stack = [(call, position)]) :
    Gathers (parser.moved call.closingCauses states
      { decls := parser.draft.decls.push ⟨call.closed, position⟩, stack := [] }) texts := by
  obtain ⟨decls, stack, hgathered⟩ := hgathers
  obtain ⟨sparse, below, rfl, rfl, haround⟩ := hgathered.top hstack
  obtain rfl : below = [] := by simpa using haround.symm
  refine ⟨decls ++ [sparse.joined], [], ?_, rfl, ?_, ?_⟩
  · simp [hgathered.declared, Call.closed_suppliedWithin]
  · simp [← hgathered.leaves, Call.leaves_joined]
  · rw [emptyReports_moved, hgathered.reports, filterMap_closingCauses, ownEmptied_suppliedWithin]
    simp [Call.emptied_joined]

/-- A move that attaches the innermost open call to the one around it. -/
theorem Gathers.attach (hgathers : Gathers parser texts) {call parent next : Call}
    {position place : Position} {below : List (Call × Position)}
    (hstack : parser.draft.stack = (call, position) :: (parent, place) :: below)
    (happend : parent.append (.call call.closed) = .ok next) :
    Gathers (parser.moved call.closingCauses states
      { parser.draft with stack := (next, place) :: below }) texts := by
  obtain ⟨decls, stack, hgathered⟩ := hgathers
  obtain ⟨sparse, around, rfl, rfl, haround⟩ := hgathered.top hstack
  obtain ⟨host, below', rfl, hhost, hbelow⟩ := List.map_eq_cons_iff.1 haround.symm
  have hparent : parent = host.suppliedWithin := hhost.symm
  rw [Call.closed_suppliedWithin, hparent] at happend
  obtain ⟨host', hnext, hleaves, hemptied⟩ :=
    Call.append_suppliedWithin (.call sparse.joined) happend
  refine ⟨decls, host' :: below', hgathered.declared, ?_, ?_, ?_⟩
  · simp [hnext, hbelow]
  · simp [← hgathered.leaves, hleaves, Value.leaves, Call.leaves_joined]
  · rw [emptyReports_moved, hgathered.reports, filterMap_closingCauses, ownEmptied_suppliedWithin]
    simp [hemptied, Value.emptied, Call.emptied_joined]

end

/-! ## Accounting for symbols -/

/-- Whether feeding the symbol keeps its text, and whether it reports that the symbol stands in
the place of a parameter name, agree with whether the symbol is taken. -/
structure Accounts (symbol : Symbol) (taken keeps skipped : Bool) : Prop where
  taken_of_keeps : keeps = true → taken = true ∧ isContent symbol.kind = true
  taken_of_skipped : skipped = true → taken = true
  word : taken = true → isContent symbol.kind = true → symbol.kind ≠ .punct → keeps = !skipped

theorem Accounts.declined {symbol : Symbol} {keeps skipped : Bool}
    (haccounts : Accounts symbol false keeps skipped) : keeps = false ∧ skipped = false := by
  refine ⟨Bool.eq_false_iff.2 fun hkeeps => ?_, Bool.eq_false_iff.2 fun hskipped => ?_⟩
  · cases (haccounts.taken_of_keeps hkeeps).1
  · cases haccounts.taken_of_skipped hskipped

/-- A symbol that is not kept and not skipped is declined, or is no word. -/
theorem Accounts.other {symbol : Symbol} {taken : Bool}
    (hother : taken = true → isContent symbol.kind = true → symbol.kind = .punct) :
    Accounts symbol taken false false := by
  refine ⟨by simp, by simp, fun htaken hcontent hpunct => ?_⟩
  exact absurd (hother htaken hcontent) hpunct

/-- The parser gathers the text of the symbol or nothing, as it reports. -/
def Accounted (symbol : Symbol) (texts : List String) (parser : Parser) (taken : Bool)
    (next : Parser) : Prop :=
  ∃ keeps added, Gathers next (texts ++ if keeps then [symbol.text] else []) ∧
    next.diagnostics.toList = parser.diagnostics.toList ++ added ∧
    Accounts symbol taken keeps (added.any fun diagnostic => isNameMismatch diagnostic.cause)

theorem Accounted.intro {symbol : Symbol} {texts : List String} {parser : Parser} {taken : Bool}
    {causes : List Cause} {states : List State} {draft : Draft Call} (keeps : Bool)
    (hgathers : Gathers (parser.moved causes states draft)
      (texts ++ if keeps then [symbol.text] else []))
    (haccounts : Accounts symbol taken keeps (causes.any isNameMismatch)) :
    Accounted symbol texts parser taken (parser.moved causes states draft) := by
  refine ⟨keeps, causes.map (Diagnostic.mk parser.position), hgathers, ?_, ?_⟩
  · simp
  · rwa [List.any_map]

/-- A move that gathers nothing and skips no word. -/
theorem Accounted.other {symbol : Symbol} {texts : List String} {parser : Parser} {taken : Bool}
    {causes : List Cause} {states : List State} {draft : Draft Call}
    (hgathers : Gathers (parser.moved causes states draft) texts)
    (hcauses : causes.any isNameMismatch = false)
    (hother : taken = true → isContent symbol.kind = true → symbol.kind = .punct) :
    Accounted symbol texts parser taken (parser.moved causes states draft) :=
  .intro false (by simpa using hgathers) (hcauses ▸ .other hother)

/-- A move that neither gathers nor reports anything, and is not about a constant. -/
theorem Accounted.still {symbol : Symbol} {texts : List String} {parser next : Parser}
    {taken : Bool} (hgathers : Gathers parser texts) (hdraft : next.draft = parser.draft)
    (hdiagnostics : next.diagnostics = parser.diagnostics)
    (hcontent : isContent symbol.kind = false) : Accounted symbol texts parser taken next := by
  refine ⟨false, [], ?_, by simp [hdiagnostics], .other fun _ h => ?_⟩
  · simpa using hgathers.of_eq hdraft hdiagnostics
  · rw [hcontent] at h
    cases h

theorem kind_of_isPunct {symbol : Symbol} {c : Char} (hpunct : symbol.isPunct c = true) :
    symbol.kind = .punct := by
  rw [of_decide_eq_true hpunct]
  rfl

theorem filterMap_unknownCauses (name : String) :
    (unknownCauses name).filterMap emptyReport? = [] := by
  unfold unknownCauses
  split <;> rfl

theorem any_unknownCauses (name : String) : (unknownCauses name).any isNameMismatch = false := by
  unfold unknownCauses
  split <;> rfl

/-- One offer before the end of the data accounts for its symbol. -/
theorem Move.accounts {symbol : Symbol} {parser next : Parser} {taken : Bool}
    {texts : List String} (hmove : Move symbol parser taken next) (hsteady : Steady parser)
    (hopen : parser.finished = false) (hgathers : Gathers parser texts) :
    Accounted symbol texts parser taken next := by
  cases hmove with
  | fileMark hkind =>
    exact .still hgathers rfl rfl (by rw [hkind]; rfl)
  | lineMark hkind =>
    exact .still hgathers rfl rfl (by rw [hkind]; rfl)
  | pastEnd hstates =>
    rw [hsteady.finished.2 hstates] at hopen
    cases hopen
  | finish hstates hkind =>
    exact .still hgathers rfl rfl (by rw [hkind]; rfl)
  | paragraph hstates hend hblock htaken =>
    refine .other (hgathers.push _ _ rfl) rfl fun h hcontent => ?_
    have hnewline : symbol.kind = .newline := of_decide_eq_true (htaken.symm.trans h)
    rw [hnewline] at hcontent
    cases hcontent
  | block hstates hkind =>
    refine .other (hgathers.push _ _ (filterMap_unknownCauses _)) (any_unknownCauses _)
      fun _ hcontent => ?_
    rw [hkind] at hcontent
    cases hcontent
  | call hstates hkind =>
    refine .other (hgathers.push _ _ (filterMap_unknownCauses _)) (any_unknownCauses _)
      fun _ hcontent => ?_
    rw [hkind] at hcontent
    cases hcontent
  | quote hstates hquote =>
    exact .other (hgathers.push _ _ rfl) rfl fun _ _ => kind_of_isPunct hquote
  | openMap hstates hstack hopens =>
    exact .other (hgathers.keep rfl) rfl fun _ _ => kind_of_isPunct hopens
  | openVector hstates hstack hopens =>
    exact .other (hgathers.keep rfl) rfl fun _ _ => kind_of_isPunct hopens
  | comma hstates hcomma =>
    exact .other (hgathers.keep rfl) rfl fun _ _ => kind_of_isPunct hcomma
  | blank hstates hcloses hkind =>
    refine .other (hgathers.keep rfl) rfl fun _ hcontent => ?_
    rw [hkind] at hcontent
    cases hcontent
  | expected hstates hsymbol =>
    refine .other (hgathers.keep rfl) rfl fun _ _ => ?_
    obtain ⟨⟨c, hpunct⟩, _⟩ := (hstates ▸ hsteady.fits).of_exactly
    rw [hsymbol, hpunct]
    rfl
  | constant hstates hcontent hquote hstack happend =>
    refine .intro true (hgathers.extend hstack fun sparse hsparse => ?_) ⟨?_, ?_, ?_⟩
    · rw [hsparse] at happend
      obtain ⟨sparse', hnext, hleaves, hemptied⟩ :=
        Call.append_suppliedWithin (.constant (.ofSymbol symbol)) happend
      exact ⟨sparse', hnext, by simpa [Value.leaves, Constant.ofSymbol] using hleaves,
        by simpa [Value.emptied] using hemptied⟩
    · exact fun _ => ⟨rfl, hcontent⟩
    · simp
    · simp
  | @name _ method entry _ _ _ hstates hkind hstack =>
    refine .intro true (hgathers.extend hstack fun sparse hsparse => ?_) ⟨?_, ?_, ?_⟩
    · cases sparse with
      | vector _ _ args => cases hsparse
      | map _ _ params =>
        simp only [Call.suppliedWithin, Call.map.injEq] at hsparse
        obtain ⟨rfl, rfl, rfl⟩ := hsparse
        refine ⟨.map method entry (params ++ [Param.pending symbol.text]), ?_, ?_, ?_⟩
        · simp [Call.suppliedWithin, Param.suppliedWithin]
        · simp [Call.leaves, Param.leaves]
        · simp [Call.emptiedWithin, Param.emptied]
    · simp [hkind, isContent]
    · simp
    · simp
  | skip hstates htext hend hparen =>
    refine .intro false (by simpa using hgathers.keep rfl) ⟨?_, ?_, ?_⟩
    · simp
    · simp
    · simp [isNameMismatch]
  | declare hstates hstack =>
    exact .other (hgathers.declare hstack) (any_isNameMismatch_closingCauses _) (by simp)
  | attach hstates hstack happend =>
    exact .other (hgathers.attach hstack happend) (any_isNameMismatch_closingCauses _) (by simp)
  | _ =>
    -- the other moves decline the symbol and leave the draft alone
    exact .other (hgathers.keep rfl) rfl (by simp)

/-- The document is finished by taking the end of the data. -/
theorem Move.finished {symbol : Symbol} {parser next : Parser} {taken : Bool}
    (hmove : Move symbol parser taken next) (hsteady : Steady parser)
    (hopen : parser.finished = false) :
    next.finished = (taken && decide (symbol.kind = .endOfData)) := by
  cases hmove with
  | pastEnd hstates =>
    rw [hsteady.finished.2 hstates] at hopen
    cases hopen
  | expected hstates hsymbol =>
    obtain ⟨⟨c, hpunct⟩, _⟩ := (hstates ▸ hsteady.fits).of_exactly
    simp [hopen, hsymbol, hpunct, Symbol.punct]
  | openMap hstates hstack hopens => simp [hopen, kind_of_isPunct hopens]
  | openVector hstates hstack hopens => simp [hopen, kind_of_isPunct hopens]
  | quote hstates hquote => simp [hopen, kind_of_isPunct hquote]
  | comma hstates hcomma => simp [hopen, kind_of_isPunct hcomma]
  | constant hstates hcontent =>
    have hkind : symbol.kind ≠ .endOfData := by
      intro hkind
      rw [hkind] at hcontent
      cases hcontent
    simp [hopen, hkind]
  | _ => simp_all

theorem Move.abandoned {symbol : Symbol} {parser next : Parser} {taken : Bool}
    (hmove : Move symbol parser taken next) : next.abandoned = parser.abandoned := by
  cases hmove <;> simp

theorem Move.retryLimit {symbol : Symbol} {parser next : Parser} {taken : Bool}
    (hmove : Move symbol parser taken next) : next.retryLimit = parser.retryLimit := by
  cases hmove <;> simp

/-- A series of offers before the end of the data accounts for its symbol. -/
theorem Series.accounts {symbol : Symbol} {parser last : Parser} {taken : Bool}
    {texts : List String} (hseries : Series symbol parser taken last) (hsteady : Steady parser)
    (hopen : parser.finished = false) (hgathers : Gathers parser texts) :
    Accounted symbol texts parser taken last ∧
      last.finished = (taken && decide (symbol.kind = .endOfData)) := by
  induction hseries with
  | taken hmove _ => exact ⟨hmove.accounts hsteady hopen hgathers, hmove.finished hsteady hopen⟩
  | stopped parser =>
    refine ⟨⟨false, [], by simpa using hgathers, by simp, .other (by simp)⟩, ?_⟩
    simp [hopen]
  | declined hmove hbetween _ ih =>
    obtain ⟨keeps, added, hgathers', hadded, haccounts⟩ := hmove.accounts hsteady hopen hgathers
    obtain ⟨hkeeps, hskipped⟩ := haccounts.declined
    have hopen' := hmove.finished hsteady hopen
    obtain ⟨⟨keeps', added', hgathers'', hadded', haccounts'⟩, hfinished⟩ :=
      ih hbetween hopen' (by simpa [hkeeps] using hgathers')
    refine ⟨⟨keeps', added ++ added', hgathers'', ?_, ?_⟩, hfinished⟩
    · rw [hadded', hadded, List.append_assoc]
    · rwa [List.any_append, hskipped, Bool.false_or]

/-! ## Sequences of symbols -/

/-- Whether the way from one parser to another reports a symbol in the place of a parameter
name. -/
def skipped (before after : Parser) : Bool :=
  (after.diagnostics.toList.drop before.diagnostics.size).any fun diagnostic =>
    isNameMismatch diagnostic.cause

/-- The symbols that the parser is fed, each with whether it is reported in the place of a
parameter name. -/
def skipLog : Parser → List Symbol → List (Symbol × Bool)
  | _, [] => []
  | parser, symbol :: rest =>
    match parser.feed symbol with
    | .ok next => (symbol, parser.skipped next) :: skipLog next rest
    | .error _ => []

theorem skipped_of_append {before after : Parser} {added : List Diagnostic}
    (hadded : after.diagnostics.toList = before.diagnostics.toList ++ added) :
    before.skipped after = added.any fun diagnostic => isNameMismatch diagnostic.cause := by
  rw [skipped, hadded, ← Array.length_toList, List.drop_left]

end Parser

/-- Whether the symbol is a constant other than a punctuation mark. -/
def isWord (symbol : Symbol) : Bool :=
  isContent symbol.kind && decide (symbol.kind ≠ .punct)

/-- The kept entries are constants of the log, with all words among them but the skipped. -/
structure KeptFrom (log kept : List (Symbol × Bool)) : Prop where
  sublist : kept.Sublist (log.filter fun entry => isContent entry.1.kind)
  words : kept.filter (fun entry => isWord entry.1) =
    log.filter fun entry => isWord entry.1 && !entry.2

theorem KeptFrom.cons {log kept : List (Symbol × Bool)} (hkept : KeptFrom log kept)
    {symbol : Symbol} {keeps skipped : Bool}
    (haccounts : Parser.Accounts symbol true keeps skipped) :
    KeptFrom ((symbol, skipped) :: log) ((if keeps then [(symbol, skipped)] else []) ++ kept) := by
  have hword : isWord symbol = true → keeps = !skipped := by
    intro hword
    obtain ⟨hcontent, hpunct⟩ := Bool.and_eq_true_iff.1 hword
    exact haccounts.word rfl hcontent (of_decide_eq_true hpunct)
  constructor
  · cases keeps with
    | true => simpa [(haccounts.taken_of_keeps rfl).2] using hkept.sublist
    | false =>
      cases hcontent : isContent symbol.kind with
      | true => simpa [hcontent] using hkept.sublist.cons _
      | false => simpa [hcontent] using hkept.sublist
  · cases hisWord : isWord symbol with
    | true =>
      have hkeeps := hword hisWord
      subst hkeeps
      cases skipped <;> simp [hisWord, hkept.words]
    | false => cases keeps <;> simp [hisWord, hkept.words]

theorem KeptFrom.concat {log kept : List (Symbol × Bool)} (hkept : KeptFrom log kept)
    {symbol : Symbol} (hcontent : isContent symbol.kind = false) (skipped : Bool) :
    KeptFrom (log ++ [(symbol, skipped)]) kept := by
  refine ⟨?_, ?_⟩
  · simpa [hcontent] using hkept.sublist
  · simpa [hcontent, isWord] using hkept.words

namespace Parser

/-- The parser was given up on. -/
def GivenUp (parser : Parser) : Prop :=
  parser.abandoned = true ∧ ∃ diagnostic ∈ parser.diagnostics, ∃ limit,
    diagnostic.cause = .retryLimit limit

theorem foldlM_feed_of_abandoned {parser : Parser} (habandoned : parser.abandoned = true)
    (symbols : List Symbol) :
    symbols.foldlM (fun parser symbol => parser.feed symbol) parser = .ok parser ∧
      (parser.skipLog symbols).map Prod.fst = symbols := by
  induction symbols with
  | nil => exact ⟨rfl, rfl⟩
  | cons symbol symbols ih =>
    obtain ⟨hfold, hlog⟩ := ih
    refine ⟨?_, ?_⟩
    · rw [List.foldlM_cons, feed_of_abandoned habandoned, ok_bind, hfold]
    · rw [skipLog, feed_of_abandoned habandoned, List.map_cons, hlog]

theorem givenUp_giveUp (parser : Parser) : GivenUp parser.giveUp :=
  ⟨rfl, ⟨parser.position, .retryLimit parser.retryLimit⟩, by simp [giveUp, report], _, rfl⟩

/-- Feeding a symbol accounts for it, unless the parser is given up on. -/
theorem feed_accounts (symbol : Symbol) {parser : Parser} {texts : List String}
    (hsteady : Steady parser) (hopen : parser.finished = false)
    (habandoned : parser.abandoned = false) (hgathers : Gathers parser texts) :
    ∃ next, parser.feed symbol = .ok next ∧ Steady next ∧
      (GivenUp next ∨ Accounted symbol texts parser true next ∧ next.abandoned = false ∧
        next.finished = decide (symbol.kind = .endOfData)) := by
  obtain ⟨taken, last, hfeed, hseries, hlast⟩ := feed_series symbol hsteady habandoned
  obtain ⟨haccounted, hfinished⟩ := hseries.accounts hsteady hopen hgathers
  have habandoned' : last.abandoned = false :=
    hseries.preserves (·.abandoned = false) (fun h hmove => hmove.abandoned.trans h) habandoned
  cases taken with
  | true => exact ⟨last, hfeed, hlast, .inr ⟨haccounted, habandoned', hfinished⟩⟩
  | false => exact ⟨last.giveUp, hfeed, steady_giveUp hlast, .inl (givenUp_giveUp last)⟩

/-- Feeding symbols before the end of the data accounts for all of them, unless the parser is
given up on. -/
theorem foldlM_feed_accounts (symbols : List Symbol)
    (hsymbols : ∀ symbol ∈ symbols, symbol.kind ≠ .endOfData) {parser : Parser}
    {texts : List String} (hsteady : Steady parser) (hopen : parser.finished = false)
    (habandoned : parser.abandoned = false) (hgathers : Gathers parser texts) :
    ∃ last, symbols.foldlM (fun parser symbol => parser.feed symbol) parser = .ok last ∧
      (parser.skipLog symbols).map Prod.fst = symbols ∧ Steady last ∧
      (GivenUp last ∨ last.abandoned = false ∧ last.finished = false ∧
        ∃ kept, KeptFrom (parser.skipLog symbols) kept ∧
          Gathers last (texts ++ kept.map fun entry => entry.1.text)) := by
  induction symbols generalizing parser texts with
  | nil =>
    refine ⟨parser, rfl, rfl, hsteady, .inr ⟨habandoned, hopen, [], ⟨.slnil, rfl⟩, ?_⟩⟩
    simpa using hgathers
  | cons symbol symbols ih =>
    obtain ⟨next, hfeed, hnext, hgiven | ⟨haccounted, habandoned', hfinished⟩⟩ :=
      feed_accounts symbol hsteady hopen habandoned hgathers
    · obtain ⟨hfold, hlog⟩ := foldlM_feed_of_abandoned hgiven.1 symbols
      refine ⟨next, ?_, ?_, hnext, .inl hgiven⟩
      · rw [List.foldlM_cons, hfeed, ok_bind, hfold]
      · rw [skipLog, hfeed, List.map_cons, hlog]
    · obtain ⟨keeps, added, hgathers', hadded, haccounts⟩ := haccounted
      have hopen' : next.finished = false := by
        simpa [hsymbols symbol List.mem_cons_self] using hfinished
      obtain ⟨last, hfold, hlog, hlast, hrest⟩ :=
        ih (fun s hs => hsymbols s (List.mem_cons_of_mem _ hs)) hnext hopen' habandoned' hgathers'
      refine ⟨last, ?_, ?_, hlast, ?_⟩
      · rw [List.foldlM_cons, hfeed, ok_bind, hfold]
      · rw [skipLog, hfeed, List.map_cons, hlog]
      · rcases hrest with hgiven | ⟨habandoned'', hopen'', kept, hkept, hgathers''⟩
        · exact .inl hgiven
        · rw [← skipped_of_append hadded] at haccounts
          refine .inr ⟨habandoned'', hopen'',
            (if keeps then [(symbol, parser.skipped next)] else []) ++ kept, ?_, ?_⟩
          · rw [skipLog, hfeed]
            exact hkept.cons haccounts
          · cases keeps <;> simpa using hgathers''

theorem gathers_start (file : String) (retryLimit : Nat) :
    Gathers (start file retryLimit) [] :=
  ⟨[], [], rfl, rfl, rfl, rfl⟩

/-- Once the end of the data was taken, the declarations have all leaves. -/
theorem Gathers.of_finished {parser : Parser} {texts : List String}
    (hgathers : Gathers parser texts) (hsteady : Steady parser)
    (hfinished : parser.finished = true) : ∃ decls, Gathered parser decls [] texts := by
  obtain ⟨decls, stack, hgathered⟩ := hgathers
  obtain rfl : stack = [] := by
    have hopened := hgathered.opened
    rw [stack_of_finished hsteady hfinished] at hopened
    simpa using hopened.symm
  exact ⟨decls, hgathered⟩

theorem skipLog_append {parser last : Parser} (symbols rest : List Symbol)
    (hfold : symbols.foldlM (fun parser symbol => parser.feed symbol) parser = .ok last) :
    parser.skipLog (symbols ++ rest) = parser.skipLog symbols ++ last.skipLog rest := by
  induction symbols generalizing parser with
  | nil =>
    cases hfold
    rfl
  | cons symbol symbols ih =>
    rw [List.foldlM_cons] at hfold
    cases hfeed : parser.feed symbol with
    | error fault =>
      rw [hfeed] at hfold
      cases hfold
    | ok next =>
      rw [hfeed, ok_bind] at hfold
      simp only [List.cons_append, skipLog, hfeed, ih hfold]

end Parser

/-- The leaves of the returned declarations are the texts of the constants and names that were
fed, in order and without losses, whatever mistakes the parser had to recover from.

`sparse` are the declarations without the empty texts that were filled in, which are those of
the parameters reported as empty.  `kept` are the constants and names that the leaves come from:
of the fed ones all words, except those reported in the place of a parameter name. -/
theorem leaves_of_fed_symbols (file : String) (retryLimit : Nat) (symbols : List Symbol)
    (final : Symbol) (hsymbols : ∀ symbol ∈ symbols, symbol.kind ≠ .endOfData)
    (hfinal : final.kind = .endOfData) :
    ∃ last decls diagnostics,
      (symbols ++ [final]).foldlM (fun parser symbol => parser.feed symbol)
        (Parser.start file retryLimit) = .ok last ∧
      last.finish = .ok (decls, diagnostics) ∧
      ((Parser.start file retryLimit).skipLog (symbols ++ [final])).map Prod.fst =
        symbols ++ [final] ∧
      ((∀ diagnostic ∈ diagnostics, ∀ limit, diagnostic.cause ≠ .retryLimit limit) →
        ∃ (sparse : List Call) (kept : List (Symbol × Bool)),
          decls.map Decl.node = sparse.map Call.supplied ∧
          emptyReports diagnostics = sparse.flatMap Call.emptied ∧
          sparse.flatMap Call.leaves = kept.map (fun entry => entry.1.text) ∧
          KeptFrom ((Parser.start file retryLimit).skipLog (symbols ++ [final])) kept) := by
  have hgathers := Parser.gathers_start file retryLimit
  obtain ⟨parser, hfold, hlog, hsteady, hrest⟩ := Parser.foldlM_feed_accounts symbols hsymbols
    (Parser.steady_start file retryLimit) rfl rfl hgathers
  have hcontent : isContent final.kind = false := by
    rw [hfinal]
    rfl
  obtain ⟨last, hfeed, hlast, hend⟩ : ∃ last, parser.feed final = .ok last ∧ last.Steady ∧
      (last.GivenUp ∨ ∃ kept, KeptFrom ((Parser.start file retryLimit).skipLog symbols) kept ∧
        last.Gathers (kept.map fun entry => entry.1.text) ∧ last.finished = true) := by
    rcases hrest with hgiven | ⟨habandoned, hopen, kept, hkept, hgathers⟩
    · exact ⟨parser, Parser.feed_of_abandoned hgiven.1, hsteady, .inl hgiven⟩
    · obtain ⟨last, hfeed, hlast, hgiven | ⟨⟨keeps, _, hgathers, _, haccounts⟩, _, hfinished⟩⟩ :=
        Parser.feed_accounts final hsteady hopen habandoned hgathers
      · exact ⟨last, hfeed, hlast, .inl hgiven⟩
      · have hkeeps : keeps = false := Bool.eq_false_iff.2 fun hkeeps => by
          rw [(haccounts.taken_of_keeps hkeeps).2] at hcontent
          cases hcontent
        refine ⟨last, hfeed, hlast, .inr ⟨kept, hkept, ?_, by simpa [hfinal] using hfinished⟩⟩
        simpa [hkeeps] using hgathers
  have hskipLog : (Parser.start file retryLimit).skipLog (symbols ++ [final]) =
      (Parser.start file retryLimit).skipLog symbols ++ [(final, parser.skipped last)] := by
    rw [Parser.skipLog_append symbols [final] hfold, Parser.skipLog, hfeed]
    rfl
  refine ⟨last, last.draft.decls.toList, last.diagnostics.toList, ?_,
    Parser.finish_of_steady hlast, ?_, fun hlimit => ?_⟩
  · rw [List.foldlM_append, hfold, ok_bind, List.foldlM_cons, hfeed]
    rfl
  · rw [hskipLog, List.map_append, hlog]
    rfl
  · rcases hend with ⟨_, diagnostic, hmem, limit, hcause⟩ | ⟨kept, hkept, hgathers, hfinished⟩
    · exact absurd hcause (hlimit diagnostic (by simpa using hmem) limit)
    · obtain ⟨sparse, hgathered⟩ := hgathers.of_finished hlast hfinished
      refine ⟨sparse, kept, hgathered.declared, ?_, ?_, hskipLog ▸ hkept.concat hcontent _⟩
      · simpa using hgathered.reports
      · simpa using hgathered.leaves

/-- A link with a number before its first parameter, no value for that parameter and no colon
after the second one. -/
def garbledLink : List Symbol :=
  [.newline, ⟨.directive, "link"⟩, .punct '(', ⟨.number, "3"⟩, ⟨.text, "text"⟩, .punct ':',
    .punct ',', ⟨.text, "url"⟩, ⟨.literal, "here"⟩, .punct ')', ⟨.text, "tail"⟩, .punct '.']

/-- Of the garbled link only the number is lost, which is reported. -/
theorem leaves_of_garbledLink :
    (∀ symbol ∈ garbledLink, symbol.kind ≠ .endOfData) ∧ Symbol.endOfData.kind = .endOfData ∧
    ∃ (sparse : List Call) (kept : List (Symbol × Bool)),
      sparse.flatMap Call.emptied = [("link", "text")] ∧
      sparse.flatMap Call.leaves = kept.map (fun entry => entry.1.text) ∧
      KeptFrom ((Parser.start "d" 16).skipLog (garbledLink ++ [.endOfData])) kept := by
  refine ⟨by decide, rfl, ?_⟩
  obtain ⟨last, decls, diagnostics, hfold, hfinish, _, hkept⟩ :=
    leaves_of_fed_symbols "d" 16 garbledLink .endOfData (by decide) rfl
  have hdiagnostics : ((garbledLink ++ [Symbol.endOfData]).foldlM
      (fun parser symbol => Parser.feed symbol parser) (Parser.start "d" 16) >>=
        fun last => Prod.snd <$> last.finish) =
      .ok [⟨⟨"d", 1⟩, .mismatch .parameterName ⟨.number, "3"⟩⟩,
        ⟨⟨"d", 1⟩, .mismatch (.symbol (.punct ':')) ⟨.literal, "here"⟩⟩,
        ⟨⟨"d", 1⟩, .emptyParameter "link" "text"⟩] := rfl
  rw [hfold, ok_bind, hfinish] at hdiagnostics
  cases hdiagnostics
  obtain ⟨sparse, kept, _, hemptied, hleaves, hkept⟩ := hkept (by simp)
  exact ⟨sparse, kept, hemptied.symm, hleaves, hkept⟩

end Docpress.Document
