import Docpress.Proofs.KeptTexts
import Docpress.Proofs.Positions

/-!
# Where files are asked for

An include directive asks the finder for its file at a position, and if there is no such file, or
includes are nested too deep, that is reported at the same position.  An include directive is no
symbol and has no line mark of its own.  The position is therefore the one of the parser: the file
is the one that the directive stands in, and the line is that of the last symbol before it in that
file.  Where no symbol stands before it in its file, the line is the one at which the file itself
was asked for, and the first line in the outermost file.

* `recording` remembers what a finder is asked and what it answers.  `Records` compares a
  computation that uses it with the one that does not.
* `Asks`, `AsksAll`: what a directive, and the directives of a file, ask for and report.
* `At`: the parser is in a file, on a line.  `splice_asks` is the recursion over the levels of
  includes that are left, `feedFile_asks` the induction over the items of a file.
-/

namespace Docpress.Document

variable {m : Type → Type} [Monad m]

/-! ## Recording -/

/-- What a finder was asked, and its answer. -/
structure Inquiry where
  path : String
  position : Position
  answer : Option Source
deriving DecidableEq, Repr, Inhabited

/-- Asks the finder and remembers it. -/
def recording (find : SourceFinder m) : SourceFinder (StateT (List Inquiry) m) :=
  fun path position => do
    let answer ← find path position
    modify (· ++ [⟨path, position, answer⟩])
    return answer

/-- Whatever effects there are, both computations end without a fault and with the same result.
The first one adds inquiries to those recorded before, and result and inquiries have the
property. -/
def Records {α : Type} (P : α → List Inquiry → Prop)
    (recorded : ExceptT Fault (StateT (List Inquiry) m) α) (plain : ExceptT Fault m α) : Prop :=
  ∃ results : m {result : α × List Inquiry // P result.1 result.2},
    plain.run = (fun result => .ok result.val.1) <$> results ∧
    ∀ log, recorded.run.run log =
      (fun result => (.ok result.val.1, log ++ result.val.2)) <$> results

namespace Records

variable [LawfulMonad m] {α β : Type} {P : α → List Inquiry → Prop}
  {Q : β → List Inquiry → Prop}

theorem pure {a : α} (ha : P a []) :
    Records P (pure a : ExceptT Fault (StateT (List Inquiry) m) α)
      (pure a : ExceptT Fault m α) := by
  refine ⟨Pure.pure ⟨(a, []), ha⟩, ?_, fun log => ?_⟩
  · rw [ExceptT.run_pure, map_pure]
  · rw [ExceptT.run_pure, StateT.run_pure, map_pure, List.append_nil]

theorem mono {P' : α → List Inquiry → Prop}
    {recorded : ExceptT Fault (StateT (List Inquiry) m) α} {plain : ExceptT Fault m α}
    (hrecords : Records P recorded plain) (himp : ∀ a inquiries, P a inquiries → P' a inquiries) :
    Records P' recorded plain := by
  obtain ⟨results, hplain, hrecorded⟩ := hrecords
  refine ⟨(fun result => ⟨result.val, himp _ _ result.property⟩) <$> results, ?_, fun log => ?_⟩
  · rw [hplain, Functor.map_map]
  · rw [hrecorded, Functor.map_map]

/-- Computations follow one another, and so do their inquiries. -/
theorem bind {recorded : ExceptT Fault (StateT (List Inquiry) m) α} {plain : ExceptT Fault m α}
    {recordedNext : α → ExceptT Fault (StateT (List Inquiry) m) β}
    {plainNext : α → ExceptT Fault m β} (hfirst : Records P recorded plain)
    (hnext : ∀ a inquiries, P a inquiries →
      Records (fun b more => Q b (inquiries ++ more)) (recordedNext a) (plainNext a)) :
    Records Q (recorded >>= recordedNext) (plain >>= plainNext) := by
  obtain ⟨results, hplain, hrecorded⟩ := hfirst
  choose rest hrest using fun result : {result : α × List Inquiry // P result.1 result.2} =>
    hnext result.val.1 result.val.2 result.property
  refine ⟨results >>= fun result => (fun last =>
    ⟨(last.val.1, result.val.2 ++ last.val.2), last.property⟩) <$> rest result, ?_, fun log => ?_⟩
  · rw [ExceptT.run_bind, hplain, bind_map_left, map_bind]
    refine bind_congr fun result => ?_
    rw [Functor.map_map]
    exact (hrest result).1
  · rw [ExceptT.run_bind, StateT.run_bind, hrecorded, bind_map_left, map_bind]
    refine bind_congr fun result => ?_
    rw [Functor.map_map]
    refine Eq.trans ((hrest result).2 _) ?_
    simp only [List.append_assoc]

/-- A step without effects that succeeds is followed by the rest. -/
theorem liftFault_bind {result : Except Fault α} {a : α}
    {recordedNext : α → ExceptT Fault (StateT (List Inquiry) m) β}
    {plainNext : α → ExceptT Fault m β} (hresult : result = .ok a)
    (hnext : Records Q (recordedNext a) (plainNext a)) :
    Records Q (liftFault result >>= recordedNext) (liftFault result >>= plainNext) := by
  subst hresult
  have hfirst : Records (fun b inquiries => b = a ∧ inquiries = [])
      (liftFault (m := StateT (List Inquiry) m) (.ok a)) (liftFault (m := m) (.ok a)) :=
    pure ⟨rfl, rfl⟩
  refine hfirst.bind fun b inquiries hb => ?_
  obtain ⟨rfl, rfl⟩ := hb
  exact hnext

theorem liftFault {result : Except Fault α} (hresult : ∃ a, result = .ok a ∧ P a []) :
    Records P (Document.liftFault (m := StateT (List Inquiry) m) result)
      (Document.liftFault (m := m) result) := by
  obtain ⟨a, rfl, ha⟩ := hresult
  exact pure ha

/-- An inquiry is recorded. -/
theorem ask (find : SourceFinder m) (path : String) (position : Position) :
    Records (fun answer inquiries => inquiries = [⟨path, position, answer⟩])
      (liftM (recording find path position) : ExceptT Fault (StateT (List Inquiry) m) _)
      (liftM (find path position) : ExceptT Fault m _) := by
  have hrun (log : List Inquiry) : (recording find path position).run log =
      (fun answer => (answer, log ++ [⟨path, position, answer⟩])) <$> find path position := by
    simp [recording]
  have hlift : (liftM (recording find path position) :
      ExceptT Fault (StateT (List Inquiry) m) (Option Source)).run =
        Except.ok <$> recording find path position := by simp
  refine ⟨(fun answer => ⟨(answer, [⟨path, position, answer⟩]), rfl⟩) <$> find path position,
    ?_, fun log => ?_⟩
  · rw [Functor.map_map]
    simp
  · rw [Functor.map_map, hlift, StateT.run_map, hrun, Functor.map_map]

end Records

/-! ## What directives ask for -/

/-- The line that is current behind an item.  A symbol is on its line, but the end of the data has
no line mark, and neither has an include directive.  A line mark holds 64 bits. -/
def lineAfter (line : Nat) (placed : Placed) : Nat :=
  match placed.item with
  | .symbol symbol =>
    if symbol.kind ≠ .endOfData ∧ placed.line < 2 ^ 64 then placed.line else line
  | .inclusion _ => line

mutual

/-- What an include directive asks for and reports at a position, where `levels` more levels of
includes are allowed. -/
inductive Asks (limit : Nat) : Nat → String → Position → List Inquiry → List Diagnostic → Prop where
  | tooDeep (path : String) (position : Position) :
      Asks limit 0 path position [] [⟨position, .includeDepth limit⟩]
  | missing (levels : Nat) (path : String) (position : Position) :
      Asks limit (levels + 1) path position [⟨path, position, none⟩]
        [⟨position, .includeFailed path⟩]
  | found {levels : Nat} {path : String} {position : Position} {source : Source}
      {items : List Placed} {inquiries : List Inquiry} {reports : List Diagnostic}
      (hplace : place Scanner.scan .continuation source.text = .ok items)
      (hitems : AsksAll limit levels source.name position.line items inquiries reports) :
      Asks limit (levels + 1) path position (⟨path, position, some source⟩ :: inquiries) reports

/-- What the include directives among the items of a file ask for and report.  The line is the one
that is current before the items.  At the start of a file it is the line at which the file was
asked for. -/
inductive AsksAll (limit : Nat) :
    Nat → String → Nat → List Placed → List Inquiry → List Diagnostic → Prop where
  | nil (levels : Nat) (file : String) (line : Nat) : AsksAll limit levels file line [] [] []
  | symbol {levels : Nat} {file : String} {line : Nat} {placed : Placed} {symbol : Symbol}
      {rest : List Placed} {inquiries : List Inquiry} {reports : List Diagnostic}
      (hitem : placed.item = .symbol symbol)
      (hrest : AsksAll limit levels file (lineAfter line placed) rest inquiries reports) :
      AsksAll limit levels file line (placed :: rest) inquiries reports
  | inclusion {levels : Nat} {file : String} {line : Nat} {placed : Placed} {path : String}
      {rest : List Placed} {inquiries more : List Inquiry} {reports others : List Diagnostic}
      (hitem : placed.item = .inclusion path)
      (hfirst : Asks limit levels path ⟨file, line⟩ inquiries reports)
      (hrest : AsksAll limit levels file line rest more others) :
      AsksAll limit levels file line (placed :: rest) (inquiries ++ more) (reports ++ others)

end

/-- Whether the cause is an include directive. -/
def isInclude : Cause → Bool
  | .includeFailed _ | .includeDepth _ => true
  | _ => false

/-- The diagnostics that are about include directives. -/
def includeReports (diagnostics : List Diagnostic) : List Diagnostic :=
  diagnostics.filter (isInclude ·.cause)

/-! ## Single symbols -/

namespace Parser

/-- Diagnostics were added, none of them about include directives. -/
def Adds (parser next : Parser) : Prop :=
  ∃ added, next.diagnostics.toList = parser.diagnostics.toList ++ added ∧ includeReports added = []

theorem Adds.includeReports_eq {parser next : Parser} (hadds : Adds parser next) :
    includeReports next.diagnostics.toList = includeReports parser.diagnostics.toList := by
  obtain ⟨added, hdiagnostics, hreports⟩ := hadds
  rw [hdiagnostics, includeReports, List.filter_append]
  rw [includeReports] at hreports
  rw [hreports, List.append_nil]
  rfl

theorem Adds.mem {parser next : Parser} (hadds : Adds parser next) {diagnostic : Diagnostic}
    (hmem : diagnostic ∈ parser.diagnostics) : diagnostic ∈ next.diagnostics := by
  obtain ⟨added, hdiagnostics, -⟩ := hadds
  rw [← Array.mem_toList_iff] at hmem ⊢
  rw [hdiagnostics]
  exact List.mem_append_left added hmem

theorem Move.adds {symbol : Symbol} {parser next : Parser} {taken : Bool}
    (hmove : Move symbol parser taken next) : Adds parser next := by
  obtain ⟨added, hdiagnostics, hmistakes⟩ := hmove.grows.diagnostics
  refine ⟨added, hdiagnostics, List.filter_eq_nil_iff.2 fun diagnostic hmem hinclude => ?_⟩
  have hmistake := hmistakes diagnostic hmem
  -- an include directive is no mistake of the document
  unfold isInclude at hinclude
  unfold Cause.isMistake at hmistake
  split at hinclude <;> simp_all

theorem adds_giveUp (parser : Parser) : Adds parser parser.giveUp :=
  ⟨[⟨parser.position, .retryLimit parser.retryLimit⟩], by simp [giveUp, report], rfl⟩

/-- A line mark holds 64 bits. -/
theorem put_lineMark (mark : Nat) (parser : Parser) :
    put (.lineMark mark) parser = .ok (true, { parser with
      position.line := if mark < 2 ^ 64 then mark else parser.position.line }) := by
  rw [put, Symbol.lineMark]
  dsimp only
  by_cases hmark : mark < 2 ^ 64
  · have hvalue : (UInt64.ofNat mark).toNat = mark := UInt64.toNat_ofNat_of_lt hmark
    rw [Text.readUInt64?_decimal hmark, if_pos hmark]
    dsimp only
    rw [hvalue]
  · rw [Text.readUInt64?_decimal_of_le (Nat.le_of_not_lt hmark), if_neg hmark]

/-- The parser is sound, and if it has given up, that is reported. -/
structure Settled (parser : Parser) : Prop where
  sound : parser.Sound
  givenUp (habandoned : parser.abandoned = true) : parser.GivenUp

/-- Feeding a symbol reports nothing about include directives. -/
theorem feed_settled (symbol : Symbol) {parser : Parser} (hsettled : Settled parser) :
    ∃ next, feed symbol parser = .ok next ∧ Settled next ∧
      includeReports next.diagnostics.toList = includeReports parser.diagnostics.toList := by
  let Inv (next : Parser) : Prop := (next.abandoned = true → next.GivenUp) ∧
    includeReports next.diagnostics.toList = includeReports parser.diagnostics.toList
  have hmoves {before after : Parser} {taken : Bool} (hinv : Inv before)
      (hmove : Move symbol before taken after) : Inv after := by
    refine ⟨fun habandoned => ?_, hmove.adds.includeReports_eq.trans hinv.2⟩
    obtain ⟨-, diagnostic, hmem, hlimit⟩ := hinv.1 (hmove.abandoned.symm.trans habandoned)
    exact ⟨habandoned, diagnostic, hmove.adds.mem hmem, hlimit⟩
  have hgiveUp {before : Parser} (hinv : Inv before) : Inv before.giveUp :=
    ⟨fun _ => givenUp_giveUp before, (adds_giveUp before).includeReports_eq.trans hinv.2⟩
  obtain ⟨next, hfeed, hsteady, hdraft⟩ :=
    feed_soundDraft symbol hsettled.sound.1 hsettled.sound.2
  obtain ⟨next', hfeed', -, hinv⟩ :=
    feed_preserves Inv symbol hmoves hgiveUp hsettled.sound.1 ⟨hsettled.givenUp, rfl⟩
  obtain rfl : next = next' := Except.ok.inj (hfeed.symm.trans hfeed')
  exact ⟨next, hfeed, ⟨⟨hsteady, hdraft⟩, hinv.1⟩, hinv.2⟩

end Parser

/-- The parser is in the file, on the line.  If it has given up, it may be anywhere. -/
structure At (file : String) (line : Nat) (parser : Parser) : Prop where
  settled : parser.Settled
  bounded : line < 2 ^ 64
  position (habandoned : parser.abandoned = false) : parser.position = ⟨file, line⟩

/-- What a part of a run asks for and reports is as it should be, unless the parser has given up by
its end. -/
structure Traced (Asked : List Inquiry → List Diagnostic → Prop) (parser next : Parser)
    (inquiries : List Inquiry) : Prop where
  settled : next.Settled
  asked (habandoned : next.abandoned = false) : parser.abandoned = false ∧
    ∃ reports, Asked inquiries reports ∧ includeReports next.diagnostics.toList =
      includeReports parser.diagnostics.toList ++ reports

/-- Nothing is asked for and nothing is reported. -/
def Silent (inquiries : List Inquiry) (reports : List Diagnostic) : Prop :=
  inquiries = [] ∧ reports = []

/-- One part of a run follows the other. -/
theorem Traced.trans {First Second Whole : List Inquiry → List Diagnostic → Prop}
    (hwhole : ∀ {inquiries reports more others}, First inquiries reports → Second more others →
      Whole (inquiries ++ more) (reports ++ others))
    {parser between last : Parser} {inquiries more : List Inquiry}
    (hfirst : Traced First parser between inquiries) (hsecond : Traced Second between last more) :
    Traced Whole parser last (inquiries ++ more) := by
  refine ⟨hsecond.settled, fun habandoned => ?_⟩
  obtain ⟨hbetween, others, hothers, hreported⟩ := hsecond.asked habandoned
  obtain ⟨hparser, reports, hreports, hbefore⟩ := hfirst.asked hbetween
  refine ⟨hparser, reports ++ others, hwhole hreports hothers, ?_⟩
  rw [hreported, hbefore, List.append_assoc]

theorem Traced.behind {Asked : List Inquiry → List Diagnostic → Prop}
    {parser between last : Parser} {inquiries : List Inquiry}
    (hfirst : Traced Silent parser between []) (hsecond : Traced Asked between last inquiries) :
    Traced Asked parser last inquiries := by
  refine hfirst.trans (fun hsilent hasked => ?_) hsecond
  obtain ⟨rfl, rfl⟩ := hsilent
  exact hasked

theorem Traced.before {Asked : List Inquiry → List Diagnostic → Prop}
    {parser between last : Parser} {inquiries : List Inquiry}
    (hfirst : Traced Asked parser between inquiries) (hsecond : Traced Silent between last []) :
    Traced Asked parser last inquiries := by
  rw [← List.append_nil inquiries]
  refine hfirst.trans (fun hasked hsilent => ?_) hsecond
  obtain ⟨rfl, rfl⟩ := hsilent
  rwa [List.append_nil, List.append_nil]

/-- A symbol is fed without a word about include directives. -/
theorem traced_feed (symbol : Symbol) {parser : Parser} (hsettled : parser.Settled) :
    ∃ next, parser.feed symbol = .ok next ∧ Traced Silent parser next [] := by
  obtain ⟨next, hfeed, hnext, hreports⟩ := Parser.feed_settled symbol hsettled
  refine ⟨next, hfeed, hnext, fun habandoned => ?_⟩
  refine ⟨Parser.abandoned_of_feed hfeed habandoned, [], ⟨rfl, rfl⟩, ?_⟩
  rw [hreports, List.append_nil]

section

variable {file : String} {line : Nat} {parser : Parser}

/-- A symbol that is no mark leaves the parser where it is. -/
theorem At.feed_plain (hat : At file line parser) {symbol : Symbol}
    (hplain : symbol.kind ≠ .fileMark ∧ symbol.kind ≠ .lineMark) :
    ∃ next, parser.feed symbol = .ok next ∧ At file line next ∧ Traced Silent parser next [] := by
  obtain ⟨next, hfeed, htraced⟩ := traced_feed symbol hat.settled
  obtain ⟨next', hfeed', -, hposition⟩ :=
    Parser.feed_plain hat.settled.sound.1 hplain.1 hplain.2
  obtain rfl : next = next' := Except.ok.inj (hfeed.symm.trans hfeed')
  refine ⟨next, hfeed, ⟨htraced.settled, hat.bounded, fun habandoned => ?_⟩, htraced⟩
  rw [hposition, hat.position (htraced.asked habandoned).1]

/-- A file mark puts the parser into the file. -/
theorem At.feed_fileMark (hat : At file line parser) (name : String) :
    ∃ next, parser.feed (.fileMark name) = .ok next ∧ At name line next ∧
      Traced Silent parser next [] := by
  obtain ⟨next, hfeed, htraced⟩ := traced_feed (.fileMark name) hat.settled
  obtain ⟨next', hfeed', -, hline, hfile⟩ := Parser.feed_fileMark name hat.settled.sound.1
  obtain rfl : next = next' := Except.ok.inj (hfeed.symm.trans hfeed')
  refine ⟨next, hfeed, ⟨htraced.settled, hat.bounded, fun habandoned => ?_⟩, htraced⟩
  have hbefore := hat.position (htraced.asked habandoned).1
  calc next.position = ⟨next.position.file, next.position.line⟩ := rfl
    _ = ⟨name, line⟩ := by rw [hfile habandoned, hline, hbefore]

/-- A line mark puts the parser on the line, if it can hold it. -/
theorem At.feed_lineMark (hat : At file line parser) (mark : Nat) :
    ∃ next, parser.feed (.lineMark mark) = .ok next ∧
      At file (if mark < 2 ^ 64 then mark else line) next ∧ Traced Silent parser next [] := by
  obtain ⟨next, hfeed, htraced⟩ := traced_feed (.lineMark mark) hat.settled
  have hbounded : (if mark < 2 ^ 64 then mark else line) < 2 ^ 64 := by
    split
    · assumption
    · exact hat.bounded
  refine ⟨next, hfeed, ⟨htraced.settled, hbounded, fun habandoned => ?_⟩, htraced⟩
  have hparser := (htraced.asked habandoned).1
  have hfeed' := Parser.feed_of_taken hparser (Parser.put_lineMark mark parser)
  rw [hfeed] at hfeed'
  cases hfeed'
  simp only [hat.position hparser]

/-- A failure is reported where the parser is. -/
theorem At.report (hat : At file line parser) {cause : Cause} (hcause : isInclude cause = true)
    {Asked : List Inquiry → List Diagnostic → Prop} {inquiries : List Inquiry}
    (hasked : parser.abandoned = false → Asked inquiries [⟨parser.position, cause⟩]) :
    At file line (parser.report cause) ∧ Traced Asked parser (parser.report cause) inquiries := by
  have hdiagnostics : (parser.report cause).diagnostics.toList =
      parser.diagnostics.toList ++ [⟨parser.position, cause⟩] := Array.toList_push
  have hsettled : (parser.report cause).Settled := by
    obtain ⟨⟨hsteady, hdraft⟩, hgivenUp⟩ := hat.settled
    refine ⟨⟨⟨hsteady.fits, hsteady.finished⟩, hdraft⟩, fun habandoned => ?_⟩
    obtain ⟨-, diagnostic, hmem, hlimit⟩ := hgivenUp habandoned
    exact ⟨habandoned, diagnostic, Array.mem_push_of_mem _ hmem, hlimit⟩
  refine ⟨⟨hsettled, hat.bounded, hat.position⟩, hsettled, fun habandoned => ?_⟩
  refine ⟨habandoned, [⟨parser.position, cause⟩], hasked habandoned, ?_⟩
  rw [hdiagnostics, includeReports, List.filter_append, List.filter_singleton, hcause]
  rfl

end

/-! ## Files -/

section

variable [LawfulMonad m] {limit levels : Nat} {outermost : Bool} {file : String}
  {recordedSplice : String → Parser → ExceptT Fault (StateT (List Inquiry) m) Parser}
  {plainSplice : String → Parser → ExceptT Fault m Parser}

/-- A symbol is fed, unless it is the end of an included file. -/
theorem records_symbol {P : Parser → List Inquiry → Prop} {symbol : Symbol} {parser : Parser}
    (hskip : symbol.kind = .endOfData → P parser [])
    (hfeed : ∃ next, parser.feed symbol = .ok next ∧ P next []) :
    Records P (feedFile recordedSplice outermost [.symbol symbol] parser)
      (feedFile plainSplice outermost [.symbol symbol] parser) := by
  by_cases hfed : outermost = true ∨ symbol.kind ≠ .endOfData
  · rw [feedFile_symbol hfed, feedFile_symbol hfed]
    exact .liftFault hfeed
  · obtain ⟨houtermost, hkind⟩ := not_or.1 hfed
    obtain rfl : outermost = false := Bool.eq_false_iff.2 houtermost
    rw [feedFile_endOfFile (not_not.1 hkind), feedFile_endOfFile (not_not.1 hkind)]
    exact .pure (hskip (not_not.1 hkind))

/-- What a part of a file comes to. -/
def TracedIn (file : String) (Asked : List Inquiry → List Diagnostic → Prop)
    (parser next : Parser) (inquiries : List Inquiry) : Prop :=
  (∃ line, At file line next) ∧ Traced Asked parser next inquiries

/-- What the first item asks for and reports comes before what the others do. -/
theorem records_cons {line : Nat} {First Second Whole : List Inquiry → List Diagnostic → Prop}
    (hwhole : ∀ {inquiries reports more others}, First inquiries reports → Second more others →
      Whole (inquiries ++ more) (reports ++ others))
    {item : Item} {rest : List Item} {parser : Parser}
    (hfirst : Records (fun next inquiries => At file line next ∧ Traced First parser next inquiries)
      (feedFile recordedSplice outermost [item] parser)
      (feedFile plainSplice outermost [item] parser))
    (hrest : ∀ next, At file line next → Records (TracedIn file Second next)
      (feedFile recordedSplice outermost rest next) (feedFile plainSplice outermost rest next)) :
    Records (TracedIn file Whole parser) (feedFile recordedSplice outermost (item :: rest) parser)
      (feedFile plainSplice outermost (item :: rest) parser) := by
  rw [feedFile_cons, feedFile_cons plainSplice]
  refine hfirst.bind fun next inquiries ⟨hnext, htraced⟩ => ?_
  refine (hrest next hnext).mono fun last more ⟨hlast, hmore⟩ => ⟨hlast, ?_⟩
  exact htraced.trans hwhole hmore

theorem AsksAll.behind {line : Nat} {placed : Placed} {symbol : Symbol} {rest : List Placed}
    {inquiries more : List Inquiry} {reports others : List Diagnostic}
    (hitem : placed.item = .symbol symbol) (hsilent : Silent inquiries reports)
    (hrest : AsksAll limit levels file (lineAfter line placed) rest more others) :
    AsksAll limit levels file line (placed :: rest) (inquiries ++ more) (reports ++ others) := by
  obtain ⟨rfl, rfl⟩ := hsilent
  exact .symbol hitem hrest

/-- The directives of a file ask where the last symbol before them stands, if those of the files
that they include do. -/
theorem feedFile_asks
    (hsplice : ∀ {line : Nat} {parser : Parser} (path : String), At file line parser →
      Records (fun next inquiries => At file line next ∧
          Traced (Asks limit levels path ⟨file, line⟩) parser next inquiries)
        (recordedSplice path parser) (plainSplice path parser))
    {reported last : Nat} {items : List Placed} (hmarked : Marked reported items last)
    {line : Nat} (hline : 0 < reported → reported < 2 ^ 64 → line = reported) {parser : Parser}
    (hat : At file line parser) :
    Records (TracedIn file (AsksAll limit levels file line items) parser)
      (feedFile recordedSplice outermost (items.map Placed.item) parser)
      (feedFile plainSplice outermost (items.map Placed.item) parser) := by
  induction hmarked generalizing line parser with
  | nil =>
    refine .pure ⟨⟨line, hat⟩, hat.settled, fun habandoned => ⟨habandoned, [], .nil _ _ _, ?_⟩⟩
    rw [List.append_nil]
  | @mark reported last placed rest hitem _ ih =>
    have hafter : lineAfter line placed = if placed.line < 2 ^ 64 then placed.line else line := by
      simp [lineAfter, hitem, Symbol.lineMark]
    have hfeed := hat.feed_lineMark placed.line
    rw [← hafter] at hfeed
    have hmark : (Symbol.lineMark placed.line).kind ≠ .endOfData := by simp [Symbol.lineMark]
    rw [List.map_cons, hitem]
    refine records_cons (AsksAll.behind hitem) (records_symbol (absurd · hmark) hfeed)
      fun next hnext => ih (fun _ hbounded => ?_) hnext
    rw [hafter, if_pos hbounded]
  | @symbol reported last placed rest symbol hitem hplain hreported _ ih =>
    -- a symbol stands on the line that was reported last
    have hafter : lineAfter line placed = line := by
      simp only [lineAfter, hitem]
      split
      · rename_i hkind
        obtain rfl := hreported hkind.1
        have hpositive : 0 < placed.line := by
          unfold Placed.line
          omega
        exact (hline hpositive hkind.2).symm
      · rfl
    rw [List.map_cons, hitem]
    refine records_cons (AsksAll.behind hitem) (records_symbol (fun _ => ⟨hat, ?_⟩)
      (hat.feed_plain hplain)) fun next hnext => ?_
    · exact ⟨hat.settled, fun habandoned => ⟨habandoned, [], ⟨rfl, rfl⟩, (List.append_nil _).symm⟩⟩
    · rw [hafter]
      exact ih hline hnext
  | @inclusion reported last placed rest path hitem _ ih =>
    rw [List.map_cons, hitem]
    refine records_cons (fun hfirst hsecond => .inclusion hitem hfirst hsecond) ?_
      fun next hnext => ih hline hnext
    rw [feedFile_inclusion, feedFile_inclusion]
    exact hsplice path hat

/-- An include directive asks where the parser is, and the parser returns there. -/
theorem splice_asks (find : SourceFinder m) (limit levels : Nat) {line : Nat} {parser : Parser}
    (path : String) (hat : At file line parser) :
    Records (fun next inquiries => At file line next ∧
        Traced (Asks limit levels path ⟨file, line⟩) parser next inquiries)
      (splice (recording find) limit levels path parser)
      (splice find limit levels path parser) := by
  induction levels generalizing path file line parser with
  | zero =>
    refine .pure (hat.report rfl fun habandoned => ?_)
    rw [hat.position habandoned]
    exact .tooDeep path _
  | succ levels ih =>
    refine (Records.ask find path parser.position).bind fun found inquiries hinquiries => ?_
    subst hinquiries
    cases found with
    | none =>
      refine .pure (hat.report rfl fun habandoned => ?_)
      rw [hat.position habandoned]
      exact .missing levels path _
    | some source =>
      obtain ⟨entered, henter, hentered, hbefore⟩ := hat.feed_fileMark source.name
      refine .liftFault_bind henter ?_
      obtain ⟨items, last, hplace, hmarked, -⟩ := place_marked .continuation trivial source.text
      have hlex : lexContinuation source.text = .ok (items.map Placed.item) := by
        rw [lexContinuation, ← map_item_place, hplace]
        rfl
      refine .liftFault_bind hlex ?_
      refine (feedFile_asks (fun path => ih path) hmarked (absurd · (Nat.lt_irrefl 0))
        hentered).bind fun left inner hasked => ?_
      obtain ⟨⟨leftLine, hleft⟩, hinner⟩ := hasked
      -- the marks behind the file restore the position before it
      obtain ⟨named, hname, hnamed, hsilent⟩ := hleft.feed_fileMark parser.position.file
      refine .liftFault_bind hname ?_
      obtain ⟨restored, hrestore, hrestored, hsilent'⟩ := hnamed.feed_lineMark parser.position.line
      have htraced := ((hbefore.behind hinner).before hsilent).before hsilent'
      refine .liftFault ⟨restored, hrestore, ⟨htraced.settled, hat.bounded, fun habandoned => ?_⟩,
        htraced.settled, fun habandoned => ?_⟩
      · have hposition := hat.position (htraced.asked habandoned).1
        rw [hrestored.position habandoned, hposition, if_pos hat.bounded]
      · obtain ⟨hparser, reports, hasked, hreports⟩ := htraced.asked habandoned
        refine ⟨hparser, reports, ?_, hreports⟩
        rw [hat.position hparser, List.append_nil]
        exact .found hplace hasked

end

/-! ## Documents -/

theorem at_start (file : String) (retryLimit : Nat) : At file 1 (.start file retryLimit) :=
  ⟨⟨Parser.sound_start file retryLimit, nofun⟩, Nat.one_lt_two_pow (by decide), fun _ => rfl⟩

/-- The declarations and the diagnostics of a document are those of a parser that has met its
symbols. -/
theorem parse_asks [LawfulMonad m] (find : SourceFinder m) (options : Options) (file : String)
    {text : String} {items : List Placed} (hplace : place Scanner.scan .initial text = .ok items)
    {last : Nat} (hmarked : Marked 0 items last) :
    Records (fun result inquiries => ∃ parser : Parser,
        result = (parser.draft.decls.toList, parser.diagnostics.toList) ∧
        Traced (AsksAll options.maxIncludeDepth options.maxIncludeDepth file 1 items)
          (.start file options.retryLimit) parser inquiries)
      (parse (recording find) options file text) (parse find options file text) := by
  have hlex : lex text = .ok (items.map Placed.item) := by
    rw [lex, ← map_item_place, hplace]
    rfl
  refine .liftFault_bind hlex ?_
  refine (feedFile_asks (splice_asks find _ _) hmarked (absurd · (Nat.lt_irrefl 0))
    (at_start file options.retryLimit)).bind fun parser inquiries hasked => ?_
  obtain ⟨-, htraced⟩ := hasked
  refine .liftFault ⟨_, Parser.finish_of_steady htraced.settled.sound.1, parser, rfl, ?_⟩
  rwa [List.append_nil]

/-- Whatever effects the finder has, compiling asks it for files, and reports files that are
missing or nested too deep, at the positions where the include directives find the parser: in
their own file, on the line of the last symbol before them in that file, or on the line inherited
from the request for the file.  This is so unless the parser gives up, which is reported. -/
theorem compile_asks [LawfulMonad m] (find : SourceFinder m) (options : Options)
    (file text : String) :
    ∃ items, place Scanner.scan .initial text = .ok items ∧
      Records (fun compilation inquiries =>
          (∀ diagnostic ∈ compilation.diagnostics, ∀ limit,
            diagnostic.cause ≠ .retryLimit limit) →
          AsksAll options.maxIncludeDepth options.maxIncludeDepth file 1 items inquiries
            (includeReports compilation.diagnostics))
        (compile (recording find) options file text) (compile find options file text) := by
  obtain ⟨items, last, hplace, hmarked, -⟩ := place_marked .initial trivial text
  refine ⟨items, hplace, (parse_asks find options file hplace hmarked).bind ?_⟩
  rintro ⟨decls, diagnostics⟩ inquiries ⟨parser, hresult, htraced⟩
  cases hresult
  have hcomplete : ∀ decl ∈ parser.draft.decls.toList, decl.node.Complete := fun decl hmem =>
    htraced.settled.sound.2.decls decl (by simpa using hmem)
  refine .liftFault_bind (generate_of_complete options.annotate hcomplete) (.pure ?_)
  intro hlimit
  -- a parser that has given up has reported the retry limit
  have habandoned : parser.abandoned = false := by
    rw [Bool.eq_false_iff]
    intro habandoned
    obtain ⟨-, diagnostic, hmem, limit, hcause⟩ := htraced.settled.givenUp habandoned
    exact hlimit diagnostic (Array.mem_toList_iff.2 hmem) limit hcause
  obtain ⟨-, reports, hasked, hreports⟩ := htraced.asked habandoned
  have hdiagnostics : includeReports parser.diagnostics.toList = reports := hreports
  rw [List.append_nil, hdiagnostics]
  exact hasked

/-- A document whose directives stand on lines of their own, and an included file with one in the
middle of a line. -/
def directiveLines : String := "a\n.include(first) f\n.include(third) g"

/-- The files for them are asked for on the lines of the symbols before. -/
theorem compile_asks_directiveLines :
    (((compile (recording twoFiles) {} "main" directiveLines).run.run []).run 0).1.2 =
      [⟨"first", ⟨"main", 1⟩, some ⟨"one", "\nb .include(second) c\nd"⟩⟩,
        ⟨"second", ⟨"one", 2⟩, some ⟨"two", "\n\n.em(e)"⟩⟩, ⟨"third", ⟨"main", 2⟩, none⟩] ∧
    ∃ items, place Scanner.scan .initial directiveLines = .ok items ∧
      Records (fun compilation inquiries =>
          (∀ diagnostic ∈ compilation.diagnostics, ∀ limit,
            diagnostic.cause ≠ .retryLimit limit) →
          AsksAll 16 16 "main" 1 items inquiries (includeReports compilation.diagnostics))
        (compile (recording twoFiles) {} "main" directiveLines)
        (compile twoFiles {} "main" directiveLines) :=
  ⟨by decide +kernel, compile_asks twoFiles {} "main" directiveLines⟩

/-- A finder that has no files. -/
def noFiles : SourceFinder Id := fun _ _ => none

/-- A directive on the second line that no symbol precedes is taken to be on the first. -/
theorem compile_asks_behindLineBreak :
    ((place Scanner.scan .initial "\n.include(p)").toOption.map fun items =>
      (items.filter (·.item = .inclusion "p")).map Placed.line) = some [2] ∧
    ((compile (recording noFiles) {} "doc.ds" "\n.include(p)").run.run []).2 =
      [⟨"p", ⟨"doc.ds", 1⟩, none⟩] ∧
    ((compile (recording noFiles) {} "doc.ds" "\n.include(p)").run.run []).1.toOption.map
      Compilation.diagnostics = some [⟨⟨"doc.ds", 1⟩, .includeFailed "p"⟩] :=
  ⟨by decide +kernel, by decide +kernel, by decide +kernel⟩

end Docpress.Document
