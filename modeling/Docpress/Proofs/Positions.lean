import Docpress.Proofs.NoFault
import Docpress.Proofs.Numerals
import Docpress.Proofs.Placement

/-!
# Positions

Every symbol meets the parser at the place where it stands, in the file that it stands in and on
the line where its token starts, also behind files that were included in the middle of a line.

* `follow` compiles a document up to the last symbol as `compile` does, and lists every item that a
  scanner hands on with its token, its file and the parser that it meets (`Handing`).  What
  compiling adds to it is the conclusion from the parser (`compile_eq_follow`).
* `Locates`: the parser is in a file, on the line that the last line mark of the file gave.  A
  mark, a symbol and an included file keep it so: an included file ends with the marks that
  restore the position it began at (`followSplice_succeeds`).

A parser that has given up takes no marks, so all of this is about documents that the parser does
not give up on.  Line marks hold 64 bits, which is why lines are exact up to there.
-/

namespace Docpress.Document

variable {m : Type → Type} [Monad m]

/-! ## Following a run -/

/-- An item that a scanner handed on. -/
structure Handing where
  /-- the file that was scanned -/
  source : Source
  placed : Placed
  /-- the parser that the item meets -/
  parser : Parser

/-- Does with an item what `feedFile` does. -/
def followItem (splice : String → Parser → ExceptT Fault m (Parser × List Handing))
    (outermost : Bool) (item : Item) (parser : Parser) :
    ExceptT Fault m (Parser × List Handing) :=
  match item with
  | .inclusion path => splice path parser
  | .symbol symbol =>
    if !outermost && symbol.kind = .endOfData then pure (parser, [])
    else (·, []) <$> liftFault (parser.feed symbol)

/-- Feeds the symbols of a file as `feedFile` does, and lists what was handed on meanwhile. -/
def followFile (splice : String → Parser → ExceptT Fault m (Parser × List Handing))
    (outermost : Bool) (source : Source) :
    List Placed → Parser → ExceptT Fault m (Parser × List Handing)
  | [], parser => pure (parser, [])
  | placed :: rest, parser => do
    let (next, inner) ← followItem splice outermost placed.item parser
    let (last, more) ← followFile splice outermost source rest next
    return (last, ⟨source, placed, parser⟩ :: (inner ++ more))

/-- Splices in a file as `splice` does, and lists what was handed on meanwhile. -/
def followSplice (find : SourceFinder m) (maxIncludeDepth : Nat) :
    (levels : Nat) → String → Parser → ExceptT Fault m (Parser × List Handing)
  | 0, _, parser => pure (parser.report (.includeDepth maxIncludeDepth), [])
  | levels + 1, path, parser => do
    let origin := parser.position
    match ← (find path origin : m (Option Source)) with
    | none => pure (parser.report (.includeFailed path), [])
    | some source =>
      let parser ← liftFault (parser.feed (.fileMark source.name))
      let items ← liftFault (place Scanner.scan .continuation source.text)
      let (parser, handings) ←
        followFile (followSplice find maxIncludeDepth levels) false source items parser
      let parser ← liftFault (parser.feed (.fileMark origin.file))
      let parser ← liftFault (parser.feed (.lineMark origin.line))
      return (parser, handings)

/-- Feeds all symbols of a document, and lists what was handed on. -/
def follow (find : SourceFinder m) (options : Options) (file text : String) :
    ExceptT Fault m (Parser × List Handing) := do
  let items ← liftFault (place Scanner.scan .initial text)
  let depth := options.maxIncludeDepth
  followFile (followSplice find depth depth) true ⟨file, text⟩ items
    (.start file options.retryLimit)

section

variable [LawfulMonad m]

theorem map_liftFault {α β : Type} (f : α → β) (result : Except Fault α) :
    f <$> liftFault (m := m) result = liftFault (f <$> result) := by
  apply ExceptT.ext
  rw [ExceptT.run_map]
  exact map_pure _ _

theorem map_fst_followItem
    (splice : String → Parser → ExceptT Fault m (Parser × List Handing)) (outermost : Bool)
    (item : Item) (parser : Parser) :
    Prod.fst <$> followItem splice outermost item parser =
      feedFile (fun path parser => Prod.fst <$> splice path parser) outermost [item] parser := by
  rw [feedFile, List.foldlM_cons]
  simp only [List.foldlM_nil, bind_pure]
  cases item with
  | inclusion path => rfl
  | symbol symbol =>
    simp only [followItem]
    split
    · exact map_pure _ _
    · rw [Functor.map_map, id_map']

theorem map_fst_followFile
    (splice : String → Parser → ExceptT Fault m (Parser × List Handing)) (outermost : Bool)
    (source : Source) (items : List Placed) (parser : Parser) :
    Prod.fst <$> followFile splice outermost source items parser =
      feedFile (fun path parser => Prod.fst <$> splice path parser) outermost
        (items.map Placed.item) parser := by
  induction items generalizing parser with
  | nil => exact map_pure _ _
  | cons placed rest ih =>
    rw [followFile, List.map_cons, feedFile_cons, map_bind, ← map_fst_followItem, bind_map_left]
    refine bind_congr fun (next, inner) => ?_
    rw [map_bind]
    refine Eq.trans ?_ (ih next)
    rw [map_eq_pure_bind]
    exact bind_congr fun _ => map_pure _ _

theorem map_fst_followSplice (find : SourceFinder m) (maxIncludeDepth levels : Nat)
    (path : String) (parser : Parser) :
    Prod.fst <$> followSplice find maxIncludeDepth levels path parser =
      splice find maxIncludeDepth levels path parser := by
  induction levels generalizing path parser with
  | zero => exact map_pure _ _
  | succ levels ih =>
    have hsplice : (fun path parser => Prod.fst <$> followSplice find maxIncludeDepth levels path
        parser) = splice find maxIncludeDepth levels := by
      funext path parser
      exact ih path parser
    rw [followSplice, splice, map_bind]
    refine bind_congr fun found => ?_
    cases found with
    | none => exact map_pure _ _
    | some source =>
      simp only [map_bind, map_pure, lexContinuation, ← map_item_place, ← map_liftFault,
        bind_map_left, ← hsplice, ← map_fst_followFile _ _ source, bind_pure]

/-- Compiling a document is following its run and concluding from the parser at the end. -/
theorem compile_eq_follow (find : SourceFinder m) (options : Options) (file text : String) :
    compile find options file text = (do
      let (parser, _) ← follow find options file text
      let (decls, diagnostics) ← liftFault parser.finish
      let assembly ← liftFault (generate options.annotate decls)
      return { decls, assembly, diagnostics }) := by
  have hsplice : (fun path parser => Prod.fst <$> followSplice find options.maxIncludeDepth
      options.maxIncludeDepth path parser) =
        splice find options.maxIncludeDepth options.maxIncludeDepth := by
    funext path parser
    exact map_fst_followSplice find _ _ path parser
  simp only [compile, parse, follow, lex, ← map_item_place, ← map_liftFault, bind_map_left,
    ← hsplice, ← map_fst_followFile _ _ ⟨file, text⟩, bind_assoc]

end

/-! ## Single symbols -/

namespace Parser

section

variable {symbol : Symbol} {parser next : Parser} {taken : Bool}

/-- Only marks move the position. -/
theorem Move.position (hmove : Move symbol parser taken next) (hfile : symbol.kind ≠ .fileMark)
    (hline : symbol.kind ≠ .lineMark) : next.position = parser.position := by
  cases hmove with
  | fileMark hkind => exact absurd hkind hfile
  | lineMark hkind => exact absurd hkind hline
  | finish => rfl
  | _ => exact moved_position _ _ _ _

/-- A parser that has given up remains so. -/
theorem abandoned_of_feed (hfeed : feed symbol parser = .ok next)
    (habandoned : next.abandoned = false) : parser.abandoned = false := by
  cases hparser : parser.abandoned with
  | false => rfl
  | true =>
    rw [feed_of_abandoned hparser] at hfeed
    cases hfeed
    rw [hparser] at habandoned
    cases habandoned

theorem feed_plain (hsteady : Steady parser) (hfile : symbol.kind ≠ .fileMark)
    (hline : symbol.kind ≠ .lineMark) :
    ∃ next, feed symbol parser = .ok next ∧ Steady next ∧ next.position = parser.position :=
  feed_preserves (fun next => next.position = parser.position) symbol
    (fun hposition hmove => (hmove.position hfile hline).trans hposition) id hsteady rfl

end

/-- Feeding the mark of a file names the file, unless the parser has given up. -/
theorem feed_fileMark (name : String) {parser : Parser} (hsteady : Steady parser) :
    ∃ next, feed (.fileMark name) parser = .ok next ∧ Steady next ∧
      next.position.line = parser.position.line ∧
      (next.abandoned = false → next.position.file = name) := by
  cases habandoned : parser.abandoned with
  | true => exact ⟨parser, feed_of_abandoned habandoned, hsteady, rfl, by simp [habandoned]⟩
  | false =>
    refine ⟨{ parser with position.file := name }, ?_, ⟨hsteady.fits, hsteady.finished⟩, rfl,
      fun _ => rfl⟩
    exact feed_of_taken habandoned rfl

/-- Feeding the mark of a line gives the line, unless the parser has given up. -/
theorem feed_lineMark (line : Nat) {parser : Parser} (hsteady : Steady parser)
    (hbounded : parser.position.line < 2 ^ 64) :
    ∃ next, feed (.lineMark line) parser = .ok next ∧ Steady next ∧
      next.position.file = parser.position.file ∧ next.position.line < 2 ^ 64 ∧
      (next.abandoned = false → line < 2 ^ 64 → next.position.line = line) := by
  cases habandoned : parser.abandoned with
  | true =>
    exact ⟨parser, feed_of_abandoned habandoned, hsteady, rfl, hbounded, by simp [habandoned]⟩
  | false =>
    cases hread : Text.readUInt64? (Text.decimal line) with
    | none =>
      have hput : put (.lineMark line) parser = .ok (true, parser) := by
        rw [put, Symbol.lineMark]
        dsimp only
        rw [hread]
      refine ⟨parser, feed_of_taken habandoned hput, hsteady, rfl, hbounded, fun _ hline => ?_⟩
      rw [Text.readUInt64?_decimal hline] at hread
      cases hread
    | some value =>
      have hput : put (.lineMark line) parser =
          .ok (true, { parser with position.line := value.toNat }) := by
        rw [put, Symbol.lineMark]
        dsimp only
        rw [hread]
      refine ⟨{ parser with position.line := value.toNat }, feed_of_taken habandoned hput,
        ⟨hsteady.fits, hsteady.finished⟩, rfl, value.toNat_lt, fun _ hline => ?_⟩
      rw [Text.readUInt64?_decimal hline] at hread
      cases hread
      exact UInt64.toNat_ofNat_of_lt hline

end Parser

/-! ## Files -/

/-- The item comes from a token of the file.  Unless it is a mark or the end of the data, the
parser that it meets is in the file, on the line where the token starts. -/
structure Handing.Exact (handing : Handing) : Prop where
  before : handing.placed.before ++ handing.placed.token.expand <+:
    dropReturns handing.source.text.toList
  position {symbol : Symbol} (hitem : handing.placed.item = .symbol symbol)
    (hkind : symbol.kind ≠ .endOfData ∧ symbol.kind ≠ .fileMark ∧ symbol.kind ≠ .lineMark)
    (hline : handing.placed.line < 2 ^ 64) :
    handing.parser.position = ⟨handing.source.name, handing.placed.line⟩

/-- Unless the parser has given up by the end, it had not at the beginning, and all that was
handed on meanwhile is exact. -/
def Precise (parser : Parser) (result : Parser × List Handing) : Prop :=
  result.1.abandoned = false → parser.abandoned = false ∧ ∀ handing ∈ result.2, handing.Exact

/-- The parser is in the file, on the line that was reported last.  If it has given up, it may be
anywhere. -/
structure Locates (name : String) (reported : Nat) (parser : Parser) : Prop where
  steady : parser.Steady
  bounded : parser.position.line < 2 ^ 64
  file (habandoned : parser.abandoned = false) : parser.position.file = name
  line (habandoned : parser.abandoned = false) (hpositive : 0 < reported)
    (hbounded : reported < 2 ^ 64) : parser.position.line = reported

/-- After a part of a run the parser is where it was. -/
structure Returns (parser : Parser) (result : Parser × List Handing) : Prop where
  steady : result.1.Steady
  bounded : result.1.position.line < 2 ^ 64
  position (habandoned : result.1.abandoned = false) : result.1.position = parser.position
  precise : Precise parser result

/-- A part of a run that returns keeps the place. -/
theorem Locates.of_returns {name : String} {reported : Nat} {parser : Parser}
    (hlocates : Locates name reported parser) {result : Parser × List Handing}
    (hreturns : Returns parser result) : Locates name reported result.1 where
  steady := hreturns.steady
  bounded := hreturns.bounded
  file habandoned := by
    rw [hreturns.position habandoned]
    exact hlocates.file (hreturns.precise habandoned).1
  line habandoned hpositive hbounded := by
    rw [hreturns.position habandoned]
    exact hlocates.line (hreturns.precise habandoned).1 hpositive hbounded

/-- A symbol that is no mark leaves the parser where it is. -/
theorem returns_feed {symbol : Symbol} {parser : Parser} (hsteady : parser.Steady)
    (hbounded : parser.position.line < 2 ^ 64)
    (hplain : symbol.kind ≠ .fileMark ∧ symbol.kind ≠ .lineMark) :
    ∃ next, parser.feed symbol = .ok next ∧ Returns parser (next, []) := by
  obtain ⟨next, hfeed, hnext, hposition⟩ := Parser.feed_plain hsteady hplain.1 hplain.2
  refine ⟨next, hfeed, hnext, hposition ▸ hbounded, fun _ => hposition, fun habandoned => ?_⟩
  exact ⟨Parser.abandoned_of_feed hfeed habandoned, by simp⟩

/-- A line mark puts the parser on the line. -/
theorem locates_feed_lineMark (line : Nat) {name : String} {reported : Nat} {parser : Parser}
    (hlocates : Locates name reported parser) :
    ∃ next, parser.feed (.lineMark line) = .ok next ∧ Locates name line next ∧
      Precise parser (next, []) := by
  obtain ⟨next, hfeed, hsteady, hfile, hbounded, hline⟩ :=
    Parser.feed_lineMark line hlocates.steady hlocates.bounded
  have hparser := Parser.abandoned_of_feed hfeed
  refine ⟨next, hfeed, ⟨hsteady, hbounded, fun habandoned => ?_, ?_⟩, fun habandoned => ?_⟩
  · rw [hfile]
    exact hlocates.file (hparser habandoned)
  · intro habandoned _ hline'
    exact hline habandoned hline'
  · exact ⟨hparser habandoned, by simp⟩

/-- A file mark puts the parser into the file, where no line is reported yet. -/
theorem locates_feed_fileMark (name : String) {parser : Parser} (hsteady : parser.Steady)
    (hbounded : parser.position.line < 2 ^ 64) :
    ∃ next, parser.feed (.fileMark name) = .ok next ∧ Locates name 0 next ∧
      (next.abandoned = false → parser.abandoned = false) := by
  obtain ⟨next, hfeed, hnext, hline, hfile⟩ := Parser.feed_fileMark name hsteady
  refine ⟨next, hfeed, ⟨hnext, hline ▸ hbounded, hfile, ?_⟩, Parser.abandoned_of_feed hfeed⟩
  intro _ hpositive
  exact absurd hpositive (Nat.lt_irrefl 0)

section

variable [LawfulMonad m]
  {splice : String → Parser → ExceptT Fault m (Parser × List Handing)} {outermost : Bool}
  {source : Source}

/-- A symbol is fed, unless it is the end of an included file. -/
theorem followItem_succeeds {P : Parser × List Handing → Prop} {symbol : Symbol} {parser : Parser}
    (hskip : symbol.kind = .endOfData → P (parser, []))
    (hfeed : ∃ next, parser.feed symbol = .ok next ∧ P (next, [])) :
    Succeeds P (followItem splice outermost (.symbol symbol) parser) := by
  obtain ⟨next, hfeed, hnext⟩ := hfeed
  simp only [followItem]
  split
  · rename_i hend
    refine .pure (hskip ?_)
    simpa using (Bool.and_eq_true_iff.1 hend).2
  · rw [map_liftFault, hfeed]
    exact .liftFault ⟨(next, []), rfl, hnext⟩

/-- What is handed on first is exact, and so is the rest. -/
theorem followFile_cons {between last : Nat} {placed : Placed} {rest : List Placed}
    {parser : Parser}
    (hfirst : Succeeds (fun result => Locates source.name between result.1 ∧ Precise parser result)
      (followItem splice outermost placed.item parser))
    (hexact : parser.abandoned = false → Handing.Exact ⟨source, placed, parser⟩)
    (hrest : ∀ next, Locates source.name between next →
      Succeeds (fun result => Locates source.name last result.1 ∧ Precise next result)
        (followFile splice outermost source rest next)) :
    Succeeds (fun result => Locates source.name last result.1 ∧ Precise parser result)
      (followFile splice outermost source (placed :: rest) parser) := by
  rw [followFile]
  refine hfirst.bind fun (next, inner) ⟨hnext, hinner⟩ => ?_
  refine (hrest next hnext).bind fun (final, more) ⟨hfinal, hmore⟩ => .pure ⟨hfinal, ?_⟩
  intro habandoned
  obtain ⟨hbetween, hmore⟩ := hmore habandoned
  obtain ⟨hparser, hinner⟩ := hinner hbetween
  refine ⟨hparser, List.forall_mem_cons.2 ⟨hexact hparser, ?_⟩⟩
  exact List.forall_mem_append.2 ⟨hinner, hmore⟩

/-- The symbols of a file meet the parser where they stand, if the files that it includes return
to where they were included. -/
theorem followFile_succeeds
    (hsplice : ∀ path parser, parser.Steady → parser.position.line < 2 ^ 64 →
      Succeeds (Returns parser) (splice path parser))
    {reported last : Nat} {items : List Placed} (hmarked : Marked reported items last)
    (hitems : ∀ placed ∈ items,
      placed.before ++ placed.token.expand <+: dropReturns source.text.toList)
    {parser : Parser} (hlocates : Locates source.name reported parser) :
    Succeeds (fun result => Locates source.name last result.1 ∧ Precise parser result)
      (followFile splice outermost source items parser) := by
  induction hmarked generalizing parser with
  | nil => exact .pure ⟨hlocates, fun habandoned => ⟨habandoned, by simp⟩⟩
  | @mark reported last placed rest hitem _ ih =>
    rw [List.forall_mem_cons] at hitems
    refine followFile_cons ?_ (fun _ => ⟨hitems.1, ?_⟩) fun next => ih hitems.2
    · rw [hitem]
      exact followItem_succeeds nofun (locates_feed_lineMark placed.line hlocates)
    · intro symbol hsymbol hkind
      rw [hitem] at hsymbol
      cases hsymbol
      exact absurd rfl hkind.2.2
  | @symbol reported last placed rest symbol hitem hplain hline _ ih =>
    rw [List.forall_mem_cons] at hitems
    refine followFile_cons ?_ (fun habandoned => ⟨hitems.1, ?_⟩) fun next => ih hitems.2
    · rw [hitem]
      refine followItem_succeeds (fun _ => ⟨hlocates, fun habandoned => ⟨habandoned, by simp⟩⟩) ?_
      obtain ⟨next, hfeed, hreturns⟩ := returns_feed hlocates.steady hlocates.bounded hplain
      exact ⟨next, hfeed, hlocates.of_returns hreturns, hreturns.precise⟩
    · intro other hother hkind hbounded
      obtain rfl : symbol = other := by simpa [hitem] using hother
      -- the line is the one reported last, and lines are counted from one
      obtain rfl : placed.line = reported := hline hkind.1
      have hpositive : 0 < placed.line := by
        unfold Placed.line
        omega
      have hfile := hlocates.file habandoned
      have hcurrent := hlocates.line habandoned hpositive hbounded
      show parser.position = ⟨source.name, placed.line⟩
      rw [← hfile, ← hcurrent]
  | @inclusion reported last placed rest path hitem _ ih =>
    rw [List.forall_mem_cons] at hitems
    refine followFile_cons ?_ (fun _ => ⟨hitems.1, ?_⟩) fun next => ih hitems.2
    · rw [hitem]
      refine (hsplice path parser hlocates.steady hlocates.bounded).mono fun result hreturns => ?_
      exact ⟨hlocates.of_returns hreturns, hreturns.precise⟩
    · intro symbol hsymbol
      rw [hitem] at hsymbol
      cases hsymbol

theorem returns_report {parser : Parser} (hsteady : parser.Steady)
    (hbounded : parser.position.line < 2 ^ 64) (cause : Cause) :
    Returns parser (parser.report cause, []) :=
  ⟨⟨hsteady.fits, hsteady.finished⟩, hbounded, fun _ => rfl,
    fun habandoned => ⟨habandoned, by simp⟩⟩

/-- A file that is spliced in returns to where it was included, also where it includes others:
these have one level less. -/
theorem followSplice_succeeds (find : SourceFinder m) (maxIncludeDepth levels : Nat)
    (path : String) {parser : Parser} (hsteady : parser.Steady)
    (hbounded : parser.position.line < 2 ^ 64) :
    Succeeds (Returns parser) (followSplice find maxIncludeDepth levels path parser) := by
  induction levels generalizing path parser with
  | zero => exact .pure (returns_report hsteady hbounded _)
  | succ levels ih =>
    obtain ⟨answers, hanswers⟩ :=
      find.finds_any (P := fun _ => True) (fun _ => trivial) path parser.position
    refine (Succeeds.lift hanswers).bind fun found _ => ?_
    cases found with
    | none => exact .pure (returns_report hsteady hbounded _)
    | some source =>
      obtain ⟨entered, henter, hentered, hbefore⟩ :=
        locates_feed_fileMark source.name hsteady hbounded
      refine .liftFault_bind henter ?_
      obtain ⟨items, last, hplace, hmarked, hitems⟩ :=
        place_marked .continuation trivial source.text
      refine .liftFault_bind hplace ?_
      refine (followFile_succeeds (fun path _ => ih path) hmarked hitems hentered).bind
        fun (left, handings) ⟨hleft, hprecise⟩ => ?_
      -- the marks behind the file restore the position before it
      obtain ⟨named, hname, hnamed, hleft'⟩ :=
        locates_feed_fileMark parser.position.file hleft.steady hleft.bounded
      refine .liftFault_bind hname ?_
      obtain ⟨restored, hrestore, hrestored, hfile, hbounded', hline⟩ :=
        Parser.feed_lineMark parser.position.line hnamed.steady hnamed.bounded
      have hnamed' := Parser.abandoned_of_feed hrestore
      refine .liftFault_bind hrestore (.pure ⟨hrestored, hbounded', ?_, ?_⟩)
      · intro habandoned
        calc restored.position
            = ⟨restored.position.file, restored.position.line⟩ := rfl
          _ = ⟨parser.position.file, parser.position.line⟩ := by
            rw [hfile, hnamed.file (hnamed' habandoned), hline habandoned hbounded]
      · intro habandoned
        obtain ⟨hentered', hhandings⟩ := hprecise (hleft' (hnamed' habandoned))
        exact ⟨hbefore hentered', hhandings⟩

end

/-- Compiling a document is following its run and concluding from the parser at the end.  Unless
that parser has given up, every symbol that was handed on during the run, marks and the end of the
data excepted, met the parser in the file that it stands in, on the line where its token starts. -/
theorem positions_exact [LawfulMonad m] (find : SourceFinder m) (options : Options)
    (file text : String) :
    compile find options file text = (do
      let (parser, _) ← follow find options file text
      let (decls, diagnostics) ← liftFault parser.finish
      let assembly ← liftFault (generate options.annotate decls)
      return { decls, assembly, diagnostics }) ∧
    Succeeds (fun (parser, handings) =>
        parser.abandoned = false → ∀ handing ∈ handings, handing.Exact)
      (follow find options file text) := by
  refine ⟨compile_eq_follow find options file text, ?_⟩
  obtain ⟨items, last, hplace, hmarked, hitems⟩ := place_marked .initial trivial text
  refine .liftFault_bind hplace ?_
  have hstart : Locates file 0 (.start file options.retryLimit) :=
    ⟨Parser.steady_start file options.retryLimit, Nat.one_lt_two_pow (by decide), fun _ => rfl,
      nofun⟩
  have hsplice (path : String) (parser : Parser) (hsteady : parser.Steady) :=
    followSplice_succeeds find options.maxIncludeDepth options.maxIncludeDepth path hsteady
  refine (followFile_succeeds hsplice hmarked hitems hstart).mono fun result hresult => ?_
  exact fun habandoned => (hresult.2 habandoned).2

/-- A finder that counts its calls and has two files, one of which includes the other in the middle
of a line. -/
def twoFiles : SourceFinder (StateM Nat) := fun path _ => do
  modify (· + 1)
  match path with
  | "first" => return some ⟨"one", "\nb .include(second) c\nd"⟩
  | "second" => return some ⟨"two", "\n\n.em(e)"⟩
  | _ => return none

/-- The run of a document with nested and failing includes ends well, and its positions are
exact. -/
theorem positions_exact_twoFiles :
    (((follow twoFiles {} "main" "a\n.include(first) f\n.include(third) g").run.run 0).1.toOption.map
      fun (parser, handings) => (parser.abandoned, handings.length)) = some (false, 24) ∧
    compile twoFiles {} "main" "a\n.include(first) f\n.include(third) g" = (do
      let (parser, _) ← follow twoFiles {} "main" "a\n.include(first) f\n.include(third) g"
      let (decls, diagnostics) ← liftFault parser.finish
      let assembly ← liftFault (generate false decls)
      return { decls, assembly, diagnostics }) ∧
    Succeeds (fun (parser, handings) =>
        parser.abandoned = false → ∀ handing ∈ handings, handing.Exact)
      (follow twoFiles {} "main" "a\n.include(first) f\n.include(third) g") :=
  ⟨by decide +kernel,
    positions_exact twoFiles {} "main" "a\n.include(first) f\n.include(third) g"⟩

end Docpress.Document
