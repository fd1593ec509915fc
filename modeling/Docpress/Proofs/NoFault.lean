import Docpress.Document.Compile
import Docpress.Proofs.Completeness
import Docpress.Proofs.Patience
import Mathlib.Tactic.Choose

/-!
# Documents are compiled without faults

Authors' mistakes are diagnostics.  A fault would be a mistake of the compiler, and there is
none: compiling a document succeeds on every input, whatever the finder of included files answers
and however it comes by its answers.

* `Succeeds`: a computation with effects ends without a fault, in a result with a property.
* `Parser.Upholds`: a property of parsers that feeding symbols keeps.  One is that the parser is
  steady and its declarations are complete, so that the parser takes more symbols, the end of the
  document finds nothing open, and the code generator finds every parameter filled.
* `splice_succeeds`: by recursion on the levels of includes that are left, splicing in a file
  keeps such a property; so does compiling a document (`compile_upholds`).
-/

namespace Docpress

variable {m : Type → Type} [Monad m] {α β ι : Type}

/-! ## Computations that succeed -/

/-- Whatever effects the computation has, it ends without a fault, and its result has the
property. -/
def Succeeds (P : α → Prop) (computation : ExceptT Fault m α) : Prop :=
  ∃ results : m {a : α // P a}, computation.run = (fun a => .ok a.val) <$> results

namespace Succeeds

variable [LawfulMonad m] {P : α → Prop} {Q : β → Prop}

theorem pure {a : α} (ha : P a) : Succeeds P (pure a : ExceptT Fault m α) :=
  ⟨Pure.pure ⟨a, ha⟩, by rw [ExceptT.run_pure, map_pure]⟩

theorem mono {computation : ExceptT Fault m α} {P' : α → Prop}
    (hsucceeds : Succeeds P computation) (himp : ∀ a, P a → P' a) : Succeeds P' computation := by
  obtain ⟨results, hresults⟩ := hsucceeds
  refine ⟨(fun a => ⟨a.val, himp a.val a.property⟩) <$> results, ?_⟩
  rw [hresults, Functor.map_map]

/-- Successes follow one another. -/
theorem bind {computation : ExceptT Fault m α} {next : α → ExceptT Fault m β}
    (hfirst : Succeeds P computation) (hnext : ∀ a, P a → Succeeds Q (next a)) :
    Succeeds Q (computation >>= next) := by
  obtain ⟨results, hresults⟩ := hfirst
  choose rest hrest using fun a : {a : α // P a} => hnext a.val a.property
  refine ⟨results >>= rest, ?_⟩
  rw [ExceptT.run_bind, hresults, bind_map_left, map_bind]
  exact bind_congr hrest

/-- The effects of the finder are no faults. -/
theorem lift {effect : m α} {results : m {a : α // P a}}
    (hresults : effect = Subtype.val <$> results) :
    Succeeds P (liftM effect : ExceptT Fault m α) := by
  have hrun : (liftM effect : ExceptT Fault m α).run = Except.ok <$> effect := by simp
  exact ⟨results, by rw [hrun, hresults, Functor.map_map]⟩

theorem liftFault {result : Except Fault α} (hresult : ∃ a, result = .ok a ∧ P a) :
    Succeeds P (Document.liftFault (m := m) result) := by
  obtain ⟨a, rfl, ha⟩ := hresult
  exact pure ha

/-- A step without effects that succeeds is followed by the rest. -/
theorem liftFault_bind {result : Except Fault α} {a : α} {next : α → ExceptT Fault m β}
    (hresult : result = .ok a) (hnext : Succeeds Q (next a)) :
    Succeeds Q (Document.liftFault result >>= next) := by
  have hstep : Succeeds (· = a) (Document.liftFault (m := m) result) :=
    .liftFault ⟨a, hresult, rfl⟩
  exact hstep.bind fun _ heq => heq ▸ hnext

/-- What every step preserves, a fold preserves. -/
theorem foldlM {step : α → ι → ExceptT Fault m α} {indices : List ι}
    (hstep : ∀ a, P a → ∀ i ∈ indices, Succeeds P (step a i)) {a : α} (ha : P a) :
    Succeeds P (indices.foldlM step a) := by
  induction indices generalizing a with
  | nil => exact pure ha
  | cons i indices ih =>
    rw [List.foldlM_cons]
    refine (hstep a ha i List.mem_cons_self).bind fun next hnext => ?_
    exact ih (fun a ha i hmem => hstep a ha i (List.mem_cons_of_mem _ hmem)) hnext

/-- A computation that succeeds has the effects of one that knows no faults. -/
theorem exists_run {computation : ExceptT Fault m α} (hsucceeds : Succeeds P computation) :
    ∃ results : m α, computation.run = Except.ok <$> results := by
  obtain ⟨results, hresults⟩ := hsucceeds
  refine ⟨Subtype.val <$> results, ?_⟩
  rw [hresults, Functor.map_map]

end Succeeds

/-! ## Documents -/

namespace Document

variable [LawfulMonad m]

/-- The parser has open what its states need, and what it has built is complete. -/
def Parser.Sound (parser : Parser) : Prop :=
  parser.Steady ∧ SoundDraft parser.draft

theorem Parser.sound_start (file : String) (retryLimit : Nat) :
    (Parser.start file retryLimit).Sound := by
  refine ⟨Parser.steady_start file retryLimit, fun decl hmem => ?_, fun node hmem => ?_⟩
  · simp [Parser.start] at hmem
  · simp [Parser.start] at hmem

/-- A property of sound parsers that reports keep, and feeding symbols that are fine.  The files
have names with a property of their own. -/
structure Parser.Upholds (Named : String → Prop) (Fine : Symbol → Prop) (Inv : Parser → Prop) :
    Prop where
  sound {parser : Parser} (hinv : Inv parser) : parser.Sound
  named {parser : Parser} (hinv : Inv parser) : Named parser.position.file
  feed {parser : Parser} (hinv : Inv parser) {symbol : Symbol} (hfine : Fine symbol) :
    ∃ next, parser.feed symbol = .ok next ∧ Inv next
  report {parser : Parser} (hinv : Inv parser) (cause : Cause) : Inv (parser.report cause)
  fileMark {file : String} (hnamed : Named file) : Fine (.fileMark file)
  lineMark (line : Nat) : Fine (.lineMark line)

theorem Parser.upholds_sound : Parser.Upholds (fun _ => True) (fun _ => True) Parser.Sound where
  sound := id
  named _ := trivial
  feed hsound symbol _ := Parser.feed_soundDraft symbol hsound.1 hsound.2
  report hsound _ := ⟨⟨hsound.1.fits, hsound.1.finished⟩, hsound.2⟩
  fileMark _ := trivial
  lineMark _ := trivial

/-- All symbols that the text is lexed into are fine. -/
def Lexed (Fine : Symbol → Prop) (items : Except Fault (List Item)) : Prop :=
  ∀ symbols, items = .ok symbols → ∀ symbol, .symbol symbol ∈ symbols → Fine symbol

/-- The file has a name with the property, and is lexed into fine symbols. -/
def Source.Fits (Named : String → Prop) (Fine : Symbol → Prop) (source : Source) : Prop :=
  Named source.name ∧ Lexed Fine (lexContinuation source.text)

/-- Whatever effects the finder has, the files that it finds have the property. -/
def SourceFinder.Finds (find : SourceFinder m) (P : Source → Prop) : Prop :=
  ∀ path position, ∃ answers : m {found : Option Source // ∀ source ∈ found, P source},
    find path position = Subtype.val <$> answers

theorem SourceFinder.finds_any (find : SourceFinder m) {P : Source → Prop}
    (hany : ∀ source, P source) : find.Finds P := by
  intro path position
  refine ⟨(fun found => ⟨found, fun source _ => hany source⟩) <$> find path position, ?_⟩
  rw [Functor.map_map, id_map']

theorem SourceFinder.Finds.mono {find : SourceFinder m} {P Q : Source → Prop}
    (hfind : find.Finds P) (himp : ∀ source, P source → Q source) : find.Finds Q := by
  intro path position
  obtain ⟨answers, hanswers⟩ := hfind path position
  refine ⟨(fun found => ⟨found.val, fun source hmem => himp source (found.property source hmem)⟩)
    <$> answers, ?_⟩
  rw [hanswers, Functor.map_map]

section

variable {Named : String → Prop} {Fine : Symbol → Prop} {Inv : Parser → Prop}

/-- The items of a file are fed one after the other. -/
theorem feedFile_cons (splice : String → Parser → ExceptT Fault m Parser) (outermost : Bool)
    (item : Item) (rest : List Item) (parser : Parser) :
    feedFile splice outermost (item :: rest) parser =
      feedFile splice outermost [item] parser >>= feedFile splice outermost rest := by
  rw [feedFile, ← List.singleton_append, List.foldlM_append]
  rfl

section

variable {splice : String → Parser → ExceptT Fault m Parser} {outermost : Bool}

theorem feedFile_inclusion (path : String) (parser : Parser) :
    feedFile splice outermost [.inclusion path] parser = splice path parser := by
  simp only [feedFile, List.foldlM_cons, List.foldlM_nil, bind_pure]

theorem feedFile_symbol {symbol : Symbol} (hfed : outermost = true ∨ symbol.kind ≠ .endOfData)
    (parser : Parser) :
    feedFile splice outermost [.symbol symbol] parser = liftFault (parser.feed symbol) := by
  simp only [feedFile, List.foldlM_cons, List.foldlM_nil, bind_pure]
  rw [if_neg]
  rcases hfed with rfl | hkind
  · simp
  · simp [hkind]

/-- The end of an included file does not end the document. -/
theorem feedFile_endOfFile {symbol : Symbol} (hkind : symbol.kind = .endOfData) (parser : Parser) :
    feedFile splice false [.symbol symbol] parser = pure parser := by
  simp [feedFile, hkind]

end

/-- Feeding a file succeeds if splicing in the files it includes does. -/
theorem feedFile_succeeds (hupholds : Parser.Upholds Named Fine Inv)
    {splice : String → Parser → ExceptT Fault m Parser}
    (hsplice : ∀ path parser, Inv parser → Succeeds Inv (splice path parser))
    (outermost : Bool) {items : List Item} (hitems : ∀ symbol, .symbol symbol ∈ items → Fine symbol)
    {parser : Parser} (hinv : Inv parser) :
    Succeeds Inv (feedFile splice outermost items parser) := by
  refine .foldlM (fun parser hinv item hmem => ?_) hinv
  cases item with
  | inclusion path => exact hsplice path parser hinv
  | symbol symbol =>
    dsimp only
    split
    · exact .pure hinv
    · exact .liftFault (hupholds.feed hinv (hitems symbol hmem))

/-- Splicing in a file succeeds, also where files include each other in circles: each include
has one level less. -/
theorem splice_succeeds (hupholds : Parser.Upholds Named Fine Inv) {find : SourceFinder m}
    (hfind : find.Finds (Source.Fits Named Fine)) (maxIncludeDepth levels : Nat) (path : String)
    {parser : Parser} (hinv : Inv parser) :
    Succeeds Inv (splice find maxIncludeDepth levels path parser) := by
  induction levels generalizing path parser with
  | zero => exact .pure (hupholds.report hinv _)
  | succ levels ih =>
    obtain ⟨answers, hanswers⟩ := hfind path parser.position
    refine (Succeeds.lift hanswers).bind fun found hfound => ?_
    cases found with
    | none => exact .pure (hupholds.report hinv _)
    | some source =>
      have hfeed {parser : Parser} (hinv : Inv parser) {symbol : Symbol} (hfine : Fine symbol) :
          Succeeds Inv (liftFault (m := m) (parser.feed symbol)) :=
        .liftFault (hupholds.feed hinv hfine)
      -- the marks around the file name it, and then the file around it
      have houter := hupholds.fileMark (hupholds.named hinv)
      obtain ⟨hname, hlexed⟩ := hfound source rfl
      refine (hfeed hinv (hupholds.fileMark hname)).bind fun parser hinv => ?_
      obtain ⟨items, _, _, hlex, _⟩ := lex_eq_scans Scanner.patient .continuation source.text
      have hitems := hlexed items hlex
      refine .liftFault_bind hlex ?_
      refine (feedFile_succeeds hupholds (fun path _ => ih path) false hitems hinv).bind
        fun parser hinv => ?_
      refine (hfeed hinv houter).bind fun parser hinv => ?_
      exact hfeed hinv (hupholds.lineMark _)

/-- Compiling succeeds, with the declarations of a parser that has the property and the code that
is generated for them. -/
theorem compile_upholds (hupholds : Parser.Upholds Named Fine Inv) {find : SourceFinder m}
    (hfind : find.Finds (Source.Fits Named Fine)) (options : Options)
    {file text : String} (htext : Lexed Fine (lex text))
    (hstart : Inv (.start file options.retryLimit)) :
    Succeeds (fun document =>
        (∃ parser, Inv parser ∧ document.decls = parser.draft.decls.toList) ∧
          generate options.annotate document.decls = .ok document.assembly)
      (compile find options file text) := by
  obtain ⟨items, _, _, hlex, _⟩ := lex_eq_scans Scanner.patient .initial text
  have hparse : Succeeds (fun result => ∃ parser, Inv parser ∧ result.1 = parser.draft.decls.toList)
      (parse find options file text) := by
    refine .liftFault_bind hlex ?_
    have hsplice (path : String) (parser : Parser) (hinv : Inv parser) :=
      splice_succeeds hupholds hfind options.maxIncludeDepth options.maxIncludeDepth path hinv
    refine (feedFile_succeeds hupholds hsplice true (htext items hlex) hstart).bind
      fun parser hinv => ?_
    exact .liftFault ⟨_, Parser.finish_of_steady (hupholds.sound hinv).1, parser, hinv, rfl⟩
  refine hparse.bind fun ⟨decls, _⟩ ⟨parser, hinv, hdecls⟩ => ?_
  have hcomplete : ∀ decl ∈ decls, decl.node.Complete := fun decl hmem =>
    (hupholds.sound hinv).2.decls decl (by simpa [show decls = _ from hdecls] using hmem)
  have hgenerate := generate_of_complete options.annotate hcomplete
  exact .liftFault_bind hgenerate (.pure ⟨⟨parser, hinv, hdecls⟩, hgenerate⟩)

end

end Document

end Docpress
