import Docpress.Proofs.Leaves
import Docpress.Proofs.NoFault
import Docpress.Proofs.Rendered
import Docpress.Proofs.Words

/-!
# Paragraphs around an included file

What becomes of the paragraphs of a document that includes a file between two of its lines.

The parser is seen as a `Page`: the paragraphs that are done and the words of the one that is
being written.  A word extends the last paragraph, a paragraph break starts another one, and marks
change nothing (`Shows.word`, `Shows.newline`, `Shows.mark`).  `WritesAll` is what a sequence of
items makes of a page, and `feedFile_writes` follows the parser through a file, whatever line
marks stand between the items.

An included file continues the paragraph that it stands in.  The scanner of the outer file knows
nothing of its symbols.  So with blank lines on both sides of an include directive the words
behind it continue the paragraph of the included words, and a blank line behind a directive starts
a paragraph only if there is none before it (`splitAround`).
-/

namespace Docpress.Document

/-! ## Paragraphs of words -/

/-- The paragraph that has the words. -/
def paragraphOf (words : List Word) : Call :=
  .vector paragraph (lookup? paragraph) (words.map fun word => .constant (.string word.text))

theorem isPunctuation_word (word : Word) :
    (Value.constant (.string word.text)).isPunctuation = false := by
  have hne (c : Char) (hc : isOrdinary c = false) : word.text ≠ String.singleton c := by
    intro htext
    have hchars : word.chars = [c] := by
      simpa [Word.text] using congrArg String.toList htext
    exact word.not_mem hc (by simp [hchars])
  have hdot : word.text ≠ "." := hne '.' (by decide)
  have hcomma : word.text ≠ "," := hne ',' (by decide)
  have hsemicolon : word.text ≠ ";" := hne ';' (by decide)
  have hquestion : word.text ≠ "?" := hne '?' (by decide)
  have hbang : word.text ≠ "!" := hne '!' (by decide)
  simp [Value.isPunctuation, Constant.isPunctuation, Constant.string, hdot, hcomma, hsemicolon,
    hquestion, hbang]

theorem Value.coalesceAfter_eq_self {current : Value} {args : List Value}
    (hargs : ∀ arg ∈ args, arg.isPunctuation = false) :
    coalesceAfter current args = current :: args := by
  induction args generalizing current with
  | nil => rfl
  | cons arg args ih =>
    rw [List.forall_mem_cons] at hargs
    rw [coalesceAfter, if_neg (by simp [hargs.1]), ih hargs.2]

/-- A paragraph of words is closed as it is. -/
theorem closed_paragraphOf (words : List Word) :
    (paragraphOf words).closed = paragraphOf words := by
  cases words with
  | nil => rfl
  | cons word words =>
    simp only [paragraphOf, Call.closed, List.map_cons, Value.coalesce]
    rw [Value.coalesceAfter_eq_self]
    exact List.forall_mem_map.2 fun word _ => isPunctuation_word word

theorem complete_paragraphOf (words : List Word) : (paragraphOf words).Complete := by
  simp [paragraphOf, Call.Complete, Value.allComplete_iff, Value.Complete]

/-! ## Pages -/

/-- What has been written of a document. -/
inductive Page where
  /-- nothing, not even a paragraph was begun -/
  | blank
  | writing (done : List (List Word)) (words : List Word)
  /-- the end of the data was taken -/
  | ended (done : List (List Word))

/-- A parser with nothing to report, in the given place of a document. -/
def standing (limit : Nat) (position : Position) (states : List State) (decls : Array (Decl Call))
    (stack : List (Call × Position)) : Parser :=
  { states, draft := ⟨decls, stack⟩, position, retryLimit := limit }

/-- The parser has written the page, with nothing to report. -/
inductive Shows (limit : Nat) : Page → Parser → Prop where
  | blank (position : Position) : Shows limit .blank (standing limit position [.list, .body] #[] [])
  | writing {done : List (List Word)} {decls : Array (Decl Call)} (words : List Word)
      (position place : Position) (hdecls : decls.toList.map (·.node) = done.map paragraphOf) :
      Shows limit (.writing done words)
        (standing limit position [.vector .paragraph, .reduce, .list, .body] decls
          [(paragraphOf words, place)])
  | ended {done : List (List Word)} {decls : Array (Decl Call)} (position : Position)
      (hdecls : decls.toList.map (·.node) = done.map paragraphOf) :
      Shows limit (.ended done) { standing limit position [] decls [] with finished := true }

section

variable {limit : Nat} {position place : Position} {rest : List State} {symbol : Symbol}
  {decls : Array (Decl Call)} {words : List Word}

theorem put_standing (hplain : Parser.IsPlain symbol) (state : State)
    (stack : List (Call × Position)) :
    Parser.put symbol (standing limit position (state :: rest) decls stack) =
      Parser.step (standing limit position rest decls stack) state symbol :=
  Parser.put_plain hplain rfl

/-- A paragraph break and the end of the data end the paragraph that is being written. -/
theorem declined_closing (hplain : Parser.IsPlain symbol)
    (hcloses : closes .paragraph symbol = true) :
    Declined (Parser.put symbol) 2
      (standing limit position (.vector .paragraph :: .reduce :: rest) decls
        [(paragraphOf words, place)])
      (standing limit position rest (decls.push ⟨paragraphOf words, place⟩) []) := by
  have hclosing : Parser.put symbol
      (standing limit position (.vector .paragraph :: .reduce :: rest) decls
        [(paragraphOf words, place)]) =
    .ok (false, standing limit position (.reduce :: rest) decls [(paragraphOf words, place)]) := by
    rw [put_standing hplain, Parser.step, Parser.stepVector, if_pos hcloses]
  have hreduce := @Parser.stepReduce_eq
    (standing limit position rest decls [(paragraphOf words, place)]) rest _ _ _ rfl
  rw [closed_paragraphOf, Draft.merged_of_single rfl, ok_bind] at hreduce
  have hdeclare : Parser.put symbol
      (standing limit position (.reduce :: rest) decls [(paragraphOf words, place)]) =
    .ok (false, standing limit position rest (decls.push ⟨paragraphOf words, place⟩) []) := by
    rw [put_standing hplain, Parser.step]
    exact hreduce
  exact .more hclosing (.more hdeclare (.none _))

end

namespace Shows

variable {limit : Nat} {page : Page} {parser : Parser} {done : List (List Word)}
  {words : List Word}

/-- Marks change nothing on a page. -/
theorem mark (hshows : Shows limit page parser) {symbol : Symbol}
    (hkind : symbol.kind = .fileMark ∨ symbol.kind = .lineMark) :
    ∃ next, parser.feed symbol = .ok next ∧ Shows limit page next := by
  obtain ⟨position, hput⟩ := Parser.put_mark hkind parser
  cases hshows with
  | blank => exact ⟨_, Parser.feed_of_taken rfl hput, .blank position⟩
  | writing words _ place hdecls =>
    exact ⟨_, Parser.feed_of_taken rfl hput, .writing words position place hdecls⟩
  | ended _ hdecls => exact ⟨_, Parser.feed_of_taken rfl hput, .ended position hdecls⟩

theorem word (hlimit : 4 ≤ limit) (hshows : Shows limit (.writing done words) parser)
    (word : Word) : ∃ next, parser.feed ⟨.text, word.text⟩ = .ok next ∧
      Shows limit (.writing done (words ++ [word])) next := by
  cases hshows with
  | @writing _ decls _ position place hdecls =>
    have hargument : Parser.put ⟨.text, word.text⟩
        (standing limit position [.vector .paragraph, .reduce, .list, .body] decls
          [(paragraphOf words, place)]) =
      .ok (false, standing limit position [.value, .vector .paragraph, .reduce, .list, .body] decls
        [(paragraphOf words, place)]) := rfl
    have hvalue : Parser.put ⟨.text, word.text⟩
        (standing limit position [.value, .vector .paragraph, .reduce, .list, .body] decls
          [(paragraphOf words, place)]) =
      .ok (true, standing limit position [.vector .paragraph, .reduce, .list, .body] decls
        [(paragraphOf (words ++ [word]), place)]) := by
      rw [paragraphOf, paragraphOf, List.map_append]
      rfl
    refine ⟨_, Parser.feed_of_declined rfl rfl (.more hargument (.none _)) hvalue ?_,
      .writing _ position place hdecls⟩
    show 1 < limit
    omega

theorem newline (hlimit : 4 ≤ limit) (hshows : Shows limit (.writing done words) parser) :
    ∃ next, parser.feed .newline = .ok next ∧
      Shows limit (.writing (done ++ [words]) []) next := by
  cases hshows with
  | @writing _ decls _ position place hdecls =>
    refine ⟨_, Parser.feed_of_declined rfl rfl (declined_closing ⟨nofun, nofun⟩ rfl) rfl ?_,
      .writing [] position position ?_⟩
    · show 2 < limit
      omega
    · simp [standing, hdecls]

theorem opening (hshows : Shows limit .blank parser) :
    ∃ next, parser.feed .newline = .ok next ∧ Shows limit (.writing [] []) next := by
  cases hshows with
  | blank position =>
    exact ⟨_, Parser.feed_of_taken rfl rfl, .writing [] position position rfl⟩

theorem endOfData (hlimit : 4 ≤ limit) (hshows : Shows limit (.writing done words) parser) :
    ∃ next, parser.feed .endOfData = .ok next ∧ Shows limit (.ended (done ++ [words])) next := by
  cases hshows with
  | @writing _ decls _ position place hdecls =>
    have hlist : Parser.put .endOfData
        (standing limit position [.list, .body] (decls.push ⟨paragraphOf words, place⟩) []) =
      .ok (false,
        standing limit position [.body] (decls.push ⟨paragraphOf words, place⟩) []) := rfl
    have hclosing : Declined (Parser.put .endOfData) 2
        (standing limit position [.vector .paragraph, .reduce, .list, .body] decls
          [(paragraphOf words, place)])
        (standing limit position [.list, .body] (decls.push ⟨paragraphOf words, place⟩) []) :=
      declined_closing ⟨by decide, by decide⟩ rfl
    refine ⟨_, Parser.feed_of_declined rfl rfl (hclosing.concat hlist) rfl ?_, .ended position ?_⟩
    · show 3 < limit
      omega
    · simp [hdecls]

end Shows

/-! ## What items write -/

/-- What an item of a file makes of a page, where `Splices` says what included files make of it.
Only the end of the outermost file ends the page. -/
inductive Writes (Splices : String → Page → Page → Prop) (outermost : Bool) :
    Page → Item → Page → Prop where
  | opening : Writes Splices outermost .blank (.symbol .newline) (.writing [] [])
  | word {done : List (List Word)} {words : List Word} (word : Word) :
      Writes Splices outermost (.writing done words) word.item (.writing done (words ++ [word]))
  | newline {done : List (List Word)} {words : List Word} :
      Writes Splices outermost (.writing done words) (.symbol .newline)
        (.writing (done ++ [words]) [])
  | inclusion {path : String} {page next : Page} (hsplices : Splices path page next) :
      Writes Splices outermost page (.inclusion path) next
  | endOfFile {page : Page} (houtermost : outermost = false) :
      Writes Splices outermost page (.symbol .endOfData) page
  | endOfDocument {done : List (List Word)} {words : List Word} (houtermost : outermost = true) :
      Writes Splices outermost (.writing done words) (.symbol .endOfData)
        (.ended (done ++ [words]))

/-- What items make of a page, one after the other. -/
inductive WritesAll (Splices : String → Page → Page → Prop) (outermost : Bool) :
    Page → List Item → Page → Prop where
  | nil (page : Page) : WritesAll Splices outermost page [] page
  | cons {page between next : Page} {item : Item} {items : List Item}
      (hwrites : Writes Splices outermost page item between)
      (hrest : WritesAll Splices outermost between items next) :
      WritesAll Splices outermost page (item :: items) next

namespace WritesAll

variable {Splices : String → Page → Page → Prop} {outermost : Bool} {page next : Page}
  {items : List Item} {done : List (List Word)} {written : List Word}

/-- Words extend the paragraph. -/
theorem words (words : List Word)
    (hrest : WritesAll Splices outermost (.writing done (written ++ words)) items next) :
    WritesAll Splices outermost (.writing done written) (words.map Word.item ++ items) next := by
  induction words generalizing written with
  | nil => simpa using hrest
  | cons word words ih =>
    refine .cons (.word word) (ih ?_)
    simpa using hrest

/-- Line breaks start another paragraph if there are enough of them. -/
theorem breakItems (count : Nat)
    (hmany : 1 < count →
      WritesAll Splices outermost (.writing (done ++ [written]) []) items next)
    (hfew : ¬ 1 < count → WritesAll Splices outermost (.writing done written) items next) :
    WritesAll Splices outermost (.writing done written) (Mode.breakItems count ++ items) next := by
  unfold Mode.breakItems
  split
  · exact .cons .newline (hmany ‹_›)
  · exact hfew ‹_›

end WritesAll

/-! ## Feeding files -/

section

variable {m : Type → Type} [Monad m] [LawfulMonad m] {limit : Nat}
  {Splices : String → Page → Page → Prop} {outermost : Bool}
  {splice : String → Parser → ExceptT Fault m Parser}

section

variable (hlimit : 4 ≤ limit)
  (hsplice : ∀ path page next parser, Splices path page next → Shows limit page parser →
    Succeeds (Shows limit next) (splice path parser))

include hlimit hsplice

/-- The parser follows what an item writes. -/
theorem feedFile_writes_item {page next : Page} {item : Item}
    (hwrites : Writes Splices outermost page item next) {parser : Parser}
    (hshows : Shows limit page parser) :
    Succeeds (Shows limit next) (feedFile splice outermost [item] parser) := by
  have hfed {symbol : Symbol} (hkept : outermost = true ∨ symbol.kind ≠ .endOfData)
      (hfeed : ∃ last, parser.feed symbol = .ok last ∧ Shows limit next last) :
      Succeeds (Shows limit next) (feedFile splice outermost [.symbol symbol] parser) := by
    rw [feedFile_symbol hkept]
    exact .liftFault hfeed
  cases hwrites with
  | opening => exact hfed (.inr (by decide)) hshows.opening
  | word word => exact hfed (.inr nofun) (hshows.word hlimit word)
  | newline => exact hfed (.inr (by decide)) (hshows.newline hlimit)
  | inclusion hsplices =>
    rw [feedFile_inclusion]
    exact hsplice _ _ _ parser hsplices hshows
  | endOfFile houtermost =>
    subst houtermost
    rw [feedFile_endOfFile rfl]
    exact .pure hshows
  | endOfDocument houtermost => exact hfed (.inl houtermost) (hshows.endOfData hlimit)

/-- The parser follows what the items of a file write, whatever line marks stand between them. -/
theorem feedFile_writes {items : List Item} {page next : Page}
    (hwrites : WritesAll Splices outermost page (unmarked items) next) {parser : Parser}
    (hshows : Shows limit page parser) :
    Succeeds (Shows limit next) (feedFile splice outermost items parser) := by
  induction items generalizing page parser with
  | nil =>
    cases hwrites
    exact .pure hshows
  | cons item items ih =>
    rw [feedFile_cons]
    by_cases hmark : item.isLineMark = true
    · have hrest : unmarked (item :: items) = unmarked items := by simp [unmarked, hmark]
      rw [hrest] at hwrites
      cases item with
      | inclusion path => cases hmark
      | symbol symbol =>
        have hkind : symbol.kind = .lineMark := by simpa [Item.isLineMark] using hmark
        have hfed : Succeeds (Shows limit page)
            (feedFile splice outermost [.symbol symbol] parser) := by
          rw [feedFile_symbol (.inr (by simp [hkind]))]
          exact .liftFault (hshows.mark (.inr hkind))
        exact hfed.bind fun _ hshows => ih hwrites hshows
    · have hrest : unmarked (item :: items) = item :: unmarked items := by simp [unmarked, hmark]
      rw [hrest] at hwrites
      cases hwrites with
      | cons hitem hrest =>
        exact (feedFile_writes_item hlimit hsplice hitem hshows).bind fun _ hshows =>
          ih hrest hshows

end

/-- The finder answers the path with the text, under names of its own. -/
def SourceFinder.Holds (find : SourceFinder m) (path text : String) : Prop :=
  ∀ position, ∃ names : m String,
    find path position = (fun name => some ⟨name, text⟩) <$> names

/-- An included file of words extends the paragraph that it stands in. -/
theorem splice_shows {find : SourceFinder m} {path : String} {included : List Word}
    (hfind : find.Holds path (String.ofList (unwords included))) (hlimit : 4 ≤ limit)
    (maxIncludeDepth levels : Nat) {done : List (List Word)} {words : List Word} {parser : Parser}
    (hshows : Shows limit (.writing done words) parser) :
    Succeeds (Shows limit (.writing done (words ++ included)))
      (Document.splice find maxIncludeDepth (levels + 1) path parser) := by
  obtain ⟨names, hnames⟩ := hfind parser.position
  let answer (name : String) : {found : Option Source //
      ∃ name, found = some ⟨name, String.ofList (unwords included)⟩} := ⟨_, name, rfl⟩
  have hanswers : find path parser.position = Subtype.val <$> (answer <$> names) := by
    rw [hnames, Functor.map_map]
  refine (Succeeds.lift hanswers).bind ?_
  rintro _ ⟨name, rfl⟩
  have hmark {page : Page} {parser : Parser} {symbol : Symbol} (hshows : Shows limit page parser)
      (hkind : symbol.kind = .fileMark ∨ symbol.kind = .lineMark) :
      Succeeds (Shows limit page) (liftFault (m := m) (parser.feed symbol)) :=
    .liftFault (hshows.mark hkind)
  refine (hmark hshows (.inl rfl)).bind fun parser hshows => ?_
  obtain ⟨items, hlex, hitems⟩ := lexContinuation_unwords included
  have hwrites : WritesAll (fun _ _ _ => False) false (.writing done words) (unmarked items)
      (.writing done (words ++ included)) := by
    rw [hitems]
    exact .words included (.cons (.endOfFile rfl) (.nil _))
  refine .liftFault_bind hlex ?_
  refine (feedFile_writes hlimit (fun _ _ _ _ hfalse => hfalse.elim) hwrites hshows).bind
    fun parser hshows => ?_
  refine (hmark hshows (.inl rfl)).bind fun parser hshows => ?_
  exact hmark hshows (.inr rfl)

end

/-! ## Documents with an include directive -/

/-- The paragraphs of words around included words.  The line breaks before the include directive
decide whether the included words begin a paragraph.  Only if they do not, the line breaks behind
it decide whether the words behind it begin one. -/
def splitAround (before included after : List Word) (first second : Nat) : List (List Word) :=
  if 1 < first then [before, included ++ after]
  else if 1 < second then [before ++ included, after]
  else [before ++ included ++ after]

/-- What an include directive makes of a page. -/
def Extends (path : String) (included : List Word) (asked : String) (page next : Page) : Prop :=
  asked = path ∧ ∃ done words, page = .writing done words ∧ next = .writing done (words ++ included)

/-- The items of a document with an include directive write its paragraphs. -/
theorem writesAll_aroundInclusion (before : List Word) (first : Nat) (path : String)
    (second : Nat) (included after : List Word) :
    WritesAll (Extends path included) true .blank
      (.symbol .newline :: (before.map Word.item ++ (Mode.breakItems first ++ Item.inclusion path ::
        ((if 1 < first then [] else Mode.breakItems second) ++
          (after.map Word.item ++ [Item.symbol .endOfData])))))
      (.ended (splitAround before included after first second)) := by
  have hinclusion (done : List (List Word)) (words : List Word) :
      Writes (Extends path included) true (.writing done words) (.inclusion path)
        (.writing done (words ++ included)) :=
    .inclusion ⟨rfl, done, words, rfl, rfl⟩
  have hafter (done : List (List Word)) (words : List Word) :
      WritesAll (Extends path included) true (.writing done words)
        (after.map Word.item ++ [Item.symbol .endOfData]) (.ended (done ++ [words ++ after])) :=
    .words after (.cons (.endOfDocument rfl) (.nil _))
  refine .cons .opening (.words before (.breakItems first (fun hfirst => ?_) fun hfirst => ?_))
  · rw [if_pos hfirst, splitAround, if_pos hfirst]
    exact .cons (hinclusion _ _) (hafter _ _)
  · rw [if_neg hfirst, splitAround, if_neg hfirst]
    refine .cons (hinclusion _ _) (.breakItems second (fun hsecond => ?_) fun hsecond => ?_)
    · rw [if_pos hsecond]
      exact hafter _ _
    · rw [if_neg hsecond]
      exact hafter _ _

variable {m : Type → Type} [Monad m] [LawfulMonad m]

/-- A document of words with an include directive on lines of its own has the paragraphs
`splitAround` says, and nothing is wrong with it: a blank line behind the directive starts a
paragraph only if there is none before it. -/
theorem compile_aroundInclusion {find : SourceFinder m} {path : Word} {included : List Word}
    (hfind : find.Holds path.text (String.ofList (unwords included))) {options : Options}
    (hdepth : 1 ≤ options.maxIncludeDepth) (hlimit : 4 ≤ options.retryLimit) {before : List Word}
    (hbefore : before ≠ []) {first second : Nat} (hfirst : 0 < first) (hsecond : 0 < second)
    (after : List Word) (file : String) :
    Succeeds (fun document =>
        document.decls.map (·.node) =
          (splitAround before included after first second).map paragraphOf ∧
        document.diagnostics = [])
      (compile find options file
        (String.ofList (aroundInclusion before first path second after))) := by
  obtain ⟨items, hlex, hitems⟩ := lex_aroundInclusion hbefore hfirst hsecond path after
  have hsplice (asked : String) (page next : Page) (parser : Parser)
      (hextends : Extends path.text included asked page next)
      (hshows : Shows options.retryLimit page parser) : Succeeds (Shows options.retryLimit next)
        (splice find options.maxIncludeDepth options.maxIncludeDepth asked parser) := by
    obtain ⟨rfl, done, words, rfl, rfl⟩ := hextends
    obtain ⟨levels, hlevels⟩ := Nat.exists_eq_add_of_le' hdepth
    rw [hlevels]
    exact splice_shows hfind hlimit _ levels hshows
  have hwrites := writesAll_aroundInclusion before first path.text second included after
  rw [← hitems] at hwrites
  have hparse : Succeeds (fun result => result.1.map (·.node) =
      (splitAround before included after first second).map paragraphOf ∧ result.2 = [])
      (parse find options file
        (String.ofList (aroundInclusion before first path second after))) := by
    refine .liftFault_bind hlex ?_
    refine (feedFile_writes hlimit hsplice hwrites (.blank (.start file))).bind ?_
    intro parser hshows
    cases hshows with
    | ended position hdecls => exact .liftFault ⟨_, rfl, hdecls, rfl⟩
  refine hparse.bind fun ⟨decls, diagnostics⟩ ⟨hdecls, hdiagnostics⟩ => ?_
  have hcomplete : ∀ decl ∈ decls, decl.node.Complete := by
    intro decl hmem
    have hnode : decl.node ∈ decls.map (·.node) := List.mem_map_of_mem hmem
    rw [show decls.map (·.node) = _ from hdecls] at hnode
    obtain ⟨words, -, hwords⟩ := List.mem_map.1 hnode
    exact hwords ▸ complete_paragraphOf words
  exact .liftFault_bind (generate_of_complete options.annotate hcomplete)
    (.pure ⟨hdecls, hdiagnostics⟩)

/-- A finder that has the same text for every path, under a new name each time. -/
def sameText (text : String) : SourceFinder (StateM Nat) := fun path _ => do
  let count ← getModify (· + 1)
  return some ⟨path ++ toString count, text⟩

theorem sameText_holds (path text : String) : (sameText text).Holds path text :=
  fun _ => ⟨(fun count => path ++ toString count) <$> getModify (· + 1), rfl⟩

/-- A word of one letter. -/
def sampleWord (letter : Char) (hletter : letter.isAlpha = true) : Word :=
  .ofLetters [letter] (List.cons_ne_nil _ _) (List.forall_mem_singleton.2 hletter)

/-- Blank lines on both sides of an include directive: the words behind it follow the included
ones, while a blank line only behind it does start a paragraph. -/
theorem compile_aroundInclusion_sameText :
    (sameText "c d").Holds "p" "c d" ∧
    Succeeds (fun document =>
        document.decls.map (·.node) = [[sampleWord 'a' rfl],
          [sampleWord 'c' rfl, sampleWord 'd' rfl, sampleWord 'b' rfl]].map paragraphOf ∧
        document.diagnostics = [])
      (compile (sameText "c d") {} "m" "a\n\n.include(p)\n\nb") ∧
    Succeeds (fun document =>
        document.decls.map (·.node) = [[sampleWord 'a' rfl, sampleWord 'c' rfl, sampleWord 'd' rfl],
          [sampleWord 'b' rfl]].map paragraphOf ∧
        document.diagnostics = [])
      (compile (sameText "c d") {} "m" "a\n.include(p)\n\n\nb") := by
  have hfind := sameText_holds "p" "c d"
  have hpath : (sampleWord 'p' rfl).text = "p" := by decide +kernel
  have hincluded : String.ofList (unwords [sampleWord 'c' rfl, sampleWord 'd' rfl]) = "c d" := by
    decide +kernel
  have hfirst : String.ofList (aroundInclusion [sampleWord 'a' rfl] 2 (sampleWord 'p' rfl) 2
      [sampleWord 'b' rfl]) = "a\n\n.include(p)\n\nb" := by
    decide +kernel
  have hsecond : String.ofList (aroundInclusion [sampleWord 'a' rfl] 1 (sampleWord 'p' rfl) 3
      [sampleWord 'b' rfl]) = "a\n.include(p)\n\n\nb" := by
    decide +kernel
  refine ⟨hfind, ?_⟩
  rw [← hpath, ← hincluded] at hfind
  have hcompile {first second : Nat} (hfirst : 0 < first) (hsecond : 0 < second) :=
    compile_aroundInclusion hfind (show 1 ≤ ({} : Options).maxIncludeDepth by decide) (by decide)
      (List.cons_ne_nil (sampleWord 'a' rfl) []) hfirst hsecond [sampleWord 'b' rfl] "m"
  rw [← hfirst, ← hsecond, ← hincluded]
  exact ⟨hcompile Nat.two_pos Nat.two_pos, hcompile Nat.one_pos (Nat.succ_pos 2)⟩

/-- With blank lines on both sides of an include directive there are two paragraphs and not
three. -/
theorem compile_includeBetweenBlankLines : ∃ document : Compilation,
    (compile (m := Id) (fun _ _ => some ⟨"p", "c"⟩) {} "doc.ds" "a\n\n.include(p)\n\nb").run =
        .ok document ∧
      document.decls.map (·.node.leaves) = [["a"], ["c", "b"]] := by
  have hrun : (match (compile (m := Id) (fun _ _ => some ⟨"p", "c"⟩) {} "doc.ds"
        "a\n\n.include(p)\n\nb").run with
      | .ok document => decide (document.decls.map (·.node.leaves) = [["a"], ["c", "b"]])
      | .error _ => false) = true := by
    decide +kernel
  split at hrun
  · rename_i document hdocument
    exact ⟨document, hdocument, of_decide_eq_true hrun⟩
  · cases hrun

end Docpress.Document
