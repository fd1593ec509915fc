import Docpress.Proofs.Patience

/-!
# Plain words in documents

How the scanner of documents reads words that have nothing special in them, the line breaks
around them and an include directive.

The modes are followed first, without regard to what the scanner remembers: `Mode.scans_words`
reads words up to whatever ends them, `Mode.scans_inclusion` an include directive.
`Scanner.scans_of_mode` hands on what a run of modes yields, and `lex_of_scans` turns such a run
into the items of a text.  Here the scanner's memory of its last symbol comes in.  A paragraph
break is handed on unless the last symbol was one, and the symbols of an included file are none of
the scanner's own (`Scanner.handOnAll_around`).
-/

namespace Docpress.Document

open Token (runs)

/-! ## Words -/

/-- Whether the character stands for nothing but itself. -/
def isOrdinary (c : Char) : Bool :=
  !(Text.isBlank c || punctuation.contains c || ['.', '\'', '#', '-'].contains c || c.isDigit)

theorem ne_of_isOrdinary {c d : Char} (hc : isOrdinary c = true) (hd : isOrdinary d = false) :
    c ≠ d := by
  rintro rfl
  rw [hc] at hd
  cases hd

theorem classes_of_isOrdinary {c : Char} (hc : isOrdinary c = true) :
    Text.isBlank c = false ∧ punctuation.contains c = false ∧ c.isDigit = false := by
  simp only [isOrdinary, Bool.not_eq_true', Bool.or_eq_false_iff] at hc
  obtain ⟨⟨⟨hblank, hmark⟩, -⟩, hdigit⟩ := hc
  exact ⟨hblank, hmark, hdigit⟩

theorem isBlank_of_isOrdinary {c : Char} (hc : isOrdinary c = true) : Text.isBlank c = false :=
  (classes_of_isOrdinary hc).1

/-- Letters are ordinary. -/
theorem isOrdinary_of_isAlpha {c : Char} (hc : c.isAlpha = true) : isOrdinary c = true := by
  have hmarks (marks : List Char) (hmarks : marks.any Char.isAlpha = false) :
      marks.contains c = false := by
    rw [List.contains_eq_mem, decide_eq_false_iff_not]
    exact fun hmem => List.any_eq_false.1 hmarks c hmem hc
  have hrange : 65 ≤ c.toNat ∧ c.toNat ≤ 122 := by
    have hletter : (decide ('A'.val ≤ c.val ∧ c.val ≤ 'Z'.val) ||
        decide ('a'.val ≤ c.val) && decide (c.val ≤ 'z'.val)) = true := hc
    simp only [Bool.or_eq_true, Bool.and_eq_true, decide_eq_true_eq, UInt32.le_iff_toNat_le,
      Char.reduceVal, UInt32.reduceToNat, Char.toNat_val] at hletter
    omega
  have hblank : Text.isBlank c = false := by
    simp [Text.isBlank, Text.blanks, Text.CodeRange.contains]
    omega
  have hdigit : c.isDigit = false := by
    simp [Char.isDigit, UInt32.le_iff_toNat_le]
    omega
  rw [isOrdinary, hblank, hdigit, hmarks punctuation rfl, hmarks _ rfl]
  rfl

/-- A word of ordinary characters. -/
structure Word where
  chars : List Char
  ne_nil : chars ≠ []
  ordinary : ∀ c ∈ chars, isOrdinary c = true

/-- The words with single spaces between them. -/
def unwords : List Word → List Char
  | [] => []
  | [word] => word.chars
  | word :: rest => word.chars ++ ' ' :: unwords rest

namespace Word

/-- A word of letters. -/
def ofLetters (letters : List Char) (hne : letters ≠ [])
    (hletters : ∀ c ∈ letters, c.isAlpha = true) : Word :=
  ⟨letters, hne, fun c hmem => isOrdinary_of_isAlpha (hletters c hmem)⟩

variable (word : Word)

/-- The word as a text. -/
def text : String := String.ofList word.chars

/-- The symbol that the word is read as. -/
def item : Item := .symbol ⟨.text, word.text⟩

theorem exists_cons : ∃ c rest, word.chars = c :: rest ∧ isOrdinary c = true := by
  obtain ⟨c, rest, hchars⟩ := List.exists_cons_of_ne_nil word.ne_nil
  exact ⟨c, rest, hchars, word.ordinary c (by simp [hchars])⟩

theorem not_mem {c : Char} (hc : isOrdinary c = false) : c ∉ word.chars :=
  fun hmem => ne_of_isOrdinary (word.ordinary c hmem) hc rfl

theorem getLast?_ne {c : Char} (hc : isOrdinary c = false) : word.chars.getLast? ≠ some c :=
  fun hlast => word.not_mem hc (List.mem_of_getLast? hlast)

end Word

theorem isOrdinary_head_unwords (words : List Word) :
    ∀ c ∈ (unwords words).head?, isOrdinary c = true := by
  fun_cases unwords words with
  | case1 => simp
  | case2 word => exact fun c hc => word.ordinary c (List.mem_of_head? hc)
  | case3 word rest =>
    obtain ⟨c, more, hchars, hc⟩ := word.exists_cons
    simpa [hchars] using hc

theorem not_mem_unwords (words : List Word) {c : Char} (hc : isOrdinary c = false)
    (hspace : c ≠ ' ') : c ∉ unwords words := by
  fun_induction unwords words with
  | case1 => simp
  | case2 word => exact word.not_mem hc
  | case3 word rest _ ih => simp [word.not_mem hc, hspace, ih]

/-! ## Modes -/

namespace Mode

section

variable {c : Char} {count : Nat}

theorem step_start_ordinary (hc : isOrdinary c = true) :
    step .start (.run c count) = ⟨false, .word [], []⟩ := by
  have hne {d : Char} (hd : isOrdinary d = false) : ¬ c = d := ne_of_isOrdinary hc hd
  obtain ⟨hblank, hmark, hdigit⟩ := classes_of_isOrdinary hc
  have hline := hne (show isOrdinary '\n' = false by decide)
  have hdot := hne (show isOrdinary '.' = false by decide)
  have hsemicolon := hne (show isOrdinary ';' = false by decide)
  have hquote := hne (show isOrdinary '\'' = false by decide)
  have hhash := hne (show isOrdinary '#' = false by decide)
  have hminus := hne (show isOrdinary '-' = false by decide)
  simp only [step, stepStart, hline, hblank, hdot, hsemicolon, hquote, hhash, hminus, hdigit,
    hmark, false_and, if_false, Bool.false_eq_true]
  rfl

theorem isDelimiter_ordinary (hc : isOrdinary c = true) : isDelimiter (.run c count) = false := by
  have hdot : ¬ c = '.' := ne_of_isOrdinary hc (by decide)
  obtain ⟨hblank, hmark, -⟩ := classes_of_isOrdinary hc
  simp only [isDelimiter, hblank, hmark, beq_eq_false_iff_ne.2 hdot, Bool.or_false]

theorem collects_word (hc : isOrdinary c = true) (seen : List Char) :
    Scans.Collects step .word seen c count := by
  unfold Scans.Collects
  rw [step, stepWord]
  · rw [isDelimiter_ordinary hc]
    rfl
  · rintro more heq
    cases heq
    exact absurd hc (by decide)

/-- The path of an inclusion goes on up to a parenthesis or a line break. -/
theorem collects_path_of_ne (hparen : c ≠ ')') (hline : c ≠ '\n') (seen : List Char) :
    Scans.Collects step .path seen c count := by
  simp only [Scans.Collects, step, stepPath, Token.isRunOf, beq_eq_false_iff_ne.2 hparen,
    beq_eq_false_iff_ne.2 hline, reduceCtorEq, Bool.false_eq_true, or_self, if_false]
  rfl

theorem collects_path (hc : isOrdinary c = true) (seen : List Char) :
    Scans.Collects step .path seen c count :=
  collects_path_of_ne (ne_of_isOrdinary hc (by decide)) (ne_of_isOrdinary hc (by decide)) seen

end

/-- A word is read as a whole. -/
theorem scans_word (word : Word) : Scans step .start (runs word.chars) (.word word.chars) [] := by
  have hrest : Scans step (.word []) (runs word.chars) (.word word.chars) [] :=
    Scans.accumulate_of_forall Mode.word (fun seen c count hc _ => collects_word hc seen)
      word.ordinary
  obtain ⟨c, rest, hchars, hc⟩ := word.exists_cons
  rw [hchars] at hrest ⊢
  exact Scans.enter (fun count _ => step_start_ordinary hc) hrest

/-- The token ends a word, and no dot does. -/
def EndsWord (token : Token) : Prop := isDelimiter token = true ∧ token.isRunOf '.' = false

section

variable {token : Token} {tokens : List Token} {last : Mode} {items : List Item}

theorem step_word_of_endsWord (htoken : EndsWord token) (word : Word) :
    step (.word word.chars) token = ⟨false, .start, [word.item]⟩ := by
  have hflush : flush word.chars = [word.item] := by
    simp [flush, word.ne_nil, symbol, Word.item, Word.text]
  rw [step, stepWord]
  · rw [if_pos htoken.1, hflush]
    rfl
  · rintro more rfl
    exact absurd htoken.2 (by simp [Token.isRunOf])

/-- A word is handed on when a token ends it, which is then read as if there had been no word. -/
theorem scans_word_before (htoken : EndsWord token)
    (hrest : Scans step .start (token :: tokens) last items) (word : Word) :
    Scans step .start (runs word.chars ++ token :: tokens) last (word.item :: items) :=
  (scans_word word).append (.declined (step_word_of_endsWord htoken word) hrest)

/-- Words are handed on one by one. -/
theorem scans_words (htoken : EndsWord token)
    (hrest : Scans step .start (token :: tokens) last items) (words : List Word) :
    Scans step .start (runs (unwords words) ++ token :: tokens) last
      (words.map Word.item ++ items) := by
  fun_induction unwords words with
  | case1 => exact hrest
  | case2 word => exact scans_word_before htoken hrest word
  | case3 word rest _ ih =>
    have hruns : runs (word.chars ++ ' ' :: unwords rest) =
        runs word.chars ++ Token.run ' ' 1 :: runs (unwords rest) := by
      have hhead : (unwords rest).head? ≠ some ' ' := fun hhead =>
        absurd (isOrdinary_head_unwords rest ' ' hhead) (by decide)
      simpa using Token.runs_around (word.getLast?_ne (by decide)) hhead Nat.one_pos
    have hspace : EndsWord (.run ' ' 1) := ⟨by decide, by decide⟩
    rw [hruns, List.append_assoc, List.cons_append]
    have hskip : step .start (.run ' ' 1) = ⟨true, .start, []⟩ := rfl
    exact scans_word_before hspace (.taken hskip ih) word

end

/-- The symbol of a paragraph break, if there are line breaks enough for one. -/
def breakItems (count : Nat) : List Item := if 1 < count then [.symbol .newline] else []

/-- The first of the tokens is not blank. -/
def Opens (tokens : List Token) : Prop :=
  ∃ token rest, tokens = token :: rest ∧ token.isBlank = false

theorem opens_runs {c : Char} (hc : Text.isBlank c = false) (text : List Char)
    (tokens : List Token) : Opens (runs (c :: text) ++ tokens) := by
  obtain ⟨more, rest, hruns⟩ := Token.runsFrom_eq_cons c 1 text
  refine ⟨.run c (1 + more), rest ++ tokens, ?_, hc⟩
  rw [runs, hruns, List.cons_append]

theorem opens_words (words : List Word) : Opens (runs (unwords words) ++ [Token.endOfText]) := by
  have hhead := isOrdinary_head_unwords words
  cases hwords : unwords words with
  | nil => exact ⟨.endOfText, [], rfl, rfl⟩
  | cons c text =>
    rw [hwords] at hhead
    exact opens_runs (isBlank_of_isOrdinary (hhead c rfl)) text _

/-- Line breaks are over with the first token that is not blank. -/
theorem step_breaks_over (count : Nat) {token : Token} (htoken : token.isBlank = false) :
    step (.breaks count) token = ⟨false, .start, breakItems count⟩ := by
  have hline : token.isRunOf '\n' = false := by
    cases token with
    | endOfText => rfl
    | run c more =>
      have hblank : Text.isBlank '\n' = true := by decide
      apply beq_eq_false_iff_ne.2
      rintro rfl
      rw [Token.isBlank, hblank] at htoken
      cases htoken
  simp only [step, stepBreaks, hline, htoken, Bool.false_eq_true, if_false]
  rfl

theorem scans_lineBreaks (count : Nat) {tokens : List Token} (hopens : Opens tokens) {last : Mode}
    {items : List Item} (hrest : Scans step .start tokens last items) :
    Scans step .start (.run '\n' count :: tokens) last (breakItems count ++ items) := by
  obtain ⟨token, rest, rfl, htoken⟩ := hopens
  have hbreaks : step .start (.run '\n' count) = ⟨true, .breaks count, []⟩ := rfl
  exact (Scans.of_taken hbreaks).append (.declined (step_breaks_over count htoken) hrest)

/-- What stands before the path in an include directive. -/
def inclusionOpening : List Char := ".include(".toList

/-- The directive that includes the file for the path. -/
def inclusionText (path : Word) : List Char := inclusionOpening ++ (path.chars ++ [')'])

theorem trim_word (word : Word) : Text.trim word.chars = word.chars := by
  have hblank (c : Char) (hmem : c ∈ word.chars) : Text.isBlank c = false :=
    isBlank_of_isOrdinary (word.ordinary c hmem)
  have hkept {text : List Char} (htext : ∀ c ∈ text, Text.isBlank c = false) :
      text.dropWhile Text.isBlank = text := by
    cases text with
    | nil => rfl
    | cons c text => exact List.dropWhile_cons_of_neg (by simp [htext c])
  rw [Text.trim, hkept hblank, hkept (by simpa using hblank), List.reverse_reverse]

theorem scans_inclusionOpening : Scans step .start (runs inclusionOpening) (.path []) [] := by
  have hname : step (.directive ['i', 'n', 'c', 'l', 'u', 'd', 'e']) (.run '(' 1) =
    ⟨false, .inclusion, []⟩ := rfl
  have hparen : step .inclusion (.run '(' 1) = ⟨true, .path [], []⟩ := rfl
  iterate 8 refine Scans.of_taken_char rfl (by decide) ?_
  exact Scans.of_declined_taken hname hparen

theorem scans_path (path : Word) :
    Scans step (.path []) (runs (path.chars ++ [')'])) .start [.inclusion path.text] := by
  have hpath : Scans step (.path []) (runs path.chars) (.path path.chars) [] :=
    Scans.accumulate_of_forall Mode.path (fun seen c count hc _ => collects_path hc seen)
      path.ordinary
  have hclosing : step (.path path.chars) (.run ')' 1) =
      ⟨true, .start, [.inclusion path.text]⟩ := by
    rw [step, stepPath, trim_word]
    rfl
  exact hpath.meet (path.getLast?_ne (by decide)) (Scans.of_taken hclosing)

/-- An include directive asks for its file. -/
theorem scans_inclusion (path : Word) :
    Scans step .start (runs (inclusionText path)) .start [.inclusion path.text] := by
  have hlast : inclusionOpening.getLast? = some '(' := rfl
  have hpath := scans_path path
  obtain ⟨c, rest, hchars, hc⟩ := path.exists_cons
  rw [hchars] at hpath
  rw [inclusionText, hchars]
  refine scans_inclusionOpening.meet ?_ hpath
  rw [hlast]
  simpa using (ne_of_isOrdinary hc (by decide)).symm

/-- Words up to the end of a text. -/
theorem scans_text (words : List Word) :
    Scans step .start (runs (unwords words) ++ [Token.endOfText]) .start
      (words.map Word.item ++ [Item.symbol .endOfData]) :=
  scans_words ⟨rfl, rfl⟩ (.of_taken rfl) words

end Mode

/-- Words around an include directive, with line breaks in between. -/
def aroundInclusion (before : List Word) (first : Nat) (path : Word) (second : Nat)
    (after : List Word) : List Char :=
  unwords before ++ List.replicate first '\n' ++
    (Mode.inclusionText path ++ List.replicate second '\n' ++ unwords after)

section

variable {first second : Nat} (hfirst : 0 < first) (hsecond : 0 < second)

include hfirst hsecond

theorem runs_aroundInclusion (before : List Word) (path : Word) (after : List Word) :
    runs (aroundInclusion before first path second after) =
      runs (unwords before) ++ Token.run '\n' first ::
        (runs (Mode.inclusionText path) ++ Token.run '\n' second :: runs (unwords after)) := by
  have hword (words : List Word) : '\n' ∉ unwords words :=
    not_mem_unwords words (by decide) (by decide)
  rw [aroundInclusion, Token.runs_around ?_ ?_ hfirst, Token.runs_around ?_ ?_ hsecond]
  · rw [Mode.inclusionText, ← List.append_assoc, List.getLast?_concat]
    decide
  · exact fun hhead => hword after (List.mem_of_head? hhead)
  · exact fun hlast => hword before (List.mem_of_getLast? hlast)
  · exact nofun

theorem Mode.scans_aroundInclusion (before : List Word) (path : Word) (after : List Word) :
    Scans Mode.step .start
      (runs (aroundInclusion before first path second after) ++ [Token.endOfText]) .start
      (before.map Word.item ++ (breakItems first ++ Item.inclusion path.text ::
        (breakItems second ++ (after.map Word.item ++ [Item.symbol .endOfData])))) := by
  have htail := scans_lineBreaks second (opens_words after) (scans_text after)
  have hmiddle := (scans_inclusion path).append htail
  have hopens (tokens : List Token) : Opens (runs (inclusionText path) ++ tokens) :=
    opens_runs (c := '.') (by decide) _ tokens
  rw [runs_aroundInclusion hfirst hsecond, List.append_assoc, List.cons_append, List.append_assoc,
    List.cons_append]
  exact scans_words ⟨rfl, rfl⟩ (scans_lineBreaks first (hopens _) hmiddle) before

end

/-! ## Handing on -/

namespace Scanner

theorem handOnAll_append (scanner : Scanner) (first second : List Item) :
    scanner.handOnAll (first ++ second) =
      (((scanner.handOnAll first).1.handOnAll second).1,
        (scanner.handOnAll first).2 ++ ((scanner.handOnAll first).1.handOnAll second).2) := by
  induction first generalizing scanner with
  | nil => rfl
  | cons item items ih => simp only [List.cons_append, handOnAll, ih, List.append_assoc]

/-- What is handed on does not depend on the mode. -/
theorem handOn_mode (scanner : Scanner) (mode : Mode) (item : Item) :
    ({ scanner with mode } : Scanner).handOn item =
      ({ (scanner.handOn item).1 with mode }, (scanner.handOn item).2) := by
  unfold handOn
  split
  · rfl
  · dsimp only
    split <;> rfl

theorem handOnAll_mode (scanner : Scanner) (mode : Mode) (items : List Item) :
    ({ scanner with mode } : Scanner).handOnAll items =
      ({ (scanner.handOnAll items).1 with mode }, (scanner.handOnAll items).2) := by
  induction items generalizing scanner with
  | nil => rfl
  | cons item items ih => simp only [handOnAll, handOn_mode, ih]

/-- The scanner runs as its modes do, and hands on what they yield. -/
theorem scans_of_mode {mode last : Mode} {tokens : List Token} {raw : List Item}
    (hscans : Scans Mode.step mode tokens last raw) (scanner : Scanner)
    (hmode : scanner.mode = mode) :
    Scans scan scanner tokens { (scanner.handOnAll raw).1 with mode := last }
      (scanner.handOnAll raw).2 := by
  induction hscans generalizing scanner with
  | nil mode =>
    subst hmode
    exact .nil scanner
  | @taken _ next _ token _ items more hstep _ ih =>
    have hscan : scanner.scan token = ⟨true, { (scanner.handOnAll items).1 with mode := next },
        (scanner.handOnAll items).2⟩ := by
      simp only [scan, hmode, hstep]
    have hrest := ih { (scanner.handOnAll items).1 with mode := next } rfl
    rw [handOnAll_mode (scanner.handOnAll items).1 next more] at hrest
    rw [handOnAll_append]
    exact .taken hscan hrest
  | @declined _ next _ token _ items more hstep _ ih =>
    have hscan : scanner.scan token = ⟨false, { (scanner.handOnAll items).1 with mode := next },
        (scanner.handOnAll items).2⟩ := by
      simp only [scan, hmode, hstep]
    have hrest := ih { (scanner.handOnAll items).1 with mode := next } rfl
    rw [handOnAll_mode (scanner.handOnAll items).1 next more] at hrest
    rw [handOnAll_append]
    exact .declined hscan hrest

/-- Words are handed on as they are. -/
theorem handOnAll_words (mode : Mode) (words : List Word) :
    (Scanner.mk mode false (some .text)).handOnAll (words.map Word.item) =
      (⟨mode, false, some .text⟩, words.map Word.item) := by
  induction words with
  | nil => rfl
  | cons word words ih =>
    have hword : (Scanner.mk mode false (some .text)).handOn word.item =
      (⟨mode, false, some .text⟩, [word.item]) := rfl
    rw [List.map_cons, handOnAll, hword]
    simp only [ih, List.singleton_append]

/-- Behind the first symbol of a document, so are words up to the end. -/
theorem handOnAll_words_end {scanner : Scanner} (hfresh : scanner.fresh = false)
    (words : List Word) :
    (scanner.handOnAll (words.map Word.item ++ [Item.symbol .endOfData])).2 =
      words.map Word.item ++ [Item.symbol .endOfData] := by
  induction words generalizing scanner with
  | nil => simp [handOnAll, handOn, hfresh, Symbol.endOfData]
  | cons word words ih =>
    have hword : scanner.handOn word.item =
        ({ scanner with fresh := false, last := some .text }, [word.item]) := by
      simp [handOn, hfresh, Word.item]
    rw [List.map_cons, List.cons_append, handOnAll, hword]
    simp only [List.singleton_append, List.cons.injEq, true_and]
    exact ih rfl

/-- A paragraph break is handed on behind a word, -/
theorem handOnAll_breakItems (mode : Mode) (count : Nat) :
    (Scanner.mk mode false (some .text)).handOnAll (Mode.breakItems count) =
      (⟨mode, false, some (if 1 < count then .newline else .text)⟩, Mode.breakItems count) := by
  unfold Mode.breakItems
  split <;> rfl

/-- but not behind another one. -/
theorem handOnAll_breakItems_again (mode : Mode) (count : Nat) :
    (Scanner.mk mode false (some .newline)).handOnAll (Mode.breakItems count) =
      (⟨mode, false, some .newline⟩, []) := by
  unfold Mode.breakItems
  split <;> rfl

/-- A document that begins with words begins with a paragraph.  Of the two paragraph breaks around
an include directive the second is dropped, since nothing was handed on since the first. -/
theorem handOnAll_around {before : List Word} (hbefore : before ≠ []) (first : Nat)
    (path : String) (second : Nat) (after : List Word) :
    (initial.handOnAll (before.map Word.item ++ (Mode.breakItems first ++ Item.inclusion path ::
        (Mode.breakItems second ++ (after.map Word.item ++ [Item.symbol .endOfData]))))).2 =
      .symbol .newline :: (before.map Word.item ++ (Mode.breakItems first ++ Item.inclusion path ::
        ((if 1 < first then [] else Mode.breakItems second) ++
          (after.map Word.item ++ [Item.symbol .endOfData])))) := by
  obtain ⟨word, words, rfl⟩ := List.exists_cons_of_ne_nil hbefore
  have hopening : initial.handOn word.item =
    (⟨.start, false, some .text⟩, [.symbol .newline, word.item]) := rfl
  have hafter (scanner : Scanner) (hfresh : scanner.fresh = false) :=
    handOnAll_words_end hfresh after
  have hinclusion (scanner : Scanner) : scanner.handOn (.inclusion path) =
    (scanner, [.inclusion path]) := rfl
  generalize after.map Word.item ++ [Item.symbol .endOfData] = rest at hafter ⊢
  simp only [List.map_cons, List.cons_append, List.nil_append, handOnAll, hopening, hinclusion,
    handOnAll_append, handOnAll_words, handOnAll_breakItems]
  by_cases hfirst : 1 < first
  · simp only [hfirst, if_true, handOnAll_breakItems_again, hafter]
  · simp only [hfirst, if_false, handOnAll_breakItems, hafter]

end Scanner

/-- A run of the modes on a text gives the items of the text, line marks set aside. -/
theorem lex_of_scans (start : Scanner) {text : List Char} (htext : '\r' ∉ text) {last : Mode}
    {raw : List Item}
    (hscans : Scans Mode.step start.mode (runs text ++ [Token.endOfText]) last raw) :
    ∃ items, Docpress.lex Scanner.scan start (String.ofList text) = .ok items ∧
      unmarked items = unmarked (start.handOnAll raw).2 := by
  obtain ⟨items, _, handed, hlex, hhanded, hitems⟩ :=
    lex_eq_scans Scanner.patient start (String.ofList text)
  rw [String.toList_ofList, dropReturns_of_not_mem htext] at hhanded
  obtain ⟨-, rfl⟩ := hhanded.unique (Scanner.scans_of_mode hscans start rfl)
  exact ⟨items, hlex, hitems⟩

theorem isLineMark_words (words : List Word) :
    ∀ item ∈ words.map Word.item, item.isLineMark = false :=
  List.forall_mem_map.2 fun _ _ => rfl

theorem isLineMark_breakItems (count : Nat) :
    ∀ item ∈ Mode.breakItems count, item.isLineMark = false := by
  unfold Mode.breakItems
  split
  · exact List.forall_mem_singleton.2 rfl
  · simp

/-- Words that continue a document are its items. -/
theorem lexContinuation_unwords (words : List Word) :
    ∃ items, lexContinuation (String.ofList (unwords words)) = .ok items ∧
      unmarked items = words.map Word.item ++ [Item.symbol .endOfData] := by
  obtain ⟨items, hlex, hitems⟩ := lex_of_scans .continuation
    (not_mem_unwords words (by decide) (by decide)) (Mode.scans_text words)
  refine ⟨items, hlex, ?_⟩
  rw [hitems, Scanner.handOnAll_words_end rfl, unmarked_eq_self]
  rw [List.forall_mem_append, List.forall_mem_singleton]
  exact ⟨isLineMark_words words, rfl⟩

/-- The items of a document with an include directive between its words. -/
theorem lex_aroundInclusion {before : List Word} (hbefore : before ≠ []) {first second : Nat}
    (hfirst : 0 < first) (hsecond : 0 < second) (path : Word) (after : List Word) :
    ∃ items, lex (String.ofList (aroundInclusion before first path second after)) = .ok items ∧
      unmarked items = Item.symbol .newline :: (before.map Word.item ++
        (Mode.breakItems first ++ Item.inclusion path.text ::
          ((if 1 < first then [] else Mode.breakItems second) ++
            (after.map Word.item ++ [Item.symbol .endOfData])))) := by
  have hreturns : '\r' ∉ aroundInclusion before first path second after := by
    have hwords (words : List Word) : '\r' ∉ unwords words :=
      not_mem_unwords words (by decide) (by decide)
    have hpath : '\r' ∉ path.chars := path.not_mem (by decide)
    have hopening : '\r' ∉ Mode.inclusionOpening := by decide
    simp [aroundInclusion, Mode.inclusionText, hwords, hpath, hopening, List.mem_replicate]
  obtain ⟨items, hlex, hitems⟩ := lex_of_scans .initial hreturns
    (Mode.scans_aroundInclusion hfirst hsecond before path after)
  refine ⟨items, hlex, ?_⟩
  rw [hitems, Scanner.handOnAll_around hbefore, unmarked_eq_self]
  simp only [List.forall_mem_cons, List.forall_mem_append]
  have hsecond : ∀ item ∈ if 1 < first then [] else Mode.breakItems second,
      item.isLineMark = false := by
    split
    · simp
    · exact isLineMark_breakItems second
  exact ⟨rfl, isLineMark_words before, isLineMark_breakItems first, rfl, hsecond,
    isLineMark_words after, rfl, List.forall_mem_nil _⟩

end Docpress.Document
