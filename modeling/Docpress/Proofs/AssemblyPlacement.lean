import Docpress.Proofs.Endings
import Docpress.Proofs.Placement
import Docpress.Proofs.Reports

/-!
# Where the items of assembly text come from

`Places` says how a lexer places a part of a text, so that texts can be placed part by part
(`Places.append`).  A line of assembly text is such a part, as the scanner is between words wherever
a line begins (`exists_place_line`).

`DirectiveLine` takes the items of a text apart at a line that is a directive with its argument.
-/

namespace Docpress

/-! ## Texts in parts -/

section

variable {σ : Type} {scan : σ → Token → Scan σ}

/-- The lexer places the tokens behind the text before them, and goes on as `next`. -/
structure Places (scan : σ → Token → Scan σ) (lexer : Lexer σ) (before : List Char)
    (tokens : List Token) (next : Lexer σ) (items : List Placed) : Prop where
  scans : ∃ raw, Scans scan lexer.scanner tokens next.scanner raw ∧
    LineMarked (items.map Placed.item) raw ∧ ∀ item ∈ raw, item.IsPlain
  marked : Marked lexer.reported items next.reported
  line : next.line = 1 + (before ++ tokens.flatMap Token.expand).count '\n'
  within : ∀ placed ∈ items, placed.token ∈ tokens ∧ before <+: placed.before ∧
    placed.before ++ placed.token.expand <+: before ++ tokens.flatMap Token.expand
  goesOn : ∀ more, lexer.placeAll scan before (tokens ++ more) =
    (items ++ ·) <$> next.placeAll scan (before ++ tokens.flatMap Token.expand) more

theorem isPlain_of_scans (hplain : ∀ state token, ∀ item ∈ (scan state token).items, item.IsPlain)
    {state state' : σ} {tokens : List Token} {raw : List Item}
    (hraw : Scans scan state tokens state' raw) : ∀ item ∈ raw, item.IsPlain :=
  hraw.forall_items (fun state token (_ : True) (_ : True) => ⟨trivial, hplain state token⟩)
    trivial fun _ _ => trivial

namespace Places

variable {lexer between next : Lexer σ} {before : List Char} {first second : List Token}
  {items more : List Placed}

theorem append (hfirst : Places scan lexer before first between items)
    (hsecond : Places scan between (before ++ first.flatMap Token.expand) second next more) :
    Places scan lexer before (first ++ second) next (items ++ more) where
  scans := by
    obtain ⟨raw, hscans, hmarked, hplain⟩ := hfirst.scans
    obtain ⟨raw', hscans', hmarked', hplain'⟩ := hsecond.scans
    exact ⟨raw ++ raw', hscans.append hscans', List.map_append ▸ hmarked.append hmarked',
      List.forall_mem_append.2 ⟨hplain, hplain'⟩⟩
  marked := hfirst.marked.append hsecond.marked
  line := by
    rw [hsecond.line, List.flatMap_append, List.append_assoc]
  within := by
    rw [List.forall_mem_append, List.flatMap_append, ← List.append_assoc]
    constructor
    · intro placed hmem
      obtain ⟨htoken, hbefore, hend⟩ := hfirst.within placed hmem
      exact ⟨List.mem_append_left _ htoken, hbefore, hend.trans (List.prefix_append _ _)⟩
    · intro placed hmem
      obtain ⟨htoken, hbefore, hend⟩ := hsecond.within placed hmem
      exact ⟨List.mem_append_right _ htoken, (List.prefix_append _ _).trans hbefore, hend⟩
  goesOn rest := by
    rw [List.append_assoc, hfirst.goesOn, hsecond.goesOn, ← comp_map, List.flatMap_append,
      ← List.append_assoc]
    simp only [Function.comp_def, List.append_assoc]

/-- The items of all tokens that the lexer is given. -/
theorem placeAll_eq (hplaces : Places scan lexer before first next items) :
    lexer.placeAll scan before first = .ok items := by
  have hplace : _ = Except.ok (items ++ []) := hplaces.goesOn []
  rwa [List.append_nil, List.append_nil] at hplace

/-- One token is placed where the lexer takes it. -/
theorem of_take {scanner : σ} {token : Token} {raw : List Item}
    (hline : lexer.line = 1 + before.count '\n')
    (hraw : Scans scan lexer.scanner [token] scanner raw) (hplain : ∀ item ∈ raw, item.IsPlain)
    (htake : lexer.take scan token =
      .ok (⟨scanner, lexer.line + token.lineFeeds, (markLines lexer.line lexer.reported raw).2⟩,
        (markLines lexer.line lexer.reported raw).1)) :
    Places scan lexer before [token]
      ⟨scanner, lexer.line + token.lineFeeds, (markLines lexer.line lexer.reported raw).2⟩
      ((markLines lexer.line lexer.reported raw).1.map (Placed.mk before token)) where
  scans := by
    refine ⟨raw, hraw, ?_, hplain⟩
    have hitems : ((markLines lexer.line lexer.reported raw).1.map (Placed.mk before token)).map
        Placed.item = (markLines lexer.line lexer.reported raw).1 := by
      rw [List.map_map]
      exact List.map_id _
    rw [hitems]
    exact lineMarked_markLines _ _ _
  marked := marked_markLines hline lexer.reported hplain
  line := by
    show lexer.line + token.lineFeeds = _
    rw [hline, List.flatMap_singleton, List.count_append, Token.count_expand, Nat.add_assoc]
  within := by
    rw [List.forall_mem_map, List.flatMap_singleton]
    exact fun _ _ => ⟨List.mem_cons_self, List.prefix_rfl, List.prefix_rfl⟩
  goesOn more := by
    rw [List.singleton_append, Lexer.placeAll_cons htake, List.flatMap_singleton]

/-- The items stand on the lines of their part, and so do the line feeds of their tokens. -/
theorem line_bounds (hplaces : Places scan lexer before first next items)
    (hline : lexer.line = 1 + before.count '\n') {placed : Placed} (hmem : placed ∈ items) :
    lexer.line ≤ placed.line ∧ placed.line + placed.token.lineFeeds ≤ next.line := by
  obtain ⟨-, hbefore, hend⟩ := hplaces.within placed hmem
  have hge := hbefore.sublist.count_le '\n'
  have hle := hend.sublist.count_le '\n'
  rw [List.count_append, Token.count_expand] at hle
  rw [hline, hplaces.line]
  unfold Placed.line
  omega

end Places

section

variable (patient : Patient scan)
  (hplain : ∀ state token, ∀ item ∈ (scan state token).items, item.IsPlain)

include patient hplain

theorem exists_places_token (token : Token) {lexer : Lexer σ} {before : List Char}
    (hline : lexer.line = 1 + before.count '\n') :
    ∃ next items, Places scan lexer before [token] next items := by
  obtain ⟨scanner, raw, hraw, htake⟩ := Lexer.take_eq_markLines patient lexer token
  exact ⟨_, _, .of_take hline hraw (isPlain_of_scans hplain hraw) htake⟩

/-- A patient scanner that hands on no marks of its own places every token. -/
theorem exists_places (tokens : List Token) {lexer : Lexer σ} {before : List Char}
    (hline : lexer.line = 1 + before.count '\n') :
    ∃ next items, Places scan lexer before tokens next items := by
  induction tokens generalizing lexer before with
  | nil =>
    refine ⟨lexer, [], ⟨[], .nil _, .nil, by simp⟩, .nil _, by simpa using hline, by simp,
      fun more => ?_⟩
    simp
  | cons token tokens ih =>
    obtain ⟨between, items, hfirst⟩ := exists_places_token patient hplain token hline
    obtain ⟨next, more, hsecond⟩ := ih hfirst.line
    exact ⟨next, items ++ more, hfirst.append hsecond⟩

end

end

/-- The first symbol of a line, behind the marks of the line. -/
theorem Marked.exists_first {reported last line : Nat} {items : List Placed}
    (hmarked : Marked reported items last) (hlines : ∀ placed ∈ items, placed.line = line)
    {symbol : Symbol} {rest : List Item}
    (hitems : unmarked (items.map Placed.item) = .symbol symbol :: rest)
    (hend : symbol.kind ≠ .endOfData) :
    ∃ (marks : List Placed) (placed : Placed) (tail : List Placed),
      items = marks ++ placed :: tail ∧ placed.item = .symbol symbol ∧
      (∀ mark ∈ marks, mark.item = .symbol (.lineMark line)) ∧ Marked line tail last ∧
      unmarked (tail.map Placed.item) = rest := by
  induction hmarked with
  | nil => simp at hitems
  | @mark reported last placed items hitem hrest ih =>
    rw [List.forall_mem_cons] at hlines
    rw [List.map_cons, hitem, unmarked_lineMark_cons] at hitems
    obtain ⟨marks, symbolAt, tail, rfl, hsymbol, hmarks, htail⟩ := ih hlines.2 hitems
    refine ⟨placed :: marks, symbolAt, tail, rfl, hsymbol, ?_, htail⟩
    rw [List.forall_mem_cons, hitem, hlines.1]
    exact ⟨rfl, hmarks⟩
  | @symbol reported last placed items symbol' hitem hplain hline hrest ih =>
    rw [List.forall_mem_cons] at hlines
    have hcons : unmarked ((placed :: items).map Placed.item) =
        .symbol symbol' :: unmarked (items.map Placed.item) := by
      simp [unmarked, hitem, Item.isLineMark, hplain.2]
    rw [hcons] at hitems
    cases hitems
    obtain rfl : reported = line := (hline hend).symm.trans hlines.1
    exact ⟨[], placed, items, rfl, hitem, by simp, hrest, rfl⟩
  | @inclusion reported last placed items path hitem hrest ih =>
    have hcons : unmarked ((placed :: items).map Placed.item) =
        .inclusion path :: unmarked (items.map Placed.item) := by
      simp [unmarked, hitem, Item.isLineMark]
    rw [hcons] at hitems
    cases hitems

theorem Item.IsPlain.isLineMark {item : Item} (hplain : item.IsPlain) :
    item.isLineMark = false := by
  cases item with
  | inclusion path => rfl
  | symbol symbol => exact decide_eq_false hplain.2

namespace Assembly

/-! ## Assembly text in parts -/

theorem Plain.isPlain {items : List Item} (hplain : Plain items) :
    ∀ item ∈ items, item.IsPlain := by
  intro item hmem
  obtain ⟨symbol, rfl, -, -, hmarks⟩ := hplain item hmem
  exact hmarks

/-- A run of characters is never read as a mark. -/
theorem isPlain_step_run (c : Char) (count : Nat) (mode : Mode) :
    ∀ item ∈ (mode.step (.run c count)).items, item.IsPlain := by
  by_cases hword : ∃ text, mode = .word text
  · obtain ⟨text, rfl⟩ := hword
    rcases plain_or_label_stepWord c count text with hplain | ⟨-, hlabel⟩
    · exact hplain.isPlain
    · rw [Mode.step, hlabel]
      simp [Mode.accept, Mode.symbol, Item.IsPlain]
  · exact (plain_step c count fun text hmode => hword ⟨text, hmode⟩).isPlain

/-- Nor is the end of the text, which finishes what is being read as a line break does. -/
theorem isPlain_step (mode : Mode) (token : Token) :
    ∀ item ∈ (mode.step token).items, item.IsPlain := by
  cases token with
  | run c count => exact isPlain_step_run c count mode
  | endOfText =>
    obtain ⟨items, hends⟩ := mode.exists_ends
    have hbreak : ∀ item ∈ items ++ [.symbol .newline], item.IsPlain :=
      (hends _ _ (.breaks Nat.one_pos)).forall_items
        (fun mode token (_ : True) (htoken : token = .run '\n' 1) =>
          ⟨trivial, htoken ▸ isPlain_step_run '\n' 1 mode⟩) trivial (by simp)
    have hend : ∀ item ∈ items ++ [.symbol .endOfData], item.IsPlain := by
      rw [List.forall_mem_append] at hbreak ⊢
      exact ⟨hbreak.1, by simp [Item.IsPlain, Symbol.endOfData]⟩
    have hscans := hends _ _ .endOfText
    generalize items ++ [Item.symbol .endOfData] = all at hend hscans
    cases hscans with
    | taken hscan _ | declined hscan _ =>
      rw [hscan]
      exact (List.forall_mem_append.1 hend).1

/-- Whole lines lead back between words. -/
theorem scans_wholeLines {front : List Char} (hfront : front = [] ∨ front.getLast? = some '\n') :
    ∃ raw, Scans Mode.step .start (Token.runs front) .start raw ∧ NoEnd raw ∧
      ∀ item ∈ raw.getLast?, item = .symbol .newline := by
  rcases hfront with rfl | hlast
  · exact ⟨[], .nil _, noEnd_nil, by simp⟩
  · obtain ⟨count, body, rfl, hbody⟩ := Token.exists_trailing_run '\n' front
    have hcount : 0 < count := by
      apply Nat.pos_of_ne_zero
      rintro rfl
      simp [hbody] at hlast
    obtain ⟨_, mode, before, _, hbefore, _⟩ :=
      Lexer.takeAll_eq_scans Mode.patient { scanner := Mode.start } (Token.runs body)
    obtain ⟨items, hends⟩ := mode.exists_ends
    have hnone : ([] : List Char).head? ≠ some '\n' := by simp
    have hruns := Token.runs_around hbody hnone hcount
    have hscans := hbefore.append (hends _ _ (.breaks hcount))
    rw [List.append_nil] at hruns
    change Token.runs _ = Token.runs body ++ [Token.run '\n' count] at hruns
    rw [← hruns] at hscans
    refine ⟨_, hscans, noEnd_of_scans hscans, ?_⟩
    rw [← List.append_assoc, List.getLast?_concat]
    simp

/-- Whole lines end behind every token of theirs. -/
theorem line_lt_of_mem_runs {front : List Char} (hfront : front = [] ∨ front.getLast? = some '\n')
    {placed : Placed} (htoken : placed.token ∈ Token.runs front)
    (hend : placed.before ++ placed.token.expand <+: front) :
    placed.line < 1 + front.count '\n' := by
  obtain ⟨c, count, hcount, hrun⟩ := Token.exists_of_mem_runs htoken
  obtain ⟨rest, rfl⟩ := hend
  have hne : placed.token.expand ++ rest ≠ [] := by
    simp [hrun, Token.expand, Nat.ne_of_gt hcount]
  have hbreak : '\n' ∈ placed.token.expand ++ rest := by
    rcases hfront with hnil | hlast
    · simp [hrun, Token.expand, Nat.ne_of_gt hcount] at hnil
    · rw [List.append_assoc, List.getLast?_append_of_ne_nil _ hne] at hlast
      exact List.mem_of_getLast? hlast
  have hpos := List.count_pos_iff.2 hbreak
  rw [List.append_assoc, List.count_append]
  unfold Placed.line
  omega

/-- Every token of an assembly text is placed. -/
theorem exists_places_text (tokens : List Token) :
    ∃ next items, Places Mode.step { scanner := .start } [] tokens next items :=
  exists_places Mode.patient isPlain_step tokens rfl

/-- Behind whole lines the scanner is between words, and the text goes on. -/
theorem places_wholeLines {front : List Char} (hfront : front = [] ∨ front.getLast? = some '\n')
    {next : Lexer Mode} {items : List Placed}
    (hplaces : Places Mode.step { scanner := .start } [] (Token.runs front) next items) :
    next.scanner = .start ∧ NoEnd (items.map Placed.item) ∧
      (∀ item ∈ (items.map Placed.item).getLast?, item = .symbol .newline) ∧
      ∀ placed ∈ items, placed.line < 1 + front.count '\n' := by
  obtain ⟨raw, hraw, hmarked, -⟩ := hplaces.scans
  obtain ⟨raw', hraw', hnoEnd, hlast⟩ := scans_wholeLines hfront
  obtain ⟨hbetween, rfl⟩ := hraw.unique hraw'
  refine ⟨hbetween, isEnd_of_unmarked hmarked.unmarked_eq hnoEnd, ?_, fun placed hmem => ?_⟩
  · rwa [hmarked.getLast?_eq]
  · obtain ⟨htoken, -, hend⟩ := hplaces.within placed hmem
    rw [List.nil_append, Token.flatMap_expand_runs] at hend
    exact line_lt_of_mem_runs hfront htoken hend

/-- A line is tokenized for itself, with the line breaks behind it in one token. -/
theorem runs_line {front line rest : List Char}
    (hfront : front = [] ∨ front.getLast? = some '\n') (hbreak : '\n' ∉ line) (hne : line ≠ [])
    (hrest : rest.head? ≠ some '\n') (count : Nat) :
    Token.runs (front ++ (line ++ '\n' :: (List.replicate count '\n' ++ rest))) =
      Token.runs front ++ (Token.runs line ++
        ([Token.run '\n' (count + 1)] ++ Token.runs rest)) := by
  obtain ⟨first, more, rfl⟩ := List.exists_cons_of_ne_nil hne
  have hlast : (front ++ first :: more).getLast? ≠ some '\n' := by
    rw [List.getLast?_append_of_ne_nil _ hne]
    exact fun h => hbreak (List.mem_of_getLast? h)
  have hapart : front.getLast? ≠ some first := by
    have hfirst : first ≠ '\n' := by
      rintro rfl
      exact hbreak List.mem_cons_self
    rcases hfront with rfl | hfront
    · simp
    · rw [hfront]
      simpa using Ne.symm hfirst
  have hparts : front ++ (first :: more ++ '\n' :: (List.replicate count '\n' ++ rest)) =
      front ++ first :: more ++ List.replicate (count + 1) '\n' ++ rest := by
    simp [List.replicate_succ]
  rw [hparts, Token.runs_around hlast hrest (Nat.succ_pos count), Token.runs_append hapart]
  simp

/-- A line in the middle of a text is placed for itself, between the lines before and behind it. -/
theorem exists_place_line {text : String} {front line rest : List Char} {symbols : List Symbol}
    (htext : dropReturns text.toList = front ++ (line ++ '\n' :: rest))
    (hfront : front = [] ∨ front.getLast? = some '\n') (hstands : StandsFor line symbols)
    {items : List Placed} (hplace : place Mode.step .start text = .ok items) :
    ∃ (earlier here later : List Placed) (reported between : Nat),
      items = earlier ++ here ++ later ∧ Marked reported here between ∧
      (∀ placed ∈ earlier, placed.line < 1 + front.count '\n') ∧
      (∀ placed ∈ here, placed.line = 1 + front.count '\n') ∧
      (∀ placed ∈ later, 1 + front.count '\n' < placed.line) ∧
      NoEnd (earlier.map Placed.item) ∧
      (∀ item ∈ (earlier.map Placed.item).getLast?, item = .symbol .newline) ∧
      unmarked (here.map Placed.item) = symbols.map Item.symbol ++ [.symbol .newline] := by
  obtain ⟨count, rest, rfl, hrest⟩ := Token.exists_leading_run '\n' rest
  obtain ⟨_, _, hline, -⟩ := hstands.head
  have hbreak : '\n' ∉ line := hstands.noBreak
  have hruns := runs_line hfront hbreak (by simp [hline]) hrest count
  -- the parts of the text, one behind the other
  have hplaces (tokens : List Token) {lexer : Lexer Mode} {before : List Char}
      (hline : lexer.line = 1 + before.count '\n') :
      ∃ next items, Places Mode.step lexer before tokens next items :=
    exists_places Mode.patient isPlain_step tokens hline
  obtain ⟨afterFront, earlier, hearlier⟩ := exists_places_text (Token.runs front)
  obtain ⟨afterLine, atLine, hatLine⟩ := hplaces (Token.runs line) hearlier.line
  obtain ⟨afterBreak, atBreak, hatBreak⟩ := hplaces [Token.run '\n' (count + 1)] hatLine.line
  obtain ⟨last, later, hlater⟩ := hplaces (Token.runs rest ++ [Token.endOfText]) hatBreak.line
  have hall := (hearlier.append (hatLine.append (hatBreak.append hlater))).placeAll_eq
  rw [place, Token.ofText_eq, ok_bind, htext, hruns] at hplace
  simp only [List.append_assoc] at hplace hall
  rw [hall] at hplace
  cases hplace
  -- the scanner is between words wherever a line begins
  obtain ⟨hbetween, hnoEnd, hlast, hearlierLine⟩ := places_wholeLines hfront hearlier
  obtain ⟨rawLine, hrawLine, hlineMarked, hlinePlain⟩ := hatLine.scans
  obtain ⟨rawBreak, hrawBreak, hbreakMarked, hbreakPlain⟩ := hatBreak.scans
  rw [hbetween] at hrawLine
  obtain ⟨-, hsymbols⟩ := (hrawLine.append hrawBreak).unique
    (hstands.scans_of_ends (.breaks (Nat.succ_pos count)))
  have hlineCount : line.count '\n' = 0 := List.count_eq_zero.2 hbreak
  have hbegins : afterFront.line = 1 + front.count '\n' := by
    rw [hearlier.line, List.nil_append, Token.flatMap_expand_runs]
  have hends : afterLine.line = 1 + front.count '\n' := by
    rw [hatLine.line, List.count_append, List.nil_append, Token.flatMap_expand_runs,
      Token.flatMap_expand_runs, hlineCount]
    rfl
  have hbreaks : (Token.run '\n' (count + 1)).lineFeeds = count + 1 := rfl
  have hfollows : afterBreak.line = afterLine.line + (count + 1) := by
    rw [hatBreak.line, List.count_append, List.flatMap_singleton, Token.count_expand, hbreaks,
      hatLine.line, Nat.add_assoc]
  refine ⟨earlier, atLine ++ atBreak, later, _, _, by simp,
    hatLine.marked.append hatBreak.marked, hearlierLine, ?_, fun placed hmem => ?_, hnoEnd, hlast,
    ?_⟩
  · rw [List.forall_mem_append]
    constructor
    · intro placed hmem
      obtain ⟨hge, hle⟩ := hatLine.line_bounds hearlier.line hmem
      omega
    · intro placed hmem
      obtain ⟨hge, hle⟩ := hatBreak.line_bounds hatLine.line hmem
      rw [List.mem_singleton.1 (hatBreak.within placed hmem).1, hbreaks] at hle
      omega
  · obtain ⟨hge, -⟩ := hlater.line_bounds hatBreak.line hmem
    omega
  · rw [List.map_append, unmarked_append, hlineMarked.unmarked_eq, hbreakMarked.unmarked_eq,
      ← unmarked_append, unmarked_eq_self, hsymbols]
    rw [List.forall_mem_append]
    exact ⟨fun item hmem => (hlinePlain item hmem).isLineMark,
      fun item hmem => (hbreakPlain item hmem).isLineMark⟩

/-! ## Lines that are directives -/

/-- The items of a text, taken apart at a line that is the directive `line` with its argument.  Line
marks may stand before both of them. -/
structure DirectiveLine (items : List Placed) (line : Nat) (argument : Symbol) where
  earlier : List Placed
  marks : List Placed
  directive : Placed
  more : List Placed
  argumentAt : Placed
  behind : List Placed
  items_eq : items = earlier ++ ((marks ++ [directive]) ++ (more ++ [argumentAt])) ++ behind
  earlier_line : ∀ placed ∈ earlier, placed.line < line
  here_line : ∀ placed ∈ (marks ++ [directive]) ++ (more ++ [argumentAt]), placed.line = line
  earlier_noEnd : NoEnd (earlier.map Placed.item)
  earlier_last : ∀ item ∈ (earlier.map Placed.item).getLast?, item = .symbol .newline
  marks_item : ∀ mark ∈ marks, mark.item = .symbol (.lineMark line)
  directive_item : directive.item = .symbol ⟨.directive, "line"⟩
  more_item : ∀ mark ∈ more, mark.item = .symbol (.lineMark line)
  argument_item : argumentAt.item = .symbol argument
  /-- further directives stand on other lines -/
  line_of_directive : ∀ placed ∈ behind,
    placed.item = .symbol ⟨.directive, "line"⟩ → line < placed.line

theorem exists_directiveLine {text : String} {front line rest : List Char} {argument : Symbol}
    (htext : dropReturns text.toList = front ++ (line ++ '\n' :: rest))
    (hfront : front = [] ∨ front.getLast? = some '\n')
    (hline : StandsFor line [⟨.directive, "line"⟩, argument])
    (hargument : argument.kind ≠ .endOfData) {items : List Placed}
    (hplace : place Mode.step .start text = .ok items) :
    Nonempty (DirectiveLine items (1 + front.count '\n') argument) := by
  obtain ⟨earlier, here, later, reported, between, rfl, hhere, hbefore, hat, hbehind, hnoEnd,
    hnewline, hsymbols⟩ := exists_place_line htext hfront hline hplace
  obtain ⟨marks, directive, tail, rfl, hdirective, hmarks, htail, hsymbols⟩ :=
    hhere.exists_first hat hsymbols (by simp)
  obtain ⟨more, argumentAt, final, rfl, hargumentAt, hmore, -, hsymbols⟩ :=
    htail.exists_first (fun placed hmem => hat placed (by simp [hmem])) hsymbols hargument
  have hparts : marks ++ directive :: (more ++ argumentAt :: final) =
      (marks ++ [directive]) ++ (more ++ [argumentAt]) ++ final := by simp
  rw [hparts, List.forall_mem_append] at hat
  refine ⟨{ earlier, marks, directive, more, argumentAt, behind := final ++ later
            items_eq := by simp
            earlier_line := hbefore
            here_line := hat.1
            earlier_noEnd := hnoEnd
            earlier_last := hnewline
            marks_item := hmarks
            directive_item := hdirective
            more_item := hmore
            argument_item := hargumentAt
            line_of_directive := List.forall_mem_append.2
              ⟨fun placed hmem hitem => ?_, fun placed hmem _ => hbehind placed hmem⟩ }⟩
  -- only the line break follows on the same line
  have hmem' : Item.symbol ⟨.directive, "line"⟩ ∈ unmarked (final.map Placed.item) :=
    List.mem_filter.2 ⟨List.mem_map.2 ⟨placed, hmem, hitem⟩, rfl⟩
  rw [hsymbols] at hmem'
  simp [Symbol.newline] at hmem'

/-! ## Whole texts -/

/-- The lines of the items are lines of the text. -/
theorem line_le_of_place {text : String} {items : List Placed}
    (hplace : place Mode.step .start text = .ok items) :
    ∀ placed ∈ items, placed.line ≤ 1 + text.toList.count '\n' := by
  rw [place, Token.ofText_eq, ok_bind] at hplace
  intro placed hmem
  have hcount := (Lexer.before_of_placeAll hplace placed hmem).sublist.count_le '\n'
  rw [List.nil_append, List.flatMap_append, Token.flatMap_expand_runs, List.count_append,
    List.count_append, count_dropReturns] at hcount
  have hend : [Token.endOfText].flatMap Token.expand = [] := rfl
  rw [hend, List.count_nil] at hcount
  unfold Placed.line
  omega

/-- The marks of a text tell the lines of its items. -/
theorem marked_of_place {text : String} {items : List Placed}
    (hplace : place Mode.step .start text = .ok items) : ∃ last, Marked 0 items last := by
  rw [place, Token.ofText_eq, ok_bind] at hplace
  obtain ⟨next, _, hplaces⟩ := exists_places_text
    (Token.runs (dropReturns text.toList) ++ [Token.endOfText])
  rw [hplaces.placeAll_eq] at hplace
  cases hplace
  exact ⟨next.reported, hplaces.marked⟩

/-- Assembly text is placed to its end. -/
theorem exists_place (text : String) :
    ∃ items, place Mode.step .start text = .ok items ∧ lex text = .ok (items.map Placed.item) ∧
      EndsOnce (items.map Placed.item) := by
  obtain ⟨_, hlex, hends⟩ := endsOnce_of_text text
  have hmap : _ = lex text := map_item_place Mode.start text
  cases hplace : place Mode.step .start text with
  | error fault =>
    rw [hplace, hlex] at hmap
    cases hmap
  | ok items =>
    rw [hplace, hlex] at hmap
    cases hmap
    exact ⟨items, rfl, hlex, hends⟩

end Assembly

end Docpress
