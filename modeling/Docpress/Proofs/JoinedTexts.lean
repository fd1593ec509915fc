import Docpress.Proofs.LineComposition
import Docpress.Proofs.LineNumbering

/-!
# Texts with a line break between them

In a text that is made of two texts with a line break between them, the items of both are found
again, those of the second one further down (`exists_place_joined`).  `Placed.Lowered` says what
that is for an item, `Lexer.Lowered` for a lexer, and `Numbering.Lowered` for the numbers of the
lines.  A number that fits further down fits, so both texts are assembled if the whole text is, and
what they declare is what it declares (`assemble_lines`).

The converse does not hold: the first text may leave a shift with which the lines of the second one
have no numbers.
-/

namespace Docpress

/-! ## Further down -/

/-- One item is the other one on a line that is further down.  Line marks tell the line. -/
structure Placed.Lowered (offset : Nat) (placed lowered : Placed) : Prop where
  line : lowered.line = placed.line + offset
  item : lowered.item = placed.item ∨
    placed.item.isLineMark = true ∧ lowered.item.isLineMark = true

section

variable {σ : Type} {scan : σ → Token → Scan σ} {offset : Nat}

/-- One lexer is the other one further down.  Either both have reported the line or none has. -/
structure Lexer.Lowered (offset : Nat) (lexer lowered : Lexer σ) : Prop where
  scanner : lowered.scanner = lexer.scanner
  line : lowered.line = lexer.line + offset
  reported : lowered.reported = lexer.reported + offset ∨
    lexer.reported < lexer.line ∧ lowered.reported < lowered.line

/-- Marks stand at the same places if the line is reported in both or in none. -/
theorem markLines_lowered {line reported other : Nat}
    (hreported : line = reported ↔ line + offset = other) (raw : List Item) :
    List.Forall₂ (fun item lowered => lowered = item ∨
        item.isLineMark = true ∧ lowered.isLineMark = true)
      (markLines line reported raw).1 (markLines (line + offset) other raw).1 ∧
    ((markLines line reported raw).2 = reported ∧ (markLines (line + offset) other raw).2 = other ∨
      (markLines line reported raw).2 = line ∧
        (markLines (line + offset) other raw).2 = line + offset) := by
  induction raw generalizing reported other with
  | nil => exact ⟨.nil, .inl ⟨rfl, rfl⟩⟩
  | cons item raw ih =>
    cases item with
    | inclusion path => exact ⟨.cons (.inl rfl) (ih hreported).1, (ih hreported).2⟩
    | symbol symbol =>
      simp only [markLines, ne_eq, ← hreported]
      split
      · obtain ⟨hitems, hlast⟩ := @ih line (line + offset) (by simp)
        exact ⟨.cons (.inr ⟨rfl, rfl⟩) (.cons (.inl rfl) hitems), .inr (by simpa using hlast)⟩
      · exact ⟨.cons (.inl rfl) (ih hreported).1, (ih hreported).2⟩

namespace Lexer.Lowered

variable {lexer lowered : Lexer σ} {before start : List Char}

theorem take (patient : Patient scan) (hlowered : Lowered offset lexer lowered) (token : Token)
    (hbefore : start.count '\n' = before.count '\n' + offset) :
    ∃ next items next' items', lexer.take scan token = .ok (next, items) ∧
      lowered.take scan token = .ok (next', items') ∧ Lowered offset next next' ∧
      List.Forall₂ (Placed.Lowered offset) (items.map (Placed.mk before token))
        (items'.map (Placed.mk start token)) := by
  obtain ⟨next, raw, hraw, htake⟩ := take_eq_markLines patient lexer token
  obtain ⟨next', raw', hraw', htake'⟩ := take_eq_markLines patient lowered token
  rw [hlowered.scanner] at hraw'
  obtain ⟨rfl, rfl⟩ := hraw.unique hraw'
  have hreported : lexer.line = lexer.reported ↔ lexer.line + offset = lowered.reported := by
    have hline := hlowered.line
    rcases hlowered.reported with hreported | hreported <;> omega
  obtain ⟨hitems, hlast⟩ := markLines_lowered hreported raw
  rw [hlowered.line] at htake'
  refine ⟨_, _, _, _, htake, htake', ⟨rfl, ?_, ?_⟩, ?_⟩
  · dsimp only
    omega
  · have hreported := hlowered.reported
    have hline := hlowered.line
    dsimp only
    omega
  · rw [List.forall₂_map_left_iff, List.forall₂_map_right_iff]
    refine hitems.imp fun item other hitem => ⟨?_, hitem⟩
    show 1 + start.count '\n' = 1 + before.count '\n' + offset
    omega

theorem placeAll (patient : Patient scan) (hlowered : Lowered offset lexer lowered)
    (tokens : List Token) (hbefore : start.count '\n' = before.count '\n' + offset) :
    ∃ items items', lexer.placeAll scan before tokens = .ok items ∧
      lowered.placeAll scan start tokens = .ok items' ∧
      List.Forall₂ (Placed.Lowered offset) items items' := by
  induction tokens generalizing lexer lowered before start with
  | nil => exact ⟨[], [], rfl, rfl, .nil⟩
  | cons token tokens ih =>
    obtain ⟨next, items, next', items', htake, htake', hnext, hitems⟩ :=
      hlowered.take patient token hbefore
    have hfeeds : (start ++ token.expand).count '\n' =
        (before ++ token.expand).count '\n' + offset := by
      rw [List.count_append, List.count_append]
      omega
    obtain ⟨more, more', hplace, hplace', hmore⟩ := ih hnext hfeeds
    refine ⟨_, _, ?_, ?_, List.rel_append hitems hmore⟩
    · rw [placeAll_cons htake, hplace]
      rfl
    · rw [placeAll_cons htake', hplace']
      rfl

end Lexer.Lowered

end

namespace Assembly

/-! ## The items of both texts -/

/-- At a line end the lexer finishes what it is in the middle of. -/
theorem take_lineEnd {lexer : Lexer Mode} {items : List Item} (hends : Ends lexer.scanner items)
    {token : Token} {symbol : Symbol} (hline : EndsLine token symbol) :
    lexer.take Mode.step token =
      .ok (⟨.start, lexer.line + token.lineFeeds,
          (markLines lexer.line lexer.reported (items ++ [Item.symbol symbol])).2⟩,
        (markLines lexer.line lexer.reported (items ++ [Item.symbol symbol])).1) := by
  obtain ⟨next, raw, hraw, htake⟩ := Lexer.take_eq_markLines Mode.patient lexer token
  obtain ⟨rfl, rfl⟩ := hraw.unique (hends token symbol hline)
  exact htake

/-- The end of the text needs no mark. -/
theorem placeAll_end {lexer : Lexer Mode} {items : List Item} (hends : Ends lexer.scanner items)
    (before : List Char) :
    lexer.placeAll Mode.step before [Token.endOfText] =
      .ok ((markLines lexer.line lexer.reported items).1.map (Placed.mk before .endOfText) ++
        [⟨before, .endOfText, .symbol .endOfData⟩]) := by
  rw [Lexer.placeAll_cons (take_lineEnd hends .endOfText), markLines_append]
  simp [markLines, Symbol.endOfData, Lexer.placeAll]

theorem lowered_token (before : List Char) (token other : Token) (items : List Item) :
    List.Forall₂ (Placed.Lowered 0) (items.map (Placed.mk before token))
      (items.map (Placed.mk before other)) := by
  rw [List.forall₂_map_left_iff, List.forall₂_map_right_iff, List.forall₂_same]
  exact fun item _ => ⟨rfl, .inl rfl⟩

/-- The token for line breaks, if there are any. -/
def breakTokens (count : Nat) : List Token :=
  if count = 0 then [] else [.run '\n' count]

theorem runs_trailing {text : List Char} (hlast : text.getLast? ≠ some '\n') (count : Nat) :
    Token.runs (text ++ List.replicate count '\n') = Token.runs text ++ breakTokens count := by
  rcases Nat.eq_zero_or_pos count with rfl | hpos
  · simp [breakTokens]
  · have hnone : ([] : List Char).head? ≠ some '\n' := by simp
    have hruns := Token.runs_around hlast hnone hpos
    rw [List.append_nil] at hruns
    rw [hruns, breakTokens, if_neg (Nat.ne_of_gt hpos)]
    rfl

theorem runs_leading {text : List Char} (hhead : text.head? ≠ some '\n') (count : Nat) :
    Token.runs (List.replicate count '\n' ++ text) = breakTokens count ++ Token.runs text := by
  rcases Nat.eq_zero_or_pos count with rfl | hpos
  · simp [breakTokens]
  · have hnone : ([] : List Char).getLast? ≠ some '\n' := by simp
    have hruns := Token.runs_around hnone hhead hpos
    rw [List.nil_append] at hruns
    rw [hruns, breakTokens, if_neg (Nat.ne_of_gt hpos)]
    rfl

/-- The items at the end of a text are found again if line breaks follow instead. -/
theorem exists_placeAll_trailing {lexer : Lexer Mode} {items : List Item}
    (hends : Ends lexer.scanner items) (before : List Char) (trailing : Nat) (other : Token) :
    ∃ (one : List Placed) (ending : Placed) (whole : List Placed),
      lexer.placeAll Mode.step before (breakTokens trailing ++ [Token.endOfText]) =
        .ok (one ++ [ending]) ∧
      ending.item = .symbol .endOfData ∧ List.Forall₂ (Placed.Lowered 0) one whole ∧
      whole <+: (markLines lexer.line lexer.reported (items ++ [Item.symbol .newline])).1.map
        (Placed.mk before other) := by
  rcases Nat.eq_zero_or_pos trailing with rfl | hpos
  · refine ⟨_, _, _, placeAll_end hends before, rfl, lowered_token before .endOfText other _, ?_⟩
    rw [markLines_append, List.map_append]
    exact List.prefix_append _ _
  · have hplace := Lexer.placeAll_cons (take_lineEnd hends (.breaks hpos)) before [Token.endOfText]
    rw [placeAll_end ends_start] at hplace
    rw [breakTokens, if_neg (Nat.ne_of_gt hpos)]
    exact ⟨_, _, _, hplace, rfl, lowered_token before (.run '\n' trailing) other _,
      List.prefix_rfl⟩

/-- The items of the line breaks at the start of a text. -/
def leadingItems (count : Nat) : List Placed :=
  if count = 0 then []
  else [.symbol (.lineMark 1), .symbol .newline].map (Placed.mk [] (.run '\n' count))

/-- What follows the line breaks at the start of a text is found again further down. -/
theorem exists_placeAll_leading {leading : Nat} (tokens : List Token) {lowered : Lexer Mode}
    {start : List Char} (hscanner : lowered.scanner = .start)
    (hline : lowered.line = 1 + start.count '\n') (hcount : leading ≤ start.count '\n')
    (hreported : lowered.reported < lowered.line) :
    ∃ other whole,
      ({ scanner := .start } : Lexer Mode).placeAll Mode.step [] (breakTokens leading ++ tokens) =
        .ok (leadingItems leading ++ other) ∧
      lowered.placeAll Mode.step start tokens = .ok whole ∧
      List.Forall₂ (Placed.Lowered (start.count '\n' - leading)) other whole := by
  have hlowered {reported : Nat} (hbelow : reported < 1 + leading) :
      Lexer.Lowered (start.count '\n' - leading) (⟨.start, 1 + leading, reported⟩ : Lexer Mode)
        lowered :=
    ⟨hscanner, by dsimp only; omega, .inr ⟨hbelow, hreported⟩⟩
  have hbefore : start.count '\n' =
      (List.replicate leading '\n').count '\n' + (start.count '\n' - leading) := by
    rw [List.count_replicate_self]
    omega
  rcases Nat.eq_zero_or_pos leading with rfl | hpos
  · exact (hlowered Nat.zero_lt_one).placeAll Mode.patient tokens hbefore
  · obtain ⟨other, whole, hother, hwhole, hitems⟩ :=
      (@hlowered 1 (by omega)).placeAll Mode.patient tokens hbefore
    refine ⟨other, whole, ?_, hwhole, hitems⟩
    have htake : Lexer.take Mode.step { scanner := .start } (.run '\n' leading) =
        .ok (⟨.start, 1 + leading, 1⟩, [.symbol (.lineMark 1), .symbol .newline]) :=
      @take_lineEnd { scanner := .start } [] ends_start _ _ (.breaks hpos)
    rw [breakTokens, leadingItems, if_neg (Nat.ne_of_gt hpos), if_neg (Nat.ne_of_gt hpos),
      List.singleton_append, Lexer.placeAll_cons htake]
    show _ <$> Lexer.placeAll Mode.step _ (List.replicate leading '\n') tokens = _
    rw [hother]
    rfl

/-- Behind a line break the line is reported. -/
theorem markLines_concat_newline (line reported : Nat) (items : List Item) :
    (markLines line reported (items ++ [Item.symbol .newline])).2 = line := by
  rw [markLines_append]
  generalize (markLines line reported items).2 = reported
  by_cases hreported : line = reported
  · simp [markLines, hreported]
  · simp [markLines, hreported, Symbol.newline]

/-- Line breaks are placed behind what they finish. -/
theorem places_lineBreaks {lexer : Lexer Mode} {before : List Char} {items : List Item}
    (hline : lexer.line = 1 + before.count '\n') (hends : Ends lexer.scanner items) {count : Nat}
    (hcount : 0 < count) :
    Places Mode.step lexer before [Token.run '\n' count] ⟨.start, lexer.line + count, lexer.line⟩
      ((markLines lexer.line lexer.reported (items ++ [Item.symbol .newline])).1.map
        (Placed.mk before (.run '\n' count))) := by
  have hscans := hends _ _ (.breaks hcount)
  have hplaces := Places.of_take hline hscans (isPlain_of_scans isPlain_step hscans)
    (take_lineEnd hends (.breaks hcount))
  rwa [markLines_concat_newline] at hplaces

/-- The items of two texts are found again in the text that has a line break between them. -/
theorem exists_place_joined {first : String} (hlast : first.toList.getLast? ≠ some '\r')
    (second : String) :
    ∃ (one : List Placed) (ending : Placed) (count : Nat) (other front lowered : List Placed)
      (offset : Nat),
      place Mode.step .start first = .ok (one ++ [ending]) ∧
      place Mode.step .start second = .ok (leadingItems count ++ other) ∧
      place Mode.step .start (first ++ "\n" ++ second) = .ok (front ++ lowered) ∧
      ending.item = .symbol .endOfData ∧
      (∃ whole, whole <+: front ∧ List.Forall₂ (Placed.Lowered 0) one whole) ∧
      List.Forall₂ (Placed.Lowered offset) other lowered ∧
      NoEnd (front.map Placed.item) ∧
      ∀ item ∈ (front.map Placed.item).getLast?, item = Item.symbol .newline := by
  obtain ⟨trailing, body, hbody, hbodyLast⟩ :=
    Token.exists_trailing_run '\n' (dropReturns first.toList)
  obtain ⟨leading, rest, hrest, hrestHead⟩ :=
    Token.exists_leading_run '\n' (dropReturns second.toList)
  -- the line breaks around the end of the first text are one token
  obtain ⟨count, hcount⟩ : ∃ count, count = trailing + (leading + 1) := ⟨_, rfl⟩
  have hpos : 0 < count := by omega
  have htext : dropReturns (first ++ "\n" ++ second).toList =
      body ++ List.replicate count '\n' ++ rest := by
    have hjoined := dropReturns_append_lineFeed hlast second.toList
    rw [hbody, hrest] at hjoined
    rw [hcount, List.replicate_add, List.replicate_succ]
    simpa using hjoined
  obtain ⟨lexer, items, hplaces⟩ := exists_places_text (Token.runs body)
  obtain ⟨ends, hends⟩ := lexer.scanner.exists_ends
  have hwhole := hplaces.append (places_lineBreaks hplaces.line hends hpos)
  have hline := hplaces.line
  rw [List.nil_append, Token.flatMap_expand_runs] at hwhole hline
  obtain ⟨one, ending, found, hone, hending, hfound, hwithin⟩ :=
    exists_placeAll_trailing hends body trailing (.run '\n' count)
  have hfeeds : (body ++ List.replicate count '\n').count '\n' = body.count '\n' + count := by
    rw [List.count_append, List.count_replicate_self]
  obtain ⟨other, lowered, hother, hlowered, hitems⟩ := @exists_placeAll_leading leading
    (Token.runs rest ++ [Token.endOfText]) ⟨.start, lexer.line + count, lexer.line⟩
    (body ++ List.replicate count '\n') rfl (by dsimp only; omega) (by omega) (by dsimp only; omega)
  have hlastBreak : (body ++ List.replicate count '\n').getLast? = some '\n' := by
    rw [List.getLast?_append, List.getLast?_replicate, if_neg (Nat.ne_of_gt hpos)]
    rfl
  have hruns := runs_trailing hbodyLast count
  rw [breakTokens, if_neg (Nat.ne_of_gt hpos)] at hruns
  rw [← hruns] at hwhole
  obtain ⟨-, hnoEnd, hnewline, -⟩ := places_wholeLines (.inr hlastBreak) hwhole
  have hgoesOn := hwhole.goesOn (Token.runs rest ++ [Token.endOfText])
  rw [List.nil_append, Token.flatMap_expand_runs, hlowered] at hgoesOn
  refine ⟨items ++ one, ending, leading, other, _, lowered, _, ?_, ?_, ?_, hending,
    ⟨items ++ found, (List.prefix_append_right_inj items).2 hwithin, ?_⟩, hitems, hnoEnd,
    hnewline⟩
  · rw [place, Token.ofText_eq, ok_bind, hbody, runs_trailing hbodyLast, List.append_assoc,
      hplaces.goesOn, List.nil_append, Token.flatMap_expand_runs, hone]
    exact congrArg Except.ok (List.append_assoc _ _ _).symm
  · rw [place, Token.ofText_eq, ok_bind, hrest, runs_leading hrestHead, List.append_assoc, hother]
  · rw [place, Token.ofText_eq, ok_bind, htext, Token.runs_around hbodyLast hrestHead hpos,
      ← List.singleton_append, ← List.append_assoc, ← hruns, List.append_assoc]
    exact hgoesOn
  · exact List.rel_append (List.forall₂_same.2 fun placed _ => ⟨rfl, .inl rfl⟩) hfound

/-! ## The numbers of the lines -/

namespace Numbering

/-- One numbering is the other one further down.  The lines have their own numbers, or the same
ones as further down. -/
structure Lowered (offset : Nat) (numbering lowered : Numbering) : Prop where
  part : lowered.part = numbering.part
  awaited : lowered.awaited = numbering.awaited
  shift : numbering.shift = 0 ∨ lowered.shift = numbering.shift - offset

variable {offset : Nat} {numbering lowered : Numbering}

theorem Lowered.argument? (hlowered : Lowered offset numbering lowered) (symbol : Symbol) :
    lowered.argument? symbol = numbering.argument? symbol := by
  rw [Numbering.argument?, hlowered.awaited]
  rfl

theorem Lowered.add (hlowered : Lowered offset numbering lowered) {placed other : Placed}
    (hplaced : Placed.Lowered offset placed other) :
    Lowered offset (numbering.add placed) (lowered.add other) := by
  obtain ⟨hline, hitem | ⟨hmark, hmark'⟩⟩ := hplaced
  · unfold Numbering.add
    rw [hitem]
    cases placed.item with
    | inclusion path => exact hlowered
    | symbol symbol =>
      dsimp only
      split
      · exact hlowered
      · rw [hlowered.argument?, hlowered.part, hline]
        refine ⟨rfl, rfl, ?_⟩
        cases numbering.argument? symbol with
        | none => exact hlowered.shift
        | some number =>
          dsimp only
          omega
  · rwa [add_mark hmark, add_mark hmark']

theorem fault?_argument {placed : Placed} {symbol : Symbol} {number : Int64}
    (hitem : placed.item = .symbol symbol) (hkind : symbol.kind ≠ .lineMark)
    (hargument : numbering.argument? symbol = some number) :
    numbering.fault? placed = none ↔ Arithmetic.InRange (placed.line + 1) ∧
      Arithmetic.InRange (number.toInt - (placed.line + 1)) := by
  simp only [Numbering.fault?, hitem, if_neg hkind, hargument]
  split_ifs <;> simp_all

/-- A number that fits further down fits. -/
theorem Lowered.fault? (hlowered : Lowered offset numbering lowered) {placed other : Placed}
    (hplaced : Placed.Lowered offset placed other) (hline : placed.line < 2 ^ 63)
    (hnone : lowered.fault? other = none) : numbering.fault? placed = none := by
  have hother := hplaced.line
  cases hmark : placed.item.isLineMark with
  | true =>
    have hmark' : other.item.isLineMark = true := by
      rcases hplaced.item with hitem | hmarks
      · rwa [hitem]
      · exact hmarks.2
    have hrange : Arithmetic.InRange (other.line + lowered.shift) := by
      simpa [fault?_mark hmark'] using hnone
    rw [fault?_mark hmark, if_pos]
    have hshift := hlowered.shift
    rw [Arithmetic.inRange_iff] at hrange ⊢
    omega
  | false =>
    have hitem : other.item = placed.item := hplaced.item.resolve_right (by simp [hmark])
    cases hplacedItem : placed.item with
    | inclusion path => simp [Numbering.fault?, hplacedItem]
    | symbol symbol =>
      have hkind : symbol.kind ≠ .lineMark := by simpa [hplacedItem, Item.isLineMark] using hmark
      cases hargument : numbering.argument? symbol with
      | none => simp [Numbering.fault?, hplacedItem, hkind, hargument]
      | some number =>
        have hnumber := Arithmetic.inRange_toInt number
        have hargument' := (hlowered.argument? symbol).trans hargument
        rw [fault?_argument (hitem.trans hplacedItem) hkind hargument'] at hnone
        rw [fault?_argument hplacedItem hkind hargument]
        simp only [Arithmetic.inRange_iff] at hnone hnumber ⊢
        omega

theorem Lowered.overflow? (hlowered : Lowered offset numbering lowered) {items others : List Placed}
    (hitems : List.Forall₂ (Placed.Lowered offset) items others)
    (hlines : ∀ placed ∈ items, placed.line < 2 ^ 63) (hnone : lowered.overflow? others = none) :
    numbering.overflow? items = none := by
  induction hitems generalizing numbering lowered with
  | nil => rfl
  | cons hplaced hitems ih =>
    rw [List.forall_mem_cons] at hlines
    obtain ⟨hfault, hrest⟩ := Option.or_eq_none_iff.1 hnone
    rw [Numbering.overflow?, hlowered.fault? hplaced hlines.1 hfault, Option.none_or]
    exact ih (hlowered.add hplaced) hlines.2 hrest

end Numbering

theorem overflow?_leadingItems (count : Nat) (items : List Placed) :
    Numbering.overflow? {} (leadingItems count ++ items) = Numbering.overflow? {} items := by
  unfold leadingItems
  split
  · rfl
  · rfl

/-- Both texts have lines with numbers that fit if the whole text has. -/
theorem lineOverflow?_of_joined {first second : String}
    (hlast : first.toList.getLast? ≠ some '\r')
    (hlines : 1 + (first ++ "\n" ++ second).toList.count '\n' < 2 ^ 63)
    (hnone : lineOverflow? (first ++ "\n" ++ second) = none) :
    lineOverflow? first = none ∧ lineOverflow? second = none := by
  obtain ⟨one, ending, count, other, front, lowered, offset, hfirst, hsecond, hjoined, hending,
    ⟨whole, ⟨rest, rfl⟩, hone⟩, hother, hnoEnd, hnewline⟩ := exists_place_joined hlast second
  simp only [String.toList_append, List.count_append] at hlines
  have hfirstLines : ∀ placed ∈ one, placed.line < 2 ^ 63 := fun placed hmem => by
    have hline := line_le_of_place hfirst placed (List.mem_append_left _ hmem)
    omega
  have hsecondLines : ∀ placed ∈ other, placed.line < 2 ^ 63 := fun placed hmem => by
    have hline := line_le_of_place hsecond placed (List.mem_append_right _ hmem)
    omega
  rw [lineOverflow?_eq hjoined, Numbering.overflow?_append, Option.or_eq_none_iff] at hnone
  obtain ⟨hfront, hbehind⟩ := hnone
  rw [lineOverflow?_eq hfirst, lineOverflow?_eq hsecond, overflow?_leadingItems]
  constructor
  · rw [Numbering.overflow?_append, Option.or_eq_none_iff] at hfront
    have hstart : Numbering.Lowered 0 {} {} := ⟨rfl, rfl, .inl rfl⟩
    rw [Numbering.overflow?_append, hstart.overflow? hone hfirstLines hfront.1]
    simp [Numbering.overflow?, Numbering.fault?, Numbering.argument?, hending, Symbol.endOfData]
  · obtain ⟨hpart, hawaited⟩ := Numbering.of_wholeLines hnoEnd hnewline
    have hlowered : Numbering.Lowered offset {} ((whole ++ rest).foldl Numbering.add {}) :=
      ⟨hpart, hawaited, .inl rfl⟩
    exact hlowered.overflow? hother hsecondLines hbehind

/-- Two texts with a line break between them declare what each of them declares, whatever is wrong
with their lines, unless a line of the whole text has a number that does not fit.  Only a carriage
return at the end of the first text would get lost. -/
theorem assemble_lines {first second : String} (hlast : first.toList.getLast? ≠ some '\r')
    (hlines : 1 + (first ++ "\n" ++ second).toList.count '\n' < 2 ^ 63) (file : String)
    {retryLimit : Nat} (hlimit : 6 ≤ retryLimit) (functions : FunctionTable) :
    (∃ one other whole, assemble file first retryLimit functions = .ok one ∧
      assemble file second retryLimit functions = .ok other ∧
      assemble file (first ++ "\n" ++ second) retryLimit functions = .ok whole ∧
      whole.decls.map Decl.node = one.decls.map Decl.node ++ other.decls.map Decl.node) ∨
    ∃ operation, lineOverflow? (first ++ "\n" ++ second) = some operation ∧
      assemble file (first ++ "\n" ++ second) retryLimit functions =
        .error (.overflow operation) := by
  obtain ⟨hnone, whole, hwhole⟩ | hoverflow := assemble_numbered hlines file hlimit functions
  · obtain ⟨hfirst, hsecond⟩ := lineOverflow?_of_joined hlast hlines hnone
    simp only [String.toList_append, List.count_append] at hlines
    obtain ⟨-, one, hone⟩ | ⟨operation, hoverflow, -⟩ :=
      @assemble_numbered first (by omega) file _ hlimit functions
    · obtain ⟨-, other, hother⟩ | ⟨operation, hoverflow, -⟩ :=
        @assemble_numbered second (by omega) file _ hlimit functions
      · exact .inl ⟨one, other, whole, hone, hother, hwhole,
          nodes_of_assemble_lines hlast hlimit hone hother hwhole⟩
      · rw [hsecond] at hoverflow
        cases hoverflow
    · rw [hfirst] at hoverflow
      cases hoverflow
  · exact .inr hoverflow

/-- A string that breaks off in an escape, a number that breaks off, and a directive without its
argument, before a missing operand and a timestamp that breaks off. -/
theorem assemble_lines_garbled :
    "push \"a\\\nend: push 1e\n.line".toList.getLast? ≠ some '\r' ∧ 6 ≤ 6 ∧
    ∃ one other whole,
      assemble "a" "push \"a\\\nend: push 1e\n.line" 6 {} = .ok one ∧
      assemble "a" "invoke_r\n@2024 ja end" 6 {} = .ok other ∧
      assemble "a" ("push \"a\\\nend: push 1e\n.line" ++ "\n" ++ "invoke_r\n@2024 ja end") 6 {} =
        .ok whole ∧
      whole.decls.map Decl.node = one.decls.map Decl.node ++ other.decls.map Decl.node := by
  have hlast : "push \"a\\\nend: push 1e\n.line".toList.getLast? ≠ some '\r' := by decide
  have hnone : lineOverflow?
      ("push \"a\\\nend: push 1e\n.line" ++ "\n" ++ "invoke_r\n@2024 ja end") = none := by
    decide +kernel
  refine ⟨hlast, by decide, (assemble_lines hlast (by decide) "a" (by decide) {}).resolve_right ?_⟩
  rintro ⟨operation, hoverflow, -⟩
  rw [hnone] at hoverflow
  cases hoverflow

/-- The first text gives its last line the largest number, which leaves none for the second one. -/
theorem assemble_lines_numbered :
    (assemble "t.asm" ".line 9223372036854775807\nnop" 6 {}).toOption.map
        (·.decls.map Decl.node) = some [.operation .nop] ∧
      (assemble "t.asm" "nop" 6 {}).toOption.map (·.decls.map Decl.node) =
        some [.operation .nop] ∧
      assemble "t.asm" (".line 9223372036854775807\nnop" ++ "\n" ++ "nop") 6 {} =
        .error (.overflow .addition) :=
  ⟨by decide +kernel, by decide +kernel, rfl⟩

end Assembly
end Docpress
