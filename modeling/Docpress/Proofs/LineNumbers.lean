import Docpress.Proofs.LineNumbering
import Docpress.Proofs.SymbolForms

/-!
# Line numbers behind a directive

A directive `.line N` gives the line behind it the number `N`, and the lines behind that one the
numbers that follow (`lineNumber`).

`Parser.Numbers` ties the parser to the outline of what it has read: it has begun the statements of
the outline, and those behind a given line have the numbers that a given shift makes.  One item
keeps this (`Parser.Numbers.step`) as long as the numbering has the shift, so runs keep it
(`Parser.Numbers.run`).  Behind the last directive the numbering keeps the shift that the directive
sets (`DirectiveLine.shift_behind`).  A parser that gives up has declared what one with a higher
limit declares up to some item (`exists_upto_of_assemble`), so the law `numbers_behind_directive` is
about all limits.

There is a largest number, and no line behind the one that has it can be assembled.
-/

namespace Docpress.Assembly

/-! ## Numbers of lines -/

/-- The number that a line of the text has after a shift. -/
def lineNumber (shift : Int) (line : Nat) : Nat :=
  (max (line + shift) 1).toNat

/-- Without a shift a line has its own number. -/
theorem lineNumber_zero {line : Nat} (hpos : 0 < line) : lineNumber 0 line = line := by
  unfold lineNumber
  omega

/-- The number that a directive gives to a line behind it. -/
theorem lineNumber_behind (number line : Nat) {behind : Nat} (hbehind : 0 < behind) :
    lineNumber (number - (line + 1)) (line + behind) = max 1 (number + behind - 1) := by
  unfold lineNumber
  omega

/-- In 64 bits the number is the same if it fits. -/
theorem toNatClampNeg_max {number : Int} (hrange : Arithmetic.InRange number) :
    (max (Int64.ofInt number) 1).toNatClampNeg = (max number 1).toNat := by
  have hmax (x y : Int64) : (max x y).toInt = max x.toInt y.toInt := by
    show (if x ≤ y then y else x).toInt = _
    simp only [Int64.le_iff_toInt_le]
    split <;> omega
  unfold Int64.toNatClampNeg
  rw [hmax, Arithmetic.toInt_ofInt hrange, Int64.toInt_one]

/-! ## Outlines -/

namespace Outline

theorem add_lineMark {line : Nat} {placed : Placed}
    (hitem : placed.item = .symbol (.lineMark line)) (outline : Outline) :
    outline.add placed = outline := by
  obtain ⟨part, starts⟩ := outline
  cases part <;> simp [add, hitem, LinePart.behind, LinePart.begins?, Symbol.lineMark,
    Heading.ofSymbol?]

/-- More items begin more statements. -/
theorem starts_append (first second : List Placed) :
    (ofItems first).starts <+: (ofItems (first ++ second)).starts := by
  unfold ofItems
  rw [List.foldl_append]
  generalize first.foldl add {} = outline
  induction second generalizing outline with
  | nil => exact List.prefix_rfl
  | cons placed second ih =>
    refine List.IsPrefix.trans ?_ (ih (outline.add placed))
    unfold add
    split
    · exact List.prefix_rfl
    · exact List.prefix_append _ _

end Outline

/-! ## What the parser numbers -/

namespace Parser

/-- What was begun is a statement of the outline.  On a line behind `first` it has the number that
the shift makes of the line. -/
def IsNumbered (first : Nat) (shift : Int) (statement : Option Heading × Nat)
    (start : Heading × Nat) : Prop :=
  statement.1 = some start.1 ∧ (first < start.2 → statement.2 = lineNumber shift start.2)

/-- The parser has begun the statements of the outline and numbers the lines behind `first` with
the shift. -/
structure Numbers (first : Nat) (shift : Int) (outline : Outline) (parser : Parser) : Prop where
  part : partOf parser.states = outline.part
  line : first < parser.textLine → parser.position.line = lineNumber shift parser.textLine
  begun : List.Forall₂ (IsNumbered first shift) (begun parser.draft) outline.starts

theorem numbers_start (file : String) (limit : Nat) (functions : FunctionTable) {first : Nat}
    (hfirst : 0 < first) (shift : Int) : Numbers first shift {} (start file limit functions) where
  part := rfl
  line hlt := absurd hlt (Nat.not_lt.2 hfirst)
  begun := .nil

section

variable {first reported last : Nat} {shift : Int} {numbering : Numbering} {outline : Outline}
variable {parser next : Parser} {placed : Placed}

theorem Numbers.mark (hnumbers : Numbers first shift outline parser)
    (htracks : Tracks reported numbering parser)
    (hitem : placed.item = .symbol (.lineMark placed.line)) (hline : placed.line < 2 ^ 63)
    (hshift : first < placed.line → numbering.shift = shift)
    (hfeed : feedItem parser placed.item = .ok next) :
    Numbers first shift (outline.add placed) next := by
  rw [hitem, feedItem] at hfeed
  -- the mark is safe, so its number fits
  have hrange : Arithmetic.InRange (placed.line + parser.lineShift.toInt) := by
    by_contra hrange
    rw [feed_overflow htracks.ready.notAbandoned (overflow_mark hline hrange)] at hfeed
    cases hfeed
  rw [feed_of_takes htracks.ready htracks.limit (.taken (put_mark hline hrange))] at hfeed
  cases hfeed
  rw [Outline.add_lineMark hitem]
  refine ⟨hnumbers.part, fun hbehind => ?_, hnumbers.begun⟩
  show (max (Int64.ofInt (placed.line + parser.lineShift.toInt)) 1).toNatClampNeg = _
  rw [toNatClampNeg_max hrange, htracks.lineShift, hshift hbehind]
  rfl

theorem Numbers.symbol {symbol : Symbol} (hnumbers : Numbers first shift outline parser)
    (htracks : Tracks reported numbering parser) (hitem : placed.item = .symbol symbol)
    (hmark : symbol.kind ≠ .lineMark) (hline : symbol.kind ≠ .endOfData → placed.line = reported)
    (hfeed : feedItem parser placed.item = .ok next) :
    Numbers first shift (outline.add placed) next := by
  rw [hitem, feedItem] at hfeed
  obtain ⟨htakes, -⟩ := takes_of_feed htracks.ready htracks.limit hfeed
  have hfed := takes_fed hmark htracks.ready.steady htakes
  refine ⟨?_, ?_, ?_⟩
  · rw [hfed.part, hnumbers.part, Outline.add, hitem]
  · rw [hfed.textLine, hfed.line]
    exact hnumbers.line
  · rw [hfed.begun, hnumbers.part, Outline.add, hitem]
    refine List.rel_append hnumbers.begun ?_
    cases hbegins : outline.part.begins? symbol with
    | none => exact .nil
    | some heading =>
      have hend : symbol.kind ≠ .endOfData := by
        intro hkind
        simp [LinePart.begins?, Heading.ofSymbol?, hkind] at hbegins
      refine .cons ⟨rfl, fun hbehind => ?_⟩ .nil
      have htextLine : parser.textLine = placed.line := by
        rw [hline hend]
        exact htracks.textLine (by rw [← hline hend, Placed.line]; omega)
      have hposition := hnumbers.line
      rw [htextLine] at hposition
      exact hposition hbehind

/-- One item.  What it does to the numbers of the lines behind `first` is known if the item is not
among them, or if the numbering has the shift. -/
theorem Numbers.step {rest : List Placed} (hnumbers : Numbers first shift outline parser)
    (htracks : Tracks reported numbering parser) (hmarked : Marked reported (placed :: rest) last)
    (hline : placed.line < 2 ^ 63) (hshift : first < placed.line → numbering.shift = shift)
    (hfeed : feedItem parser placed.item = .ok next) :
    Numbers first shift (outline.add placed) next := by
  cases hmarked with
  | mark hitem _ => exact hnumbers.mark htracks hitem hline hshift hfeed
  | symbol hitem hplain hreported _ => exact hnumbers.symbol htracks hitem hplain.2 hreported hfeed
  | inclusion hitem _ =>
    rw [hitem] at hfeed
    cases hfeed
    rwa [Outline.add, hitem]

/-- A run over items.  Those on lines behind `first` meet a numbering that has the shift. -/
theorem Numbers.run {items : List Placed} (hnumbers : Numbers first shift outline parser)
    (htracks : Tracks reported numbering parser) (hmarked : Marked reported items last)
    (hlines : ∀ placed ∈ items, placed.line < 2 ^ 63)
    (hshift : ∀ (front : List Placed) (placed : Placed) (back : List Placed),
      items = front ++ placed :: back → first < placed.line →
      (front.foldl Numbering.add numbering).shift = shift)
    (hfold : (items.map Placed.item).foldlM feedItem parser = .ok next) :
    Numbers first shift (items.foldl Outline.add outline) next ∧ Ready next := by
  induction items generalizing reported numbering outline parser with
  | nil =>
    cases hfold
    exact ⟨hnumbers, htracks.ready⟩
  | cons placed rest ih =>
    rw [List.forall_mem_cons] at hlines
    rw [List.map_cons, List.foldlM_cons] at hfold
    obtain ⟨between, hfeed, hrest⟩ := exists_of_bind_ok hfold
    have hbetween := hnumbers.step htracks hmarked hlines.1 (hshift [] placed rest rfl) hfeed
    obtain ⟨-, _, _, hfeed', hmarked', htracks'⟩ | ⟨_, _, hfault⟩ := htracks.step hmarked hlines.1
    · rw [hfeed] at hfeed'
      cases hfeed'
      refine ih hbetween htracks' hmarked' hlines.2 (fun front other back heq => ?_) hrest
      exact hshift (placed :: front) other back (by rw [heq]; rfl)
    · rw [hfeed] at hfault
      cases hfault

end

/-! ## Retry limits -/

theorem foldlM_of_abandoned {parser : Parser} (habandoned : parser.abandoned = true)
    (items : List Item) : items.foldlM feedItem parser = .ok parser := by
  induction items with
  | nil => rfl
  | cons item items ih =>
    cases item with
    | inclusion path => exact ih
    | symbol symbol => rw [List.foldlM_cons, feedItem, feed_of_abandoned habandoned, ok_bind, ih]

/-- A symbol that is fed to a parser is fed to one with another limit. -/
theorem exists_feed_relimited {symbol : Symbol} {parser next : Parser} (raised : Nat)
    (hsteady : Steady parser) (hopen : parser.abandoned = false)
    (hfeed : feed symbol parser = .ok next) :
    ∃ other, feed symbol (parser.relimited raised) = .ok other := by
  obtain ⟨other, hother, -⟩ | ⟨operation, -, hoverflow, -⟩ :=
    feed_cases symbol (limited_lawful.inv_relimited raised hsteady)
  · exact ⟨other, hother⟩
  · have hsafe := (steady_of_feed hsteady hfeed).2 hopen
    refine absurd ?_ (hsafe operation)
    cases hoverflow with
    | mark hkind hread hrange => exact .mark hkind hread hrange
    | following hstates hkind hread hrange => exact .following hstates hkind hread hrange
    | shift hstates hkind hread hfollowing hrange =>
      exact .shift hstates hkind hread hfollowing hrange

/-- What a parser has declared that may have given up, one with a higher limit has declared behind
some of the items. -/
theorem exists_upto {raised : Nat} {first second last : Parser} {items : List Item}
    (hfollows : limited.Follows Steady raised first second)
    (hrun : items.foldlM feedItem first = .ok last) :
    ∃ upto rest other, items = upto ++ rest ∧ upto.foldlM feedItem second = .ok other ∧
      last.draft.decls.toList <+: other.draft.decls.toList := by
  induction items generalizing first second with
  | nil =>
    cases hrun
    exact ⟨[], [], second, rfl, rfl, (hfollows.continues limited_lawful).decls⟩
  | cons item items ih =>
    cases hopen : first.abandoned with
    | true =>
      rw [foldlM_of_abandoned hopen] at hrun
      cases hrun
      exact ⟨[], _, second, rfl, rfl, (hfollows.continues limited_lawful).decls⟩
    | false =>
      rw [List.foldlM_cons] at hrun
      obtain ⟨next, hfeed, hrest⟩ := exists_of_bind_ok hrun
      obtain ⟨other, hother, hnext⟩ :
          ∃ other, feedItem second item = .ok other ∧ limited.Follows Steady raised next other := by
        cases item with
        | inclusion path =>
          cases hfeed
          exact ⟨second, rfl, hfollows⟩
        | symbol symbol =>
          have hcompares := hfollows.feed limited_lawful symbol
          obtain ⟨other, hother⟩ : ∃ other, feed symbol second = .ok other := by
            cases hfollows with
            | same hinv _ _ hsecond _ =>
              subst hsecond
              exact exists_feed_relimited raised hinv hopen hfeed
            | ahead hfirst _ _ => cases hopen.symm.trans hfirst.abandoned
          rw [show limited.feed symbol first = .ok next from hfeed,
            show limited.feed symbol second = .ok other from hother] at hcompares
          cases hcompares with
          | follows hnext => exact ⟨other, hother, hnext⟩
      obtain ⟨upto, rest, final, rfl, hupto, hbegins⟩ := ih hnext hrest
      refine ⟨item :: upto, rest, final, rfl, ?_, hbegins⟩
      rw [List.foldlM_cons, hother, ok_bind, hupto]

/-- At the end of the data no statement is open. -/
theorem Numbers.stack_eq {first : Nat} {shift : Int} {items : List Placed} {parser : Parser}
    (hnumbers : Numbers first shift (.ofItems items) parser) (hready : Ready parser)
    (hends : EndsOnce (items.map Placed.item)) : parser.draft.stack = [] := by
  obtain ⟨before, hitems, -⟩ := hends
  obtain ⟨front, ending, rfl, -, hending⟩ := List.map_eq_append_iff.1 hitems
  obtain ⟨placed, rfl, hitem⟩ := List.map_eq_singleton_iff.1 hending
  have hpart : (Outline.ofItems (front ++ [placed])).part = .ended := by
    rw [Outline.ofItems, List.foldl_append]
    generalize front.foldl Outline.add {} = outline
    obtain ⟨part, starts⟩ := outline
    cases part <;> simp [Outline.add, hitem, LinePart.behind, Symbol.endOfData]
  have hended := hnumbers.part.trans hpart
  have hfits := hready.steady.fits
  generalize parser.states = states, parser.draft.stack = stack at hended hfits
  cases hfits <;> first | rfl | cases hended

end Parser

/-! ## Texts -/

theorem exists_upto_of_assemble {text file : String} {limit : Nat} {functions : FunctionTable}
    {items : List Item} {program : Program} (hlex : lex text = .ok items)
    (hassemble : assemble file text limit functions = .ok program) :
    ∃ upto rest parser, items = upto ++ rest ∧
      upto.foldlM Parser.feedItem (.start file (max limit 6) functions) = .ok parser ∧
      program.decls <+: parser.draft.decls.toList ∧
      (6 ≤ limit → rest = [] ∧ program.decls = parser.draft.decls.toList) := by
  obtain ⟨last, hrun, rfl⟩ := run_of_assemble hlex hassemble
  by_cases hlimit : 6 ≤ limit
  · rw [Nat.max_eq_left hlimit]
    exact ⟨items, [], last, by simp, hrun, List.prefix_rfl, fun _ => ⟨rfl, rfl⟩⟩
  · have hstart : Parser.limited.Follows Parser.Steady (max limit 6) (.start file limit functions)
        (.start file (max limit 6) functions) :=
      .same (Parser.steady_start file limit functions) (Nat.le_max_left limit 6) rfl rfl
        fun _ hmem => (by cases hmem)
    obtain ⟨upto, rest, parser, hitems, hupto, hbegins⟩ := Parser.exists_upto hstart hrun
    exact ⟨upto, rest, parser, hitems, hupto, hbegins, fun h => absurd h hlimit⟩

/-- The declarations of a text are the statements that begin in it, up to some item if the parser
gives up.  Behind the line `first` they have the numbers that the shift makes, if the numbering has
that shift there. -/
theorem numbers_of_assemble {text file : String} {limit : Nat} {functions : FunctionTable}
    {program : Program} {items : List Placed} (hplace : place Mode.step .start text = .ok items)
    (hlines : 1 + text.toList.count '\n' < 2 ^ 63) {first : Nat} (hfirst : 0 < first) {shift : Int}
    (hshift : ∀ (front : List Placed) (placed : Placed) (back : List Placed),
      items = front ++ placed :: back → first < placed.line →
      (front.foldl Numbering.add {}).shift = shift)
    (hassemble : assemble file text limit functions = .ok program) :
    ∃ declared more, (Outline.ofItems items).starts = declared ++ more ∧
      (6 ≤ limit → more = []) ∧
      List.Forall₂ (fun (decl : Decl Statement) (start : Heading × Nat) =>
          decl.node.heading? = some start.1 ∧
          (first < start.2 → decl.position.line = lineNumber shift start.2))
        program.decls declared := by
  obtain ⟨_, hplace', hlex, hends⟩ := exists_place text
  cases hplace.symm.trans hplace'
  obtain ⟨_, hmarked⟩ := marked_of_place hplace
  have hbounds : ∀ placed ∈ items, placed.line < 2 ^ 63 := fun placed hmem =>
    Nat.lt_of_le_of_lt (line_le_of_place hplace placed hmem) hlines
  obtain ⟨_, _, parser, hitems, hrun, ⟨later, hlater⟩, hwhole⟩ :=
    exists_upto_of_assemble hlex hassemble
  obtain ⟨upto, rest, rfl, rfl, rfl⟩ := List.map_eq_append_iff.1 hitems
  obtain ⟨_, hmarked, -⟩ := hmarked.exists_between
  obtain ⟨hnumbers, hready⟩ :=
    (Parser.numbers_start file (max limit 6) functions hfirst shift).run
      (Parser.tracks_start file (Nat.le_max_right limit 6) functions) hmarked
      (fun placed hmem => hbounds placed (List.mem_append_left _ hmem))
      (fun front placed back heq => hshift front placed (back ++ rest) (by simp [heq])) hrun
  have hbegun : List.Forall₂ (Parser.IsNumbered first shift) (begun parser.draft)
    (Outline.ofItems upto).starts := hnumbers.begun
  obtain ⟨others, hothers⟩ := Outline.starts_append upto rest
  refine ⟨(Outline.ofItems upto).starts.take program.decls.length,
    (Outline.ofItems upto).starts.drop program.decls.length ++ others, ?_, fun hlimit => ?_, ?_⟩
  · rw [← hothers, ← List.append_assoc, List.take_append_drop]
  · obtain ⟨hrest, hdecls⟩ := hwhole hlimit
    obtain rfl := List.map_eq_nil_iff.1 hrest
    rw [List.append_nil] at hothers hends
    have hlength := hbegun.length_eq
    rw [begun, Parser.Numbers.stack_eq hnumbers hready hends] at hlength
    have hsame : others = [] := by simpa using hothers
    rw [hsame, List.append_nil, hdecls, List.drop_eq_nil_iff, ← hlength]
    simp
  · have htaken := List.forall₂_take program.decls.length hbegun
    rw [begun, ← hlater, List.map_append, List.append_assoc, List.take_left' (by simp)] at htaken
    simpa [List.forall₂_map_left_iff, Parser.IsNumbered] using htaken

/-! ## The directive -/

section

variable {items : List Placed} {line : Nat} {argument : Symbol}

namespace DirectiveLine

/-- The items up to the argument. -/
def upto (parts : DirectiveLine items line argument) : List Placed :=
  parts.earlier ++ ((parts.marks ++ [parts.directive]) ++ (parts.more ++ [parts.argumentAt]))

/-- The numbering that the argument meets. -/
theorem exists_awaited (parts : DirectiveLine items line argument) :
    ∃ numbering : Numbering, numbering.awaited = true ∧
      numbering.shift = (parts.earlier.foldl Numbering.add {}).shift ∧
      parts.upto.foldl Numbering.add {} = numbering.add parts.argumentAt ∧
      (parts.earlier.foldl Numbering.add {}).overflow?
          ((parts.marks ++ [parts.directive]) ++ (parts.more ++ [parts.argumentAt])) =
        ((parts.earlier.foldl Numbering.add {}).overflow? parts.marks).or
          ((numbering.overflow? parts.more).or (numbering.fault? parts.argumentAt)) := by
  have hpart : (parts.earlier.foldl Numbering.add {}).part = .start :=
    (Numbering.of_wholeLines parts.earlier_noEnd parts.earlier_last).1
  have hmarks : ∀ mark ∈ parts.marks, mark.item.isLineMark = true := fun mark hmem => by
    rw [parts.marks_item mark hmem]
    rfl
  have hmore : ∀ mark ∈ parts.more, mark.item.isLineMark = true := fun mark hmem => by
    rw [parts.more_item mark hmem]
    rfl
  rw [upto, List.foldl_append]
  generalize parts.earlier.foldl Numbering.add {} = numbering at hpart
  have hdirective : numbering.add parts.directive =
      ⟨.inside, true, numbering.shift⟩ := by
    simp [Numbering.add, parts.directive_item, Numbering.argument?, hpart, LinePart.behind]
  have hfault : numbering.fault? parts.directive = none := by
    simp [Numbering.fault?, parts.directive_item, Numbering.argument?]
  refine ⟨numbering.add parts.directive, by rw [hdirective], by rw [hdirective], ?_, ?_⟩
  · simp [List.foldl_append, Numbering.foldl_marks hmarks, Numbering.foldl_marks hmore]
  · simp [Numbering.overflow?_append, Numbering.foldl_marks hmarks, Numbering.foldl_marks hmore,
      Numbering.overflow?, hfault]

theorem line_argumentAt (parts : DirectiveLine items line argument) :
    parts.argumentAt.line = line :=
  parts.here_line _ (by simp)

theorem line_le_of_mem_upto (parts : DirectiveLine items line argument) :
    ∀ placed ∈ parts.upto, placed.line ≤ line :=
  List.forall_mem_append.2 ⟨fun placed hmem => (parts.earlier_line placed hmem).le,
    fun placed hmem => (parts.here_line placed hmem).le⟩

/-- A number sets the shift. -/
theorem settled_number (parts : DirectiveLine items line argument) {number : Int64}
    (hkind : argument.kind = .number) (hread : Text.readInt64? argument.text = some number) :
    Numbering.Settled (number.toInt - (line + 1)) (parts.upto.foldl Numbering.add {}) := by
  obtain ⟨numbering, hawaited, -, hupto, -⟩ := parts.exists_awaited
  have hargument : numbering.argument? argument = some number := by
    rw [Numbering.argument?, if_pos ⟨hawaited, hkind⟩, hread]
  rw [hupto]
  constructor
  · rw [Numbering.add, parts.argument_item]
    simp only [hkind, reduceCtorEq, if_false, decide_eq_false_iff_not, not_and]
    rintro - rfl
    cases hkind
  · simp [Numbering.add, parts.argument_item, hkind, hargument, parts.line_argumentAt]

/-- Anything else leaves it as it is. -/
theorem settled_signed (parts : DirectiveLine items line argument)
    (hkind : argument.kind = .signed) :
    Numbering.Settled (parts.earlier.foldl Numbering.add {}).shift
      (parts.upto.foldl Numbering.add {}) := by
  obtain ⟨numbering, -, hshift, hupto, -⟩ := parts.exists_awaited
  have hargument : numbering.argument? argument = none := by
    rw [Numbering.argument?, if_neg (by simp [hkind])]
  rw [hupto]
  constructor
  · rw [Numbering.add, parts.argument_item]
    simp only [hkind, reduceCtorEq, if_false, decide_eq_false_iff_not, not_and]
    rintro - rfl
    cases hkind
  · simp [Numbering.add, parts.argument_item, hkind, hargument, hshift]

section

variable (hlast : ∀ placed ∈ items, line < placed.line →
  placed.item ≠ .symbol ⟨.directive, "line"⟩)

include hlast

/-- Behind the last directive there is none. -/
theorem ne_directive_of_mem_behind (parts : DirectiveLine items line argument) :
    ∀ placed ∈ parts.behind, placed.item ≠ .symbol ⟨.directive, "line"⟩ := by
  intro placed hmem hitem
  refine hlast placed ?_ (parts.line_of_directive placed hmem hitem) hitem
  rw [parts.items_eq]
  exact List.mem_append_right _ hmem

/-- The items on later lines meet the shift that is set. -/
theorem shift_behind (parts : DirectiveLine items line argument) {shift : Int}
    (hsettled : Numbering.Settled shift (parts.upto.foldl Numbering.add {}))
    {front back : List Placed} {placed : Placed} (hitems : items = front ++ placed :: back)
    (hbehind : line < placed.line) : (front.foldl Numbering.add {}).shift = shift := by
  have hsplit : parts.upto ++ parts.behind = front ++ placed :: back :=
    parts.items_eq.symm.trans hitems
  rcases List.append_eq_append_iff.1 hsplit with ⟨between, rfl, hrest⟩ | ⟨between, hupto, hrest⟩
  · have hnone := parts.ne_directive_of_mem_behind hlast
    rw [hrest, List.forall_mem_append] at hnone
    rw [List.foldl_append]
    exact (hsettled.foldl hnone.1).shift_eq
  · cases between with
    | nil =>
      rw [List.append_nil] at hupto
      rw [← hupto]
      exact hsettled.shift_eq
    | cons other between =>
      cases hrest
      have hle := parts.line_le_of_mem_upto placed (by simp [hupto])
      omega

end

/-- Without earlier directives the numbers fit up to the argument, and in the argument if that
does. -/
theorem overflow?_upto (parts : DirectiveLine items line argument)
    (hfirst : ∀ placed ∈ items, placed.line < line → placed.item ≠ .symbol ⟨.directive, "line"⟩)
    (hlines : ∀ placed ∈ items, placed.line < 2 ^ 63)
    (hargument : ∀ numbering : Numbering, numbering.fault? parts.argumentAt = none) :
    (parts.earlier.foldl Numbering.add {}).shift = 0 ∧
      Numbering.overflow? {} parts.upto = none := by
  have hmem {placed : Placed} (hmem : placed ∈ parts.upto) : placed ∈ items := by
    rw [parts.items_eq]
    exact List.mem_append_left _ hmem
  have hrange {placed : Placed} (hplaced : placed ∈ parts.upto) :
      Arithmetic.InRange ((placed.line : Int) + 0) := by
    have hline := hlines placed (hmem hplaced)
    rw [Arithmetic.inRange_iff]
    omega
  have hstart : Numbering.Settled 0 {} := ⟨rfl, rfl⟩
  have hnone : ∀ placed ∈ parts.earlier, placed.item ≠ .symbol ⟨.directive, "line"⟩ :=
    fun placed hplaced => hfirst placed (hmem (List.mem_append_left _ hplaced))
      (parts.earlier_line placed hplaced)
  have hsettled := hstart.foldl hnone
  have hearlier : Numbering.overflow? {} parts.earlier = none := by
    rw [hstart.overflow?_eq hnone, if_neg]
    rintro ⟨placed, hplaced, -, hfault⟩
    exact hfault (hrange (List.mem_append_left _ hplaced))
  obtain ⟨numbering, -, hshift, -, hhere⟩ := parts.exists_awaited
  have hmarks : (parts.earlier.foldl Numbering.add {}).overflow? parts.marks = none := by
    refine Numbering.overflow?_marks (fun mark hmark => ?_) fun mark hmark => ?_
    · rw [parts.marks_item mark hmark]
      rfl
    · rw [hsettled.shift_eq]
      exact hrange (by simp [upto, hmark])
  have hmore : numbering.overflow? parts.more = none := by
    refine Numbering.overflow?_marks (fun mark hmark => ?_) fun mark hmark => ?_
    · rw [parts.more_item mark hmark]
      rfl
    · rw [hshift, hsettled.shift_eq]
      exact hrange (by simp [upto, hmark])
  refine ⟨hsettled.shift_eq, ?_⟩
  rw [upto, Numbering.overflow?_append, hearlier, hhere, hmarks, hmore, hargument]
  rfl

/-- Computing with a number that is not too low does not fail. -/
theorem fault?_number (parts : DirectiveLine items line argument) {number : Int64}
    (hread : Text.readInt64? argument.text = some number) (hkind : argument.kind = .number)
    (hline : Arithmetic.InRange (line + 1))
    (hshift : Arithmetic.InRange (number.toInt - (line + 1))) (numbering : Numbering) :
    numbering.fault? parts.argumentAt = none := by
  rw [Numbering.fault?, parts.argument_item]
  by_cases hawaited : numbering.awaited = true
  · simp [Numbering.argument?, hawaited, hkind, hread, parts.line_argumentAt, hline, hshift]
  · simp [Numbering.argument?, hawaited, hkind]

/-- What is no number is not computed with. -/
theorem fault?_signed (parts : DirectiveLine items line argument)
    (hkind : argument.kind = .signed) (numbering : Numbering) :
    numbering.fault? parts.argumentAt = none := by
  simp [Numbering.fault?, parts.argument_item, Numbering.argument?, hkind]

/-- Around the only directive the numbers that do not fit are those of lines behind it. -/
theorem overflow?_eq (parts : DirectiveLine items line argument) {shift : Int}
    (hsettled : Numbering.Settled shift (parts.upto.foldl Numbering.add {}))
    (hupto : Numbering.overflow? {} parts.upto = none)
    (hlast : ∀ placed ∈ items, line < placed.line → placed.item ≠ .symbol ⟨.directive, "line"⟩)
    (hrange : ∀ other : Nat, other ≤ line → Arithmetic.InRange (other + shift)) :
    Numbering.overflow? {} items = if ∃ placed ∈ items, line < placed.line ∧
        placed.item.isLineMark = true ∧ ¬ Arithmetic.InRange (placed.line + shift)
      then some .addition else none := by
  have hbehind := hsettled.overflow?_eq (parts.ne_directive_of_mem_behind hlast)
  have hitems : items = parts.upto ++ parts.behind := parts.items_eq
  have hiff : (∃ placed ∈ parts.behind, placed.item.isLineMark = true ∧
        ¬ Arithmetic.InRange (placed.line + shift)) ↔
      ∃ placed ∈ items, line < placed.line ∧ placed.item.isLineMark = true ∧
        ¬ Arithmetic.InRange (placed.line + shift) := by
    constructor
    · rintro ⟨placed, hmem, hmark, hfault⟩
      exact ⟨placed, by rw [hitems]; exact List.mem_append_right _ hmem,
        Nat.lt_of_not_le fun hle => hfault (hrange placed.line hle), hmark, hfault⟩
    · rintro ⟨placed, hmem, hline, hmark, hfault⟩
      rw [hitems] at hmem
      refine ⟨placed, (List.mem_append.1 hmem).resolve_left fun hmem => ?_, hmark, hfault⟩
      exact absurd (parts.line_le_of_mem_upto placed hmem) (Nat.not_le.2 hline)
  calc Numbering.overflow? {} items
    _ = Numbering.overflow? {} (parts.upto ++ parts.behind) := by rw [← hitems]
    _ = (parts.upto.foldl Numbering.add {}).overflow? parts.behind := by
      rw [Numbering.overflow?_append, hupto, Option.none_or]
    _ = _ := by rw [hbehind, if_congr hiff rfl rfl]

end DirectiveLine

end

/-- The directive in front of its argument. -/
theorem standsFor_lineDirective {text : List Char} {symbols : List Symbol}
    (htext : StandsFor text symbols) :
    StandsFor (".line ".toList ++ text) (⟨.directive, "line"⟩ :: symbols) := by
  obtain ⟨first, rest, rfl, hfirst⟩ := htext.head
  have hcollects (seen : List Char) (c : Char) (count : Nat)
      (hc : (c.isAlphanum || c == '_') = true) (_ : 0 < count) :
      Scans.Collects Mode.step Mode.directive seen c count := if_pos hc
  have hname : Scans Mode.step (.directive []) (Token.runs "line".toList)
      (.directive ([] ++ "line".toList)) [] :=
    Scans.accumulate_of_forall Mode.directive hcollects (List.all_eq_true.1 rfl)
  have hdeclined : Mode.step (.directive ([] ++ "line".toList)) (.run ' ' 1) =
      Mode.decline .start [.symbol ⟨.directive, "line"⟩] := rfl
  have hblank : Scans Mode.step (.directive ([] ++ "line".toList)) (Token.runs [' ']) .start
      [.symbol ⟨.directive, "line"⟩] := .declined hdeclined (.of_taken rfl)
  have hdirective : Scans Mode.step .start (Token.runs ".line ".toList) .start
      [.symbol ⟨.directive, "line"⟩] :=
    .of_taken_char rfl (by decide) (hname.meet (by decide) hblank)
  refine ⟨?_, ?_, ⟨'.', _, rfl, by decide⟩, ?_⟩
  · have hruns : Token.runs (".line ".toList ++ first :: rest) =
        Token.runs ".line ".toList ++ Token.runs (first :: rest) :=
      Token.runs_append (by simpa using Ne.symm hfirst)
    rw [ReadsAs, hruns, List.append_assoc]
    exact hdirective.append htext.readsAs
  · rw [List.mem_append, not_or]
    exact ⟨by decide, htext.noBreak⟩
  · rw [List.getLast?_append_of_ne_nil _ (by simp)]
    exact htext.last

/-- The lines behind `line` have numbers that fit if the first one has the given number. -/
def NumbersFit (items : List Placed) (line number : Nat) : Prop :=
  ∀ placed ∈ items, line < placed.line → placed.item.isLineMark = true →
    number + (placed.line - line) ≤ 2 ^ 63

theorem not_numbersFit_iff {items : List Placed} {line number : Nat} :
    ¬ NumbersFit items line number ↔ ∃ placed ∈ items, line < placed.line ∧
      placed.item.isLineMark = true ∧
      ¬ Arithmetic.InRange (placed.line + ((number : Int) - ((line : Int) + 1))) := by
  simp only [NumbersFit, not_forall, exists_prop]
  refine exists_congr fun placed => and_congr_right fun _ => and_congr_right fun hbehind =>
    and_congr_right fun _ => not_congr ?_
  rw [Arithmetic.inRange_iff]
  omega

section

variable {text : String} {front digits rest : List Char} {negative : Bool} {items : List Placed}
  (htext : dropReturns text.toList =
    front ++ (".line ".toList ++ (signChars negative ++ digits) ++ '\n' :: rest))
  (hfront : front = [] ∨ front.getLast? = some '\n') (hdigits : Document.IsDigits digits)
  (hfits : negative = false → Text.ofDigits 10 digits < 2 ^ 63)
  (hlines : 1 + text.toList.count '\n' < 2 ^ 63)
  (hplace : place Mode.step .start text = .ok items)
  (hlast : ∀ placed ∈ items, 1 + front.count '\n' < placed.line →
    placed.item ≠ .symbol ⟨.directive, "line"⟩)

include htext hfront hdigits hfits hplace hlines hlast

/-- One shift is in force behind the last directive.  If no other directive stands before it, the
shift tells which numbers do not fit. -/
theorem exists_shift :
    ∃ shift : Int,
      (∀ (before : List Placed) (placed : Placed) (after : List Placed),
        items = before ++ placed :: after →
        1 + front.count '\n' < placed.line → (before.foldl Numbering.add {}).shift = shift) ∧
      (negative = false →
        shift = Text.ofDigits 10 digits - (((1 + front.count '\n' : Nat) : Int) + 1)) ∧
      ((∀ placed ∈ items, placed.line < 1 + front.count '\n' →
          placed.item ≠ .symbol ⟨.directive, "line"⟩) →
        (negative = true → shift = 0) ∧
        lineOverflow? text = if ∃ placed ∈ items, 1 + front.count '\n' < placed.line ∧
            placed.item.isLineMark = true ∧ ¬ Arithmetic.InRange (placed.line + shift)
          then some .addition else none) := by
  have hstands := standsFor_lineDirective (standsFor_digits negative hdigits.1 hdigits.2)
  obtain ⟨parts⟩ :=
    exists_directiveLine htext hfront hstands (by cases negative <;> simp) hplace
  have hbounds : ∀ placed ∈ items, placed.line < 2 ^ 63 := fun placed hmem =>
    Nat.lt_of_le_of_lt (line_le_of_place hplace placed hmem) hlines
  have hnext : 1 + front.count '\n' + 1 < 2 ^ 63 := by
    have hcount := congrArg (List.count '\n') htext
    simp only [count_dropReturns, List.count_append, List.count_cons_self] at hcount
    omega
  rw [lineOverflow?_eq hplace]
  cases negative with
  | false =>
    have hread := Text.readInt64?_of_isDigit hdigits.1 hdigits.2 (hfits rfl)
    have hsettled := parts.settled_number rfl hread
    have hnumber := hfits rfl
    rw [Parser.toInt_ofNat hnumber] at hsettled
    refine ⟨_, fun before placed after => parts.shift_behind hlast hsettled, fun _ => rfl,
      fun hfirst => ⟨by simp, ?_⟩⟩
    have hargument := parts.fault?_number hread rfl
      (by rw [Arithmetic.inRange_iff]; omega)
      (by rw [Arithmetic.inRange_iff, Parser.toInt_ofNat hnumber]; omega)
    refine parts.overflow?_eq hsettled (parts.overflow?_upto hfirst hbounds hargument).2 hlast
      fun other hother => ?_
    rw [Arithmetic.inRange_iff]
    omega
  | true =>
    have hsettled := parts.settled_signed rfl
    refine ⟨_, fun before placed after => parts.shift_behind hlast hsettled, by simp,
      fun hfirst => ?_⟩
    obtain ⟨hzero, hupto⟩ := parts.overflow?_upto hfirst hbounds (parts.fault?_signed rfl)
    refine ⟨fun _ => hzero, parts.overflow?_eq hsettled hupto hlast fun other hother => ?_⟩
    rw [hzero, Arithmetic.inRange_iff]
    omega

end

/-- Behind a line `.line N` that no other such directive follows, every declaration has the number
of its line counted from `N`: the line `j` lines behind the directive has the number `N + j - 1`,
or 1 if that is less.  If no directive stands before it, the text is assembled unless a line behind
the directive has a number that 64 bits with a sign do not hold, which is a fault (as long as the
parser does not give up).  A negative `N` is refused, and the lines keep the numbers they have. -/
theorem numbers_behind_directive {text file : String} {limit : Nat} {functions : FunctionTable}
    {front digits rest : List Char} {negative : Bool}
    (htext : dropReturns text.toList =
      front ++ (".line ".toList ++ (signChars negative ++ digits) ++ '\n' :: rest))
    (hfront : front = [] ∨ front.getLast? = some '\n') (hdigits : Document.IsDigits digits)
    (hfits : negative = false → Text.ofDigits 10 digits < 2 ^ 63)
    (hlines : 1 + text.toList.count '\n' < 2 ^ 63) :
    ∃ items, place Mode.step .start text = .ok items ∧
      ((∀ placed ∈ items, 1 + front.count '\n' < placed.line →
          placed.item ≠ .symbol ⟨.directive, "line"⟩) →
        (∀ program, assemble file text limit functions = .ok program →
          ∃ declared more, (Outline.ofItems items).starts = declared ++ more ∧
            (6 ≤ limit → more = []) ∧
            List.Forall₂ (fun (decl : Decl Statement) (start : Heading × Nat) =>
                decl.node.heading? = some start.1 ∧
                ∀ behind, 0 < behind → start.2 = 1 + front.count '\n' + behind →
                  (negative = false →
                    decl.position.line = max 1 (Text.ofDigits 10 digits + behind - 1)) ∧
                  (negative = true → (∀ placed ∈ items, placed.line < 1 + front.count '\n' →
                      placed.item ≠ .symbol ⟨.directive, "line"⟩) →
                    decl.position.line = start.2))
              program.decls declared) ∧
        ((∀ placed ∈ items, placed.line < 1 + front.count '\n' →
            placed.item ≠ .symbol ⟨.directive, "line"⟩) →
          ((negative = false →
              NumbersFit items (1 + front.count '\n') (Text.ofDigits 10 digits)) →
            ∃ program, assemble file text limit functions = .ok program) ∧
          (6 ≤ limit → negative = false →
            ¬ NumbersFit items (1 + front.count '\n') (Text.ofDigits 10 digits) →
            assemble file text limit functions = .error (.overflow .addition)))) := by
  obtain ⟨items, hplace, -⟩ := exists_place text
  refine ⟨items, hplace, fun hlast => ?_⟩
  obtain ⟨shift, hshift, hnumber, hfirst⟩ :=
    exists_shift htext hfront hdigits hfits hlines hplace hlast
  refine ⟨fun program hassemble => ?_, fun hearlier => ?_⟩
  · obtain ⟨declared, more, hstarts, hmore, hdecls⟩ :=
      numbers_of_assemble hplace hlines (by omega) hshift hassemble
    refine ⟨declared, more, hstarts, hmore, hdecls.imp fun decl start hstart => ?_⟩
    obtain ⟨hheading, hline⟩ := hstart
    refine ⟨hheading, fun behind hbehind hstart => ⟨fun hpositive => ?_, fun hnone hearlier => ?_⟩⟩
    · rw [hline (by omega), hnumber hpositive, hstart, lineNumber_behind _ _ hbehind]
    · rw [hline (by omega), (hfirst hearlier).1 hnone, lineNumber_zero (by omega)]
  · obtain ⟨hzero, hoverflow⟩ := hfirst hearlier
    refine ⟨fun hfit => ?_, fun hlimit hpositive hunfit => ?_⟩
    · obtain hassembled | ⟨operation, hfault⟩ := assemble_cases file text limit functions
      · exact hassembled
      · have hsome := lineOverflow?_of_assemble hlines hfault
        rw [hoverflow, if_neg] at hsome
        · cases hsome
        · intro hunfit
          cases negative with
          | false =>
            rw [hnumber rfl, ← not_numbersFit_iff] at hunfit
            exact hunfit (hfit rfl)
          | true =>
            -- the lines have their own numbers
            obtain ⟨placed, hmem, -, -, hrange⟩ := hunfit
            have hline := line_le_of_place hplace placed hmem
            rw [hzero rfl, Arithmetic.inRange_iff] at hrange
            omega
    · rw [assemble_eq_overflow_iff hlines file hlimit functions, hoverflow, hnumber hpositive,
        if_pos (not_numbersFit_iff.1 hunfit)]

/-- A text with a directive for the last number but one. -/
def sampleNumbered : String :=
  "a: nop\r\n.line 9223372036854775806\r\nnop\r\nb: push 1"

/-- The two lines behind the directive have the last two numbers. -/
theorem numbers_behind_directive_beforeLast :
    ∃ items program, place Mode.step .start sampleNumbered = .ok items ∧
      assemble "t.asm" sampleNumbered 1024 {} = .ok program ∧
      List.Forall₂ (fun (decl : Decl Statement) (start : Heading × Nat) =>
          decl.node.heading? = some start.1 ∧
          ∀ behind, 0 < behind → start.2 = 2 + behind →
            decl.position.line = max 1 (9223372036854775806 + behind - 1))
        program.decls (Outline.ofItems items).starts := by
  have hdigits : Document.IsDigits "9223372036854775806".toList :=
    ⟨by decide, List.all_eq_true.1 rfl⟩
  have hnumber : Text.ofDigits 10 "9223372036854775806".toList = 9223372036854775806 := by
    decide +kernel
  obtain ⟨items, hplace, hlaw⟩ :=
    @numbers_behind_directive sampleNumbered "t.asm" 1024 {} "a: nop\n".toList
      "9223372036854775806".toList "nop\nb: push 1".toList false (by decide +kernel)
      (.inr (by decide)) hdigits (fun _ => by rw [hnumber]; decide) (by decide +kernel)
  have hall : (place Mode.step .start sampleNumbered).toOption.map (List.all · fun placed =>
      placed.line ≤ 4 ∧ (placed.item = .symbol ⟨.directive, "line"⟩ → placed.line = 2)) =
        some true := by
    decide +kernel
  rw [hplace] at hall
  simp only [Except.toOption, Option.map_some, Option.some.injEq, List.all_eq_true,
    decide_eq_true_eq] at hall
  obtain ⟨hdeclares, hassembles⟩ := hlaw fun placed hmem hbehind hitem =>
    absurd ((hall placed hmem).2 hitem) (Nat.ne_of_gt hbehind)
  obtain ⟨program, hprogram⟩ := (hassembles fun placed hmem hbefore hitem =>
    absurd ((hall placed hmem).2 hitem) (Nat.ne_of_lt hbefore)).1 fun _ placed hmem _ _ => by
      rw [hnumber]
      have hline := (hall placed hmem).1
      show 9223372036854775806 + (placed.line - 2) ≤ 2 ^ 63
      omega
  obtain ⟨declared, more, hstarts, hmore, hdecls⟩ := hdeclares program hprogram
  refine ⟨items, program, hplace, hprogram, ?_⟩
  rw [hstarts, hmore (by decide), List.append_nil]
  refine hdecls.imp fun decl start hstart => ⟨hstart.1, fun behind hbehind hline => ?_⟩
  have hposition := (hstart.2 behind hbehind hline).1 rfl
  rwa [hnumber] at hposition

/-- There is no line behind the one with the largest number. -/
theorem number_behind_largest :
    (assemble "t.asm" ".line 9223372036854775807\nnop" 1024 {}).toOption.map
        (·.decls.map (·.position.line)) = some [9223372036854775807] ∧
      assemble "t.asm" ".line 9223372036854775807\nnop\nnop" 1024 {} =
        .error (.overflow .addition) :=
  ⟨by decide +kernel, rfl⟩

end Docpress.Assembly
