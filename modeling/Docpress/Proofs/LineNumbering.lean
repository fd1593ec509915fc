import Docpress.Proofs.AssemblyPlacement
import Docpress.Proofs.RaisedLimits
import Docpress.Proofs.StatementStarts
import Mathlib.Algebra.Group.Nat.Defs

/-!
# Line numbers that do not fit

A directive `.line N` gives the line behind it the number `N`, and the lines behind that one the
numbers that follow.  The parser stores the difference between the numbers and the lines of the text
as a shift, and computes with numbers of 64 bits.

`Numbering` follows the numbering through the items of a text in exact integers, and
`Numbering.overflow?` says which of the operations is the first one whose result does not fit.
`Parser.Tracks` ties a parser to the numbering of what it has read.  One item keeps this or is the
one that does not fit (`Parser.Tracks.step`), so a run fails exactly where the numbering says
(`Parser.Tracks.run`), and so does assembling a text (`assemble_eq_overflow_iff`).  With a lower
retry limit the parser may have given up before (`lineOverflow?_of_assemble`).

Texts without the directive keep their lines, and are assembled whatever else is in them
(`exists_assemble_of_noDirective`).
-/

namespace Docpress.Assembly

/-! ## Definitions -/

/-- How the lines are numbered behind some items of a text. -/
structure Numbering where
  part : LinePart := .start
  /-- the argument of the directive `line` comes next -/
  awaited : Bool := false
  /-- what has to be added to a line to get its number -/
  shift : Int := 0
deriving DecidableEq, Repr, Inhabited

namespace Numbering

/-- The number that the symbol is, if one is awaited. -/
def argument? (numbering : Numbering) (symbol : Symbol) : Option Int64 :=
  if numbering.awaited ∧ symbol.kind = .number then Text.readInt64? symbol.text else none

/-- The numbering behind one more item. -/
def add (numbering : Numbering) (placed : Placed) : Numbering :=
  match placed.item with
  | .inclusion _ => numbering
  | .symbol symbol =>
    if symbol.kind = .lineMark then numbering
    else
      { part := numbering.part.behind symbol
        awaited := numbering.part = .start ∧ symbol = ⟨.directive, "line"⟩
        shift := match numbering.argument? symbol with
          | some number => number.toInt - (placed.line + 1)
          | none => numbering.shift }

/-- The operation whose result does not fit at the item.  A mark takes the number of its line, and
the argument of a directive the line behind it and the shift. -/
def fault? (numbering : Numbering) (placed : Placed) : Option Arithmetic :=
  match placed.item with
  | .inclusion _ => none
  | .symbol symbol =>
    if symbol.kind = .lineMark then
      if Arithmetic.InRange (placed.line + numbering.shift) then none else some .addition
    else
      match numbering.argument? symbol with
      | none => none
      | some number =>
        if ¬ Arithmetic.InRange (placed.line + 1) then some .addition
        else if Arithmetic.InRange (number.toInt - (placed.line + 1)) then none
        else some .subtraction

/-- The first operation whose result does not fit. -/
def overflow? (numbering : Numbering) : List Placed → Option Arithmetic
  | [] => none
  | placed :: rest => (numbering.fault? placed).or ((numbering.add placed).overflow? rest)

end Numbering

/-- The first operation whose result does not fit when the lines of the text are numbered. -/
def lineOverflow? (text : String) : Option Arithmetic :=
  (place Mode.step .start text).toOption.bind (Numbering.overflow? {})

/-! ## Numberings -/

namespace Numbering

variable {numbering : Numbering} {placed : Placed} {items : List Placed} {shift : Int}

theorem add_mark (hmark : placed.item.isLineMark = true) : numbering.add placed = numbering := by
  cases hitem : placed.item with
  | inclusion path => simp [hitem, Item.isLineMark] at hmark
  | symbol symbol =>
    have hkind : symbol.kind = .lineMark := by simpa [hitem, Item.isLineMark] using hmark
    simp [add, hitem, hkind]

theorem fault?_mark (hmark : placed.item.isLineMark = true) :
    numbering.fault? placed =
      if Arithmetic.InRange (placed.line + numbering.shift) then none else some .addition := by
  cases hitem : placed.item with
  | inclusion path => simp [hitem, Item.isLineMark] at hmark
  | symbol symbol =>
    have hkind : symbol.kind = .lineMark := by simpa [hitem, Item.isLineMark] using hmark
    simp [fault?, hitem, hkind]

theorem foldl_marks (hmarks : ∀ placed ∈ items, placed.item.isLineMark = true) :
    items.foldl add numbering = numbering := by
  induction items with
  | nil => rfl
  | cons placed items ih =>
    rw [List.forall_mem_cons] at hmarks
    rw [List.foldl_cons, add_mark hmarks.1, ih hmarks.2]

theorem overflow?_append (first second : List Placed) :
    numbering.overflow? (first ++ second) =
      (numbering.overflow? first).or ((first.foldl add numbering).overflow? second) := by
  induction first generalizing numbering with
  | nil => rfl
  | cons placed first ih => rw [List.cons_append, overflow?, overflow?, ih, Option.or_assoc]; rfl

theorem overflow?_marks (hmarks : ∀ placed ∈ items, placed.item.isLineMark = true)
    (hranges : ∀ placed ∈ items, Arithmetic.InRange (placed.line + numbering.shift)) :
    numbering.overflow? items = none := by
  induction items with
  | nil => rfl
  | cons placed items ih =>
    rw [List.forall_mem_cons] at hmarks hranges
    rw [overflow?, fault?_mark hmarks.1, if_pos hranges.1, add_mark hmarks.1, Option.none_or,
      ih hmarks.2 hranges.2]

/-- Before the end of the data there may be more lines. -/
theorem part_ne_ended (hitems : NoEnd (items.map Placed.item)) (hpart : numbering.part ≠ .ended) :
    (items.foldl add numbering).part ≠ .ended := by
  induction items generalizing numbering with
  | nil => exact hpart
  | cons placed items ih =>
    rw [List.map_cons, noEnd_cons] at hitems
    refine ih hitems.2 ?_
    cases hmark : placed.item.isLineMark with
    | true =>
      rw [add_mark hmark]
      exact hpart
    | false =>
      cases hitem : placed.item with
      | inclusion path => simpa [add, hitem] using hpart
      | symbol symbol =>
        have hkind : symbol.kind ≠ .lineMark := by simpa [hitem, Item.isLineMark] using hmark
        have hend : symbol.kind ≠ .endOfData := by simpa [hitem, Item.isEnd] using hitems.1
        simp only [add, hitem, if_neg hkind]
        unfold LinePart.behind
        split <;> simp_all

/-- Whole lines lead to the start of a line, where no argument is awaited. -/
theorem of_wholeLines (hitems : NoEnd (items.map Placed.item))
    (hlast : ∀ item ∈ (items.map Placed.item).getLast?, item = .symbol .newline) :
    (items.foldl add {}).part = .start ∧ (items.foldl add {}).awaited = false := by
  rcases List.eq_nil_or_concat' items with rfl | ⟨front, placed, rfl⟩
  · exact ⟨rfl, rfl⟩
  · rw [List.map_append, noEnd_append] at hitems
    have hitem : placed.item = .symbol .newline := hlast placed.item (by simp)
    have hpart := @part_ne_ended {} front hitems.1 (by simp)
    rw [List.foldl_append]
    generalize front.foldl add {} = numbering at hpart
    obtain ⟨part, awaited, shift⟩ := numbering
    cases part with
    | ended => exact absurd rfl hpart
    | start | inside => simp [add, hitem, LinePart.behind, Symbol.newline]

/-- The shift is set, and no argument is awaited that would change it. -/
structure Settled (shift : Int) (numbering : Numbering) : Prop where
  awaited : numbering.awaited = false
  shift_eq : numbering.shift = shift

theorem Settled.argument? (hsettled : Settled shift numbering) (symbol : Symbol) :
    numbering.argument? symbol = none := by
  rw [Numbering.argument?, hsettled.awaited, if_neg (by simp)]

theorem Settled.add (hsettled : Settled shift numbering)
    (hother : placed.item ≠ .symbol ⟨.directive, "line"⟩) :
    Settled shift (numbering.add placed) := by
  cases hmark : placed.item.isLineMark with
  | true =>
    rw [add_mark hmark]
    exact hsettled
  | false =>
    cases hitem : placed.item with
    | inclusion path => simpa [Numbering.add, hitem] using hsettled
    | symbol symbol =>
      have hkind : symbol.kind ≠ .lineMark := by simpa [hitem, Item.isLineMark] using hmark
      have hsymbol : symbol ≠ ⟨.directive, "line"⟩ := fun h => hother (by rw [hitem, h])
      constructor
      · simp [Numbering.add, hitem, hkind, hsymbol]
      · simp [Numbering.add, hitem, hkind, hsettled.argument?, hsettled.shift_eq]

theorem Settled.foldl (hsettled : Settled shift numbering)
    (hnone : ∀ placed ∈ items, placed.item ≠ .symbol ⟨.directive, "line"⟩) :
    Settled shift (items.foldl Numbering.add numbering) := by
  induction items generalizing numbering with
  | nil => exact hsettled
  | cons placed items ih =>
    rw [List.forall_mem_cons] at hnone
    exact ih (hsettled.add hnone.1) hnone.2

/-- Without directives only marks are computed with. -/
theorem Settled.fault? (hsettled : Settled shift numbering) :
    numbering.fault? placed = if placed.item.isLineMark = true ∧
      ¬ Arithmetic.InRange (placed.line + shift) then some .addition else none := by
  cases hmark : placed.item.isLineMark with
  | true => simp [fault?_mark hmark, hsettled.shift_eq]
  | false =>
    cases hitem : placed.item with
    | inclusion path => simp [Numbering.fault?, hitem]
    | symbol symbol =>
      have hkind : symbol.kind ≠ .lineMark := by simpa [hitem, Item.isLineMark] using hmark
      simp [Numbering.fault?, hitem, hkind, hsettled.argument?]

theorem Settled.overflow?_eq (hsettled : Settled shift numbering)
    (hnone : ∀ placed ∈ items, placed.item ≠ .symbol ⟨.directive, "line"⟩) :
    numbering.overflow? items = if ∃ placed ∈ items, placed.item.isLineMark = true ∧
      ¬ Arithmetic.InRange (placed.line + shift) then some .addition else none := by
  induction items generalizing numbering with
  | nil => simp [overflow?]
  | cons placed items ih =>
    rw [List.forall_mem_cons] at hnone
    rw [overflow?, hsettled.fault?, ih (hsettled.add hnone.1) hnone.2]
    by_cases hfault : placed.item.isLineMark = true ∧ ¬ Arithmetic.InRange (placed.line + shift)
    · simp [hfault]
    · simp [hfault]

end Numbering

namespace Parser

/-- The parser has read items that lead to the numbering.  The last line mark was that of the line
`reported`. -/
structure Tracks (reported : Nat) (numbering : Numbering) (parser : Parser) : Prop where
  ready : Ready parser
  limit : 6 ≤ parser.retryLimit
  part : partOf parser.states = numbering.part
  awaited : numbering.awaited = true → parser.states = .directive "line" :: lineEnd
  calm : numbering.awaited = false → Calm parser.states
  textLine : reported ≠ 0 → parser.textLine = reported
  lineShift : parser.lineShift.toInt = numbering.shift

theorem tracks_start (file : String) {limit : Nat} (hlimit : 6 ≤ limit)
    (functions : FunctionTable) : Tracks 0 {} (start file limit functions) where
  ready := ready_start file limit functions
  limit := hlimit
  part := rfl
  awaited hawaited := by cases hawaited
  calm _ := by simp [Calm, start]
  textLine hne := absurd rfl hne
  lineShift := rfl

section

variable {reported last : Nat} {numbering : Numbering} {parser : Parser}

/-! ## Line marks -/

theorem toInt_ofNat {line : Nat} (hline : line < 2 ^ 63) : (Int64.ofNat line).toInt = line :=
  Int64.toInt_ofNat_of_lt hline

/-- A line mark gives the parser its line, and the number of the line if that fits. -/
theorem put_mark {line : Nat} (hline : line < 2 ^ 63)
    (hrange : Arithmetic.InRange (line + parser.lineShift.toInt)) :
    put (.lineMark line) parser = .ok (true, { parser with
      textLine := line
      position.line := (max (Int64.ofInt (line + parser.lineShift.toInt)) 1).toNatClampNeg }) := by
  have hline' : line < 2 ^ 64 := by omega
  have hshifted := @shifted_of_inRange parser line (by rwa [toInt_ofNat hline])
  rw [toInt_ofNat hline] at hshifted
  simp only [put, Symbol.lineMark, Text.readUInt64?_decimal hline',
    UInt64.toNat_ofNat_of_lt' hline', hshifted]
  rfl

theorem overflow_mark {line : Nat} (hline : line < 2 ^ 63)
    (hrange : ¬ Arithmetic.InRange (line + parser.lineShift.toInt)) :
    Overflow parser (.lineMark line) .addition := by
  have hline' : line < 2 ^ 64 := by omega
  refine .mark rfl (Text.readUInt64?_decimal hline') ?_
  rwa [UInt64.toNat_ofNat_of_lt' hline', toInt_ofNat hline]

theorem Tracks.mark {placed : Placed} (htracks : Tracks reported numbering parser)
    (hitem : placed.item = .symbol (.lineMark placed.line)) (hline : placed.line < 2 ^ 63) :
    (numbering.fault? placed = none ∧ ∃ next, feedItem parser placed.item = .ok next ∧
      Tracks placed.line (numbering.add placed) next) ∨
    ∃ operation, numbering.fault? placed = some operation ∧
      feedItem parser placed.item = .error (.overflow operation) := by
  have hmark : placed.item.isLineMark = true := by
    rw [hitem]
    rfl
  rw [Numbering.add_mark hmark, Numbering.fault?_mark hmark, hitem, ← htracks.lineShift]
  by_cases hrange : Arithmetic.InRange (placed.line + parser.lineShift.toInt)
  · rw [if_pos hrange]
    refine .inl ⟨rfl, _, feed_of_takes htracks.ready htracks.limit
      (.taken (put_mark hline hrange)), ?_⟩
    exact ⟨⟨⟨htracks.ready.steady.fits, htracks.ready.steady.finished, htracks.ready.steady.decls⟩,
      htracks.ready.notAbandoned⟩, htracks.limit, htracks.part, htracks.awaited, htracks.calm,
      fun _ => rfl, htracks.lineShift⟩
  · rw [if_neg hrange]
    exact .inr ⟨.addition, rfl, feed_overflow htracks.ready.notAbandoned
      (overflow_mark hline hrange)⟩

/-! ## The directive -/

/-- At the start of a line the directive is read and its argument waited for. -/
theorem feed_lineDirective (hready : Ready parser) (hlimit : 6 ≤ parser.retryLimit)
    (hstart : partOf parser.states = .start) :
    feed ⟨.directive, "line"⟩ parser =
      .ok { parser with states := .directive "line" :: lineEnd } := by
  obtain ⟨next, htakes, hfeed, -⟩ :=
    feed_takes ⟨.directive, "line"⟩ hready hlimit (safe_of_kind (by simp) (by simp))
  have hstep := takes_of_start (by simp) (by simp) hready.steady hstart htakes
  cases hstep
  exact hfeed

/-- What is no number leaves the shift as it is. -/
theorem calm_of_refused {symbol : Symbol} {next : Parser} (hsteady : Steady parser)
    (hstates : parser.states = .directive "line" :: lineEnd) (hmark : symbol.kind ≠ .lineMark)
    (hnumber : symbol.kind = .number → Text.readInt64? symbol.text = none)
    (htakes : Takes (put symbol) parser next) :
    Calm next.states ∧ next.lineShift = parser.lineShift := by
  by_cases hkind : symbol.kind = .number
  · have hput : put symbol parser = .ok (true, { parser with states := lineEnd }) := by
      simp only [put, hkind, hstates, step, stepDirective, hnumber hkind]
      rfl
    rw [htakes.of_taken hput]
    exact ⟨by simp [Calm, lineEnd], rfl⟩
  · have hput : put symbol parser = .ok (false, { parser.report
        (.mismatch (.argument "line") symbol) with states := lineEnd }) := by
      rw [put_of_states hmark hstates, step, stepDirective, if_neg (by simp),
        if_neg (by simp [hkind])]
      rfl
    have hfed := takes_fed hmark (steady_of_put hsteady hput) (htakes.of_declined hput)
    exact hfed.calm (by simp [Calm, lineEnd]) (by simp [partOf, lineEnd])

/-- The argument sets the shift if it fits. -/
theorem put_argument {symbol : Symbol} {number : Int64} {line : Nat} (hline : line < 2 ^ 63)
    (htextLine : parser.textLine = line) (hstates : parser.states = .directive "line" :: lineEnd)
    (hkind : symbol.kind = .number) (hread : Text.readInt64? symbol.text = some number)
    (hfollowing : Arithmetic.InRange (line + 1))
    (hrange : Arithmetic.InRange (number.toInt - (line + 1))) :
    put symbol parser = .ok (true, { parser with
      states := lineEnd, lineShift := .ofInt (number.toInt - (line + 1)) }) := by
  rw [← toInt_ofNat hline, ← htextLine] at hfollowing hrange ⊢
  rw [put_lineNumber hstates hkind hread, shiftTo_of_inRange hfollowing hrange]
  rfl

theorem Tracks.argument {placed : Placed} {symbol : Symbol} {number : Int64}
    (htracks : Tracks reported numbering parser) (hitem : placed.item = .symbol symbol)
    (hmark : symbol.kind ≠ .lineMark) (hreported : placed.line = reported)
    (hline : placed.line < 2 ^ 63) (hargument : numbering.argument? symbol = some number) :
    (numbering.fault? placed = none ∧ ∃ next, feedItem parser placed.item = .ok next ∧
      Tracks reported (numbering.add placed) next) ∨
    ∃ operation, numbering.fault? placed = some operation ∧
      feedItem parser placed.item = .error (.overflow operation) := by
  obtain ⟨⟨hawaited, hkind⟩, hread⟩ :
      (numbering.awaited = true ∧ symbol.kind = .number) ∧
        Text.readInt64? symbol.text = some number := by
    simpa [Numbering.argument?] using hargument
  have hstates := htracks.awaited hawaited
  have htextLine : parser.textLine = placed.line := by
    rw [hreported]
    refine htracks.textLine ?_
    rw [← hreported, Placed.line]
    omega
  have hfault : numbering.fault? placed =
      if ¬ Arithmetic.InRange (placed.line + 1) then some .addition
      else if Arithmetic.InRange (number.toInt - (placed.line + 1)) then none
      else some .subtraction := by
    simp [Numbering.fault?, hitem, hmark, hargument]
  have hpart : numbering.part = .inside := by
    rw [← htracks.part, hstates]
    rfl
  rw [hfault, hitem]
  by_cases hfollowing : Arithmetic.InRange (placed.line + 1)
  · by_cases hrange : Arithmetic.InRange (number.toInt - (placed.line + 1))
    · rw [if_neg (by simpa using hfollowing), if_pos hrange]
      have hput := put_argument hline htextLine hstates hkind hread hfollowing hrange
      have hfeed := feed_of_takes htracks.ready htracks.limit (.taken hput)
      obtain ⟨-, hready, -⟩ := takes_of_feed htracks.ready htracks.limit hfeed
      refine .inl ⟨rfl, _, hfeed, hready, htracks.limit, ?_, ?_, ?_, htracks.textLine, ?_⟩
      · simp [Numbering.add, hitem, hpart, LinePart.behind, hkind, partOf, lineEnd]
      · simp [Numbering.add, hitem, hmark, hpart]
      · simp [Calm, lineEnd]
      · simp only [Numbering.add, hitem, hmark, hargument, if_false]
        exact Arithmetic.toInt_ofInt hrange
    · rw [if_neg (by simpa using hfollowing), if_neg hrange]
      refine .inr ⟨.subtraction, rfl, feed_overflow htracks.ready.notAbandoned ?_⟩
      exact .shift hstates hkind hread (by rwa [htextLine, toInt_ofNat hline])
        (by rwa [htextLine, toInt_ofNat hline])
  · rw [if_pos hfollowing]
    refine .inr ⟨.addition, rfl, feed_overflow htracks.ready.notAbandoned ?_⟩
    exact .following hstates hkind hread (by rwa [htextLine, toInt_ofNat hline])

/-! ## Other symbols -/

/-- A symbol that sets no number is fed without a fault. -/
theorem Tracks.symbol {placed : Placed} {symbol : Symbol}
    (htracks : Tracks reported numbering parser) (hitem : placed.item = .symbol symbol)
    (hmark : symbol.kind ≠ .lineMark) (hargument : numbering.argument? symbol = none) :
    ∃ next, feedItem parser placed.item = .ok next ∧
      Tracks reported (numbering.add placed) next := by
  have hadd : numbering.add placed =
      { part := numbering.part.behind symbol
        awaited := numbering.part = .start ∧ symbol = ⟨.directive, "line"⟩
        shift := numbering.shift } := by
    simp [Numbering.add, hitem, hmark, hargument]
  rw [hadd, hitem]
  by_cases hdirective : numbering.part = .start ∧ symbol = ⟨.directive, "line"⟩
  · obtain ⟨hstart, rfl⟩ := hdirective
    have hfeed := feed_lineDirective htracks.ready htracks.limit (htracks.part.trans hstart)
    obtain ⟨-, hready, -⟩ := takes_of_feed htracks.ready htracks.limit hfeed
    refine ⟨_, hfeed, hready, htracks.limit, ?_, fun _ => rfl, ?_, htracks.textLine,
      htracks.lineShift⟩
    · simp [hstart, LinePart.behind, partOf]
    · simp [hstart]
  · have hrefused (hawaited : numbering.awaited = true) (hkind : symbol.kind = .number) :
        Text.readInt64? symbol.text = none := by
      simpa [Numbering.argument?, hawaited, hkind] using hargument
    have hsafe : Safe parser symbol := by
      cases hawaited : numbering.awaited with
      | false => exact safe_of_calm hmark (htracks.calm hawaited)
      | true =>
        intro operation hoverflow
        cases hoverflow with
        | mark hkind => exact hmark hkind
        | following _ hkind hread => simp [hrefused hawaited hkind] at hread
        | shift _ hkind hread => simp [hrefused hawaited hkind] at hread
    obtain ⟨next, htakes, hfeed, hready, hkeeps⟩ :=
      feed_takes symbol htracks.ready htracks.limit hsafe
    have hfed := takes_fed hmark htracks.ready.steady htakes
    obtain ⟨hcalm, hshift⟩ : Calm next.states ∧ next.lineShift = parser.lineShift := by
      cases hawaited : numbering.awaited with
      | false =>
        refine hfed.calm (htracks.calm hawaited) fun hstart heq => hdirective ⟨?_, heq⟩
        rw [← htracks.part, hstart]
      | true =>
        exact calm_of_refused htracks.ready.steady (htracks.awaited hawaited) hmark
          (hrefused hawaited) htakes
    refine ⟨next, hfeed, hready, ?_, ?_, by simp [hdirective], fun _ => hcalm, ?_, ?_⟩
    · rw [hkeeps.retryLimit]
      exact htracks.limit
    · rw [hfed.part, htracks.part]
    · rw [hfed.textLine]
      exact htracks.textLine
    · rw [hshift]
      exact htracks.lineShift

/-! ## Runs -/

/-- One item is taken if its numbers fit. -/
theorem Tracks.step {placed : Placed} {rest : List Placed}
    (hmarked : Marked reported (placed :: rest) last) (htracks : Tracks reported numbering parser)
    (hline : placed.line < 2 ^ 63) :
    (numbering.fault? placed = none ∧ ∃ next between, feedItem parser placed.item = .ok next ∧
      Marked between rest last ∧ Tracks between (numbering.add placed) next) ∨
    ∃ operation, numbering.fault? placed = some operation ∧
      feedItem parser placed.item = .error (.overflow operation) := by
  cases hmarked with
  | mark hitem hrest =>
    obtain ⟨hnone, next, hfeed, hnext⟩ | hfault := htracks.mark hitem hline
    · exact .inl ⟨hnone, next, _, hfeed, hrest, hnext⟩
    · exact .inr hfault
  | @symbol _ _ _ _ symbol hitem hplain hreported hrest =>
    cases hargument : numbering.argument? symbol with
    | none =>
      obtain ⟨next, hfeed, hnext⟩ := htracks.symbol hitem hplain.2 hargument
      refine .inl ⟨?_, next, _, hfeed, hrest, hnext⟩
      simp [Numbering.fault?, hitem, hplain.2, hargument]
    | some number =>
      have hkind : symbol.kind = .number := by
        unfold Numbering.argument? at hargument
        split at hargument
        · exact ‹_ ∧ _›.2
        · cases hargument
      obtain ⟨hnone, next, hfeed, hnext⟩ | hfault :=
        htracks.argument hitem hplain.2 (hreported (by simp [hkind])) hline hargument
      · exact .inl ⟨hnone, next, _, hfeed, hrest, hnext⟩
      · exact .inr hfault
  | inclusion hitem hrest =>
    refine .inl ⟨by simp [Numbering.fault?, hitem], parser, _, by rw [hitem]; rfl, hrest, ?_⟩
    simpa [Numbering.add, hitem] using htracks

/-- A run ends where the numbering says that a number does not fit, and nowhere else. -/
theorem Tracks.run {items : List Placed} (hmarked : Marked reported items last)
    (htracks : Tracks reported numbering parser) (hlines : ∀ placed ∈ items, placed.line < 2 ^ 63) :
    (numbering.overflow? items = none ∧
      ∃ next, (items.map Placed.item).foldlM feedItem parser = .ok next ∧
        Tracks last (items.foldl Numbering.add numbering) next) ∨
    ∃ operation, numbering.overflow? items = some operation ∧
      (items.map Placed.item).foldlM feedItem parser = .error (.overflow operation) := by
  induction items generalizing reported numbering parser with
  | nil =>
    cases hmarked
    exact .inl ⟨rfl, parser, rfl, htracks⟩
  | cons placed rest ih =>
    rw [List.forall_mem_cons] at hlines
    obtain ⟨hnone, next, between, hfeed, hrest, hnext⟩ | ⟨operation, hfault, hfeed⟩ :=
      htracks.step hmarked hlines.1
    · have hfold : ((placed :: rest).map Placed.item).foldlM feedItem parser =
          (rest.map Placed.item).foldlM feedItem next := by
        rw [List.map_cons, List.foldlM_cons, hfeed, ok_bind]
      rw [Numbering.overflow?, hnone, Option.none_or, hfold]
      exact ih hrest hnext hlines.2
    · refine .inr ⟨operation, by rw [Numbering.overflow?, hfault]; rfl, ?_⟩
      rw [List.map_cons, List.foldlM_cons, hfeed]
      rfl

end

/-! ## Texts without the directive -/

/-- No line is numbered anew. -/
structure Unnumbered (parser : Parser) : Prop where
  steady : Steady parser
  calm : Calm parser.states
  lineShift : parser.lineShift = 0

theorem unnumbered_start (file : String) (limit : Nat) (functions : FunctionTable) :
    Unnumbered (start file limit functions) :=
  ⟨steady_start file limit functions, by simp [Calm, start], rfl⟩

theorem Unnumbered.put {symbol : Symbol} {parser : Parser} (hparser : Unnumbered parser)
    (hother : symbol ≠ ⟨.directive, "line"⟩) :
    ∃ taken next, Parser.put symbol parser = .ok (taken, next) ∧ Unnumbered next := by
  obtain ⟨taken, next, hput, hnext⟩ :=
    put_steady symbol hparser.steady (safe_of_lineShift hparser.lineShift hparser.calm)
  obtain ⟨hcalm, hshift⟩ := put_calm hparser.steady hparser.calm hother hput
  exact ⟨taken, next, hput, hnext, hcalm, hshift.trans hparser.lineShift⟩

theorem Unnumbered.feed {symbol : Symbol} {parser : Parser} (hparser : Unnumbered parser)
    (hother : symbol ≠ ⟨.directive, "line"⟩) :
    ∃ next, Parser.feed symbol parser = .ok next ∧ Unnumbered next := by
  have hattempt (state : Parser) (hstate : Unnumbered state) :
      (∃ next, Parser.put symbol state = .ok (true, next) ∧ Unnumbered next) ∨
      (∃ next, Parser.put symbol state = .ok (false, next) ∧ Unnumbered next) ∨
      ∃ fault, Parser.put symbol state = .error fault ∧ False := by
    obtain ⟨taken, next, hput, hnext⟩ := hstate.put hother
    cases taken with
    | true => exact .inl ⟨next, hput, hnext⟩
    | false => exact .inr (.inl ⟨next, hput, hnext⟩)
  unfold Parser.feed
  split
  · exact ⟨parser, rfl, hparser⟩
  · obtain ⟨next, hoffer, hnext⟩ | ⟨next, hoffer, hnext⟩ | ⟨_, _, hfalse⟩ :=
      offer_cases hattempt parser.retryLimit hparser
    · rw [hoffer]
      exact ⟨next, rfl, hnext⟩
    · rw [hoffer]
      exact ⟨_, rfl, ⟨hnext.steady.fits, hnext.steady.finished, hnext.steady.decls⟩, hnext.calm,
        hnext.lineShift⟩
    · exact hfalse.elim

theorem Unnumbered.foldlM {items : List Item} {parser : Parser} (hparser : Unnumbered parser)
    (hnone : .symbol ⟨.directive, "line"⟩ ∉ items) :
    ∃ next, items.foldlM feedItem parser = .ok next ∧ Unnumbered next := by
  induction items generalizing parser with
  | nil => exact ⟨parser, rfl, hparser⟩
  | cons item items ih =>
    rw [List.mem_cons, not_or] at hnone
    cases item with
    | inclusion path => exact ih hparser hnone.2
    | symbol symbol =>
      have hother : symbol ≠ ⟨.directive, "line"⟩ := by
        rintro rfl
        exact hnone.1 rfl
      obtain ⟨next, hfeed, hnext⟩ := hparser.feed hother
      obtain ⟨last, hlast, hunnumbered⟩ := ih hnext hnone.2
      refine ⟨last, ?_, hunnumbered⟩
      rw [List.foldlM_cons, feedItem, hfeed, ok_bind, hlast]

end Parser

/-! ## Assembling -/

/-- A text is assembled unless the number of a line does not fit. -/
theorem assemble_cases (file text : String) (retryLimit : Nat) (functions : FunctionTable) :
    (∃ program, assemble file text retryLimit functions = .ok program) ∨
    ∃ operation, assemble file text retryLimit functions = .error (.overflow operation) := by
  obtain ⟨items, _, _, hlex, _⟩ := lex_eq_scans Mode.patient .start text
  obtain ⟨decls, diagnostics, hparse, -⟩ | ⟨operation, hparse⟩ :=
    parseItems_cases items file retryLimit functions
  · refine .inl ⟨.ofStatements decls diagnostics, ?_⟩
    rw [assemble, parse, lex, hlex, ok_bind, hparse, ok_bind]
    rfl
  · refine .inr ⟨operation, ?_⟩
    rw [assemble, parse, lex, hlex, ok_bind, hparse]
    rfl

theorem exists_assemble_of_noDirective {text : String} {last : Mode} {raw : List Item}
    (hscans : Scans Mode.step .start (Token.runs (dropReturns text.toList) ++ [Token.endOfText])
      last raw) (hnone : .symbol ⟨.directive, "line"⟩ ∉ raw) (file : String) (retryLimit : Nat)
    (functions : FunctionTable) :
    ∃ program, assemble file text retryLimit functions = .ok program := by
  obtain ⟨items, last', raw', hlex, hscans', hitems⟩ := lex_eq_scans Mode.patient .start text
  obtain ⟨-, rfl⟩ := hscans.unique hscans'
  have hnone' : .symbol ⟨.directive, "line"⟩ ∉ items := fun hmem => hnone (by
    have hmem' : .symbol ⟨.directive, "line"⟩ ∈ unmarked items := List.mem_filter.2 ⟨hmem, rfl⟩
    rw [hitems] at hmem'
    exact (List.mem_filter.1 hmem').1)
  obtain ⟨parser, hfold, -⟩ :=
    (Parser.unnumbered_start file retryLimit functions).foldlM hnone'
  exact ⟨_, assemble_of_run hlex hfold⟩

theorem lineOverflow?_eq {text : String} {items : List Placed}
    (hplace : place Mode.step .start text = .ok items) :
    lineOverflow? text = Numbering.overflow? {} items := by
  rw [lineOverflow?, hplace]
  rfl

/-- Whether a text is assembled can be told from its items. -/
theorem assemble_numbered {text : String} (hlines : 1 + text.toList.count '\n' < 2 ^ 63)
    (file : String) {limit : Nat} (hlimit : 6 ≤ limit) (functions : FunctionTable) :
    (lineOverflow? text = none ∧ ∃ program, assemble file text limit functions = .ok program) ∨
    ∃ operation, lineOverflow? text = some operation ∧
      assemble file text limit functions = .error (.overflow operation) := by
  obtain ⟨items, hplace, hlex, -⟩ := exists_place text
  obtain ⟨last, hmarked⟩ := marked_of_place hplace
  rw [lineOverflow?_eq hplace]
  obtain ⟨hnone, parser, hfold, -⟩ | ⟨operation, hoverflow, hfold⟩ :=
    (Parser.tracks_start file hlimit functions).run hmarked fun placed hmem =>
      Nat.lt_of_le_of_lt (line_le_of_place hplace placed hmem) hlines
  · exact .inl ⟨hnone, _, assemble_of_run hlex hfold⟩
  · refine .inr ⟨operation, hoverflow, ?_⟩
    rw [assemble, parse, hlex, ok_bind, parseItems, hfold]
    rfl

theorem assemble_eq_overflow_iff {text : String} (hlines : 1 + text.toList.count '\n' < 2 ^ 63)
    (file : String) {limit : Nat} (hlimit : 6 ≤ limit) (functions : FunctionTable)
    (operation : Arithmetic) :
    assemble file text limit functions = .error (.overflow operation) ↔
      lineOverflow? text = some operation := by
  obtain ⟨hnone, program, hassemble⟩ | ⟨other, hoverflow, hassemble⟩ :=
    assemble_numbered hlines file hlimit functions
  · simp [hassemble, hnone]
  · simp [hassemble, hoverflow]

/-! ### Retry limits -/

theorem Parser.foldlM_feedItem_symbols (items : List Item) (parser : Parser) :
    items.foldlM feedItem parser =
      (Document.symbols items).foldlM (fun parser symbol => parser.feed symbol) parser := by
  induction items generalizing parser with
  | nil => rfl
  | cons item items ih =>
    cases item with
    | inclusion path => exact ih parser
    | symbol symbol =>
      rw [Document.symbols_symbol_cons, List.foldlM_cons, List.foldlM_cons]
      exact bind_congr ih

/-- With a higher limit more statements may be declared behind the same ones, unless the number of a
line among them does not fit. -/
theorem assemble_raised {limit raised : Nat} (hlimit : limit ≤ raised) (text file : String)
    (functions : FunctionTable) :
    (∃ first second, assemble file text limit functions = .ok first ∧
      assemble file text raised functions = .ok second ∧ first.decls <+: second.decls) ∨
    ∃ operation, assemble file text raised functions = .error (.overflow operation) ∧
      (assemble file text limit functions = .error (.overflow operation) ∨
        ∃ first, assemble file text limit functions = .ok first) := by
  obtain ⟨items, hlex, -⟩ := endsOnce_of_text text
  have hassemble (limit : Nat) : assemble file text limit functions =
      (fun result => .ofStatements result.1 result.2) <$>
        (Parser.limited.feedAll (.start file limit functions) (Document.symbols items) >>=
          Parser.limited.finish) := by
    rw [assemble, parse, hlex, ok_bind, parseItems, Parser.foldlM_feedItem_symbols]
    exact bind_pure_comp _ _
  have hstart : Parser.start file raised functions =
      Parser.limited.relimited raised (.start file limit functions) := rfl
  rw [hassemble limit, hassemble raised, hstart]
  obtain ⟨first, second, hfirst, hsecond, hcontinues⟩ |
      ⟨_, ⟨operation, rfl⟩, hsecond, hfirst | ⟨first, hfirst, -⟩⟩ :=
    Parser.limited_lawful.continues (Parser.steady_start file limit functions) hlimit rfl rfl
      (Document.symbols items)
  · exact .inl ⟨_, _, by rw [hfirst]; rfl, by rw [hsecond]; rfl, hcontinues.decls⟩
  · exact .inr ⟨operation, by rw [hsecond]; rfl, .inl (by rw [hfirst]; rfl)⟩
  · exact .inr ⟨operation, by rw [hsecond]; rfl, .inr ⟨_, by rw [hfirst]; rfl⟩⟩

/-- Whatever the limit, only a number that does not fit keeps a text from being assembled. -/
theorem lineOverflow?_of_assemble {text : String} (hlines : 1 + text.toList.count '\n' < 2 ^ 63)
    {file : String} {limit : Nat} {functions : FunctionTable} {operation : Arithmetic}
    (hfault : assemble file text limit functions = .error (.overflow operation)) :
    lineOverflow? text = some operation := by
  obtain ⟨_, _, hfirst, -⟩ | ⟨other, hraised, hfirst | ⟨_, hfirst⟩⟩ :=
    assemble_raised (Nat.le_max_left limit 6) text file functions
  · rw [hfault] at hfirst
    cases hfirst
  · rw [hfault] at hfirst
    cases hfirst
    exact (assemble_eq_overflow_iff hlines file (Nat.le_max_right limit 6) functions _).1 hraised
  · rw [hfault] at hfirst
    cases hfirst

end Docpress.Assembly
