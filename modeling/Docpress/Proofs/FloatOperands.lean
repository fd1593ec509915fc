import Docpress.Proofs.Meaning
import Docpress.Proofs.Reports
import Docpress.Proofs.TimestampWords
import Mathlib.Algebra.Group.Nat.Defs

/-!
# Floating point numbers as operands

A number with a fraction is rounded when a document is read, spelled in the code of the document and
read again by the assembler.  A finite number arrives with all its bits, but the word for infinity
is no constant in assembly text: a push of it is reported and pushes null (`assemble_push_float`).

* `Decimal.rank_lt_infinityRank_iff`: the decimals that are rounded to a finite number are those
  below half a step above the largest one.
* `Document.payload_float`: the number that a symbol stands for.
* `assemble_push_finite`, `assemble_push_infinity`: what becomes of a line that pushes it.
-/

namespace Docpress

/-! ## Beyond the range -/

namespace Binary64

/-- The least number that is rounded to infinity.  It lies half a step of 2^971 above the largest
finite number, which has a significand of 53 bits. -/
def overflowBound : Nat := (2 ^ 54 - 1) * 2 ^ 970

/-- A half goes to the even neighbour, so a quotient is rounded to less than an even number if and
only if it is more than a half below it. -/
theorem divNearestEven_lt_iff {num den bound : Nat} (hden : 0 < den) (heven : bound % 2 = 0) :
    divNearestEven num den < bound ↔ 2 * num + den < 2 * (bound * den) := by
  have hnum : num / den * den + num % den = num := Nat.div_add_mod' num den
  have hrest := Nat.mod_lt num hden
  rw [divNearestEven]
  generalize num / den = low, num % den = rest at hnum hrest
  rcases Nat.lt_trichotomy (low + 1) bound with hlt | rfl | hlt
  · obtain ⟨more, rfl⟩ := Nat.exists_eq_add_of_lt hlt
    have hexpand : (low + 1 + more + 1) * den = low * den + den + more * den + den := by
      rw [Nat.succ_mul, Nat.add_mul, Nat.succ_mul]
    constructor
    · intro _
      omega
    · intro _
      split_ifs <;> omega
  · have hexpand : (low + 1) * den = low * den + den := Nat.succ_mul low den
    split_ifs <;> omega
  · have hle : bound * den ≤ low * den := Nat.mul_le_mul_right den (by omega)
    split_ifs <;> omega

theorem div_le_divNearestEven (num den : Nat) : num / den ≤ divNearestEven num den := by
  rw [divNearestEven]
  split_ifs <;> omega

theorem divNearestEven_le (num den : Nat) : divNearestEven num den ≤ num / den + 1 := by
  rw [divNearestEven]
  split_ifs <;> omega

/-- The exponent of a quotient leaves it 53 bits, the first of them set but for the lowest
exponent. -/
theorem div_doublings {units den doublings : Nat}
    (hdoublings : (units / den).log2 - 52 = doublings) :
    units / (den * 2 ^ doublings) < 2 ^ 53 ∧
      (doublings ≠ 0 → 2 ^ 52 ≤ units / (den * 2 ^ doublings)) := by
  rw [← Nat.div_div_eq_div_mul]
  generalize units / den = whole at hdoublings
  constructor
  · apply Nat.div_lt_of_lt_mul
    rw [← Nat.pow_add]
    calc whole < 2 ^ (whole.log2 + 1) := Nat.lt_log2_self
      _ ≤ 2 ^ (doublings + 53) := Nat.pow_le_pow_right (by omega) (by omega)
  · intro hne
    have hwhole : whole ≠ 0 := by
      rintro rfl
      exact hne hdoublings.symm
    rw [Nat.le_div_iff_mul_le (Nat.two_pow_pos _), ← Nat.pow_add]
    calc 2 ^ (52 + doublings) = 2 ^ whole.log2 := by congr 1; omega
      _ ≤ whole := Nat.log2_self_le hwhole

/-- The rank of a quotient in the smallest unit stays below that of infinity as long as the
quotient is less than half a step above the largest finite magnitude. -/
theorem rank_lt_infinityRank_iff {units den doublings k : Nat} (hden : 0 < den) (hk : k = 2044)
    (hdoublings : (units / den).log2 - 52 = doublings) :
    doublings * rankStep + divNearestEven units (den * 2 ^ doublings) < infinityRank ↔
      units < (2 ^ 54 - 1) * (den * 2 ^ k) := by
  obtain ⟨hhigh, hlow⟩ := div_doublings hdoublings
  have hpos (exponent : Nat) : 0 < den * 2 ^ exponent := Nat.mul_pos hden (Nat.two_pow_pos _)
  have hmono {low high : Nat} (hle : low ≤ high) : den * 2 ^ low ≤ den * 2 ^ high :=
    Nat.mul_le_mul_left den (Nat.pow_le_pow_right (by omega) hle)
  have hfloor := div_le_divNearestEven units (den * 2 ^ doublings)
  have hceil := divNearestEven_le units (den * 2 ^ doublings)
  rw [infinityRank_eq, rankStep_eq]
  rcases Nat.lt_trichotomy doublings (k + 1) with hlt | rfl | hlt
  · -- all that has a smaller exponent is finite
    have hunits := (Nat.div_lt_iff_lt_mul (hpos doublings)).1 hhigh
    have hcell := hmono (show doublings ≤ k by omega)
    constructor
    · omega
    · omega
  · -- the largest exponent: the significand must not be rounded up to the next one
    have hcell : den * 2 ^ (k + 1) = 2 * (den * 2 ^ k) := by
      rw [Nat.pow_succ, ← Nat.mul_assoc, Nat.mul_comm]
    have hround : divNearestEven units (den * 2 ^ (k + 1)) < 2 ^ 53 ↔ _ :=
      divNearestEven_lt_iff (hpos (k + 1)) (by decide)
    generalize divNearestEven units (den * 2 ^ (k + 1)) = significand at hround
    omega
  · have hunits := (Nat.le_div_iff_mul_le (hpos doublings)).1 (hlow (by omega))
    have hcell := hmono (show k + 2 ≤ doublings by omega)
    have hsplit : den * 2 ^ (k + 2) = 4 * (den * 2 ^ k) := by
      rw [Nat.pow_add, ← Nat.mul_assoc, Nat.mul_comm]
    have := hpos k
    have := hlow (by omega)
    constructor
    · omega
    · omega

theorem mul_two_pow_lt_iff (num significand den step unit : Nat) :
    num * 2 ^ unit < significand * (den * 2 ^ (step + unit)) ↔
      num < significand * 2 ^ step * den := by
  have hsplit : significand * (den * 2 ^ (step + unit)) =
      significand * 2 ^ step * den * 2 ^ unit := by
    rw [Nat.pow_add]
    ac_rfl
  rw [hsplit, Nat.mul_lt_mul_right (Nat.two_pow_pos unit)]

theorem nearestRank_lt_infinityRank_iff {num den : Nat} (hden : 0 < den) :
    nearestRank num den < infinityRank ↔ num < overflowBound * den := by
  have hmin (rank : Nat) : min infinityRank rank < infinityRank ↔ rank < infinityRank := by omega
  obtain ⟨unit, hunit⟩ : ∃ unit, unit = 1074 := ⟨1074, rfl⟩
  rw [nearestRank, ← hunit, hmin]
  exact (rank_lt_infinityRank_iff (k := 970 + unit) hden (by omega) rfl).trans
    (mul_two_pow_lt_iff num (2 ^ 54 - 1) den 970 unit)

end Binary64

/-! ## Decimals -/

namespace Decimal

theorem rank_le (d : Decimal) : d.rank ≤ Binary64.infinityRank := by
  unfold rank
  split_ifs
  · exact Nat.zero_le _
  · exact Nat.le_refl _
  · exact Nat.zero_le _
  · exact Nat.min_le_left _ _
  · exact Nat.min_le_left _ _

/-- Between the scales that decide it the rank is found by division. -/
theorem rank_of_scale {digits places : Nat} (hne : digits ≠ 0)
    (hlow : -330 ≤ scale ⟨digits, -(places : Int)⟩) (hhigh : scale ⟨digits, -(places : Int)⟩ ≤ 310) :
    rank ⟨digits, -(places : Int)⟩ = Binary64.nearestRank digits (10 ^ places) := by
  rw [rank, if_neg hne, if_neg (by omega), if_neg (by omega)]
  split
  · rename_i hexponent
    have hplaces : places = 0 := by simpa using hexponent
    simp [hplaces]
  · simp

/-- A decimal is finite if and only if it stays below the bound. -/
theorem rank_lt_infinityRank_iff (digits places : Nat) :
    rank ⟨digits, -(places : Int)⟩ < Binary64.infinityRank ↔
      digits < Binary64.overflowBound * 10 ^ places := by
  have hzero : 0 < Binary64.infinityRank := by decide
  have hpos : 0 < Binary64.overflowBound := by decide +kernel
  have hpow : 0 < 10 ^ places := Nat.pow_pos (by omega)
  obtain ⟨width, hwidth⟩ : ∃ width, width = 310 := ⟨310, rfl⟩
  have hbound : Binary64.overflowBound ≤ 10 ^ width := by
    rw [hwidth]
    decide +kernel
  have hscale : scale ⟨digits, -(places : Int)⟩ =
      (Text.decimalDigits digits).length - (places : Int) := rfl
  by_cases hne : digits = 0
  · rw [rank, if_pos hne, hne]
    exact iff_of_true hzero (Nat.mul_pos hpos hpow)
  by_cases hhigh : scale ⟨digits, -(places : Int)⟩ ≤ 310
  · by_cases hlow : -330 ≤ scale ⟨digits, -(places : Int)⟩
    · rw [rank_of_scale hne hlow hhigh, Binary64.nearestRank_lt_infinityRank_iff hpow]
    · rw [rank, if_neg hne, if_neg (by omega), if_pos (by omega)]
      refine iff_of_true hzero ?_
      calc digits < 10 ^ (Text.decimalDigits digits).length := Text.lt_of_length_decimalDigits digits
        _ ≤ 10 ^ places := Nat.pow_le_pow_right (by omega) (by omega)
        _ ≤ Binary64.overflowBound * 10 ^ places := Nat.le_mul_of_pos_left _ hpos
  · rw [rank, if_neg hne, if_pos (by omega)]
    refine iff_of_false (Nat.lt_irrefl _) fun hlt => ?_
    have hlength : (Text.decimalDigits digits).length ≤ width + places := by
      apply Text.length_decimalDigits_le (by omega)
      rw [Nat.pow_add]
      exact Nat.lt_of_lt_of_le hlt (Nat.mul_le_mul_right _ hbound)
    omega

end Decimal

/-! ## Numbers of documents -/

theorem Binary64.text_infinity (negative : Bool) :
    (ofRank negative infinityRank).text = if negative then "-inf" else "inf" := by
  cases negative <;> decide +kernel

namespace Document

theorem IsNumeral.getLast?_ne {numeral : List Char} (hnumeral : IsNumeral numeral) :
    numeral.getLast? ≠ some '.' := by
  intro hlast
  have hmem := List.mem_of_getLast? hlast
  rcases hnumeral with ⟨-, hdigits⟩ | ⟨digits, rfl, -, hdigits⟩
  · cases hdigits '.' hmem
  · rcases List.mem_cons.1 hmem with hminus | hmem
    · cases hminus
    · cases hdigits '.' hmem

/-- A number with a fraction is read as such. -/
theorem Mode.scans_fraction {text : List Char} (htext : IsFraction text) :
    Scans step .start (Token.runs text ++ [Token.endOfText]) .start
      [symbol .float text, .symbol .endOfData] := by
  obtain ⟨whole, fraction, rfl, hwhole, hne, hfraction⟩ := htext
  obtain ⟨first, rest, rfl⟩ := List.exists_cons_of_ne_nil hne
  have hfirst := hfraction first List.mem_cons_self
  have hfirst' : first ≠ '.' := by
    rintro rfl
    cases hfirst
  have hpoint : step (.number whole) (.run '.' 1) = ⟨true, .numberDot whole, []⟩ := by
    rw [step, stepNumber, if_neg (by decide), if_neg (by simp), if_pos rfl]
    rfl
  -- the digits behind the point are read as if the point had been there from the start
  have halike (count : Nat) (_ : 0 < count) :
      step (.numberDot whole) (.run first count) =
        step (.float (whole ++ ['.'])) (.run first count) := by
    simp [step, stepNumberDot, stepFloat, isDigits, hfirst]
  have hcollects (seen : List Char) (c : Char) (count : Nat) (hc : c.isDigit = true)
      (_ : 0 < count) : Scans.Collects step .float seen c count := if_pos hc
  have hdigits : Scans step (.float (whole ++ ['.'])) (Token.runs (first :: rest))
      (.float (whole ++ ['.'] ++ first :: rest)) [] :=
    Scans.accumulate_of_forall Mode.float hcollects hfraction
  have hscans := (scans_numeral hwhole).meet hwhole.getLast?_ne
    (.of_taken_char hpoint hfirst' (.of_alike halike hdigits))
  have hleft : step (.float (whole ++ '.' :: first :: rest)) .endOfText =
      ⟨false, .start, [symbol .float (whole ++ '.' :: first :: rest)]⟩ := rfl
  rw [List.append_assoc] at hscans
  exact hscans.append (.of_declined_taken hleft rfl)

theorem IsFraction.noBreak {text : List Char} (htext : IsFraction text) : '\n' ∉ text := by
  have hdigits {digits : List Char} (hdigits : IsDigits digits) : '\n' ∉ digits :=
    fun hmem => absurd (hdigits.2 _ hmem) (by decide)
  obtain ⟨whole, fraction, rfl, hwhole, hfraction⟩ := htext
  rcases hwhole with hwhole | ⟨whole, rfl, hwhole⟩
  all_goals simp [hdigits hwhole, hdigits hfraction]

/-- A number with a fraction is lexed as such. -/
theorem mem_lex_of_isFraction {text : String} (htext : IsFraction text.toList) :
    ∃ items, lex text = .ok items ∧ .symbol ⟨.float, text⟩ ∈ items := by
  have hraw : Scans Mode.step .start (Token.runs (dropReturns text.toList) ++ [Token.endOfText])
      .start [Mode.symbol .float text.toList, .symbol .endOfData] := by
    rw [dropReturns_of_noBreak htext.noBreak]
    exact Mode.scans_fraction htext
  obtain ⟨items, hlex, hitems⟩ := lex_initial_of_scans hraw
  have hunmarked : unmarked items =
      [Item.symbol .newline, .symbol ⟨.float, text⟩, .symbol .endOfData] := by
    rw [hitems, Mode.symbol, String.ofList_toList]
    rfl
  have hmem : .symbol ⟨.float, text⟩ ∈ unmarked items := by simp [hunmarked]
  exact ⟨items, hlex, List.mem_of_mem_filter hmem⟩

/-- The parts of a number in a document are its digits, with a point and a sign. -/
theorem exists_digits_of_float {symbol : Symbol} (hform : WellFormed symbol)
    (hkind : symbol.kind = .float) :
    ∃ (negative : Bool) (whole fraction : List Char), IsDigits whole ∧ IsDigits fraction ∧
      symbol.text.toList =
        (if negative then '-' :: (whole ++ '.' :: fraction) else whole ++ '.' :: fraction) := by
  rw [WellFormed, hkind] at hform
  obtain ⟨_, fraction, htext, hwhole | ⟨whole, rfl, hwhole⟩, hfraction⟩ := hform
  · exact ⟨false, _, fraction, hwhole, hfraction, htext⟩
  · exact ⟨true, whole, fraction, hwhole, hfraction, htext⟩

/-- The number is the nearest one to the decimal. -/
theorem payload_float {symbol : Symbol} {negative : Bool} {whole fraction : List Char}
    (hkind : symbol.kind = .float) (hwhole : IsDigits whole) (hfraction : IsDigits fraction)
    (htext : symbol.text.toList =
      (if negative then '-' :: (whole ++ '.' :: fraction) else whole ++ '.' :: fraction)) :
    (Constant.ofSymbol symbol).payload = .float (.ofRank negative
      (Decimal.rank ⟨Text.ofDigits 10 (whole ++ fraction), -(fraction.length : Int)⟩)) := by
  let parts : DecimalParts := ⟨whole, some fraction, none⟩
  have hsound : parts.Sound := ⟨hwhole.1, hwhole.2, by simpa [parts] using hfraction.1,
    hfraction.2, .inl rfl⟩
  have hparts : parts.text = whole ++ '.' :: fraction := by
    simp [parts, DecimalParts.text, DecimalParts.fractionText, DecimalParts.exponentText]
  have hvalue : parts.value =
      ⟨Text.ofDigits 10 (whole ++ fraction), -(fraction.length : Int)⟩ := by
    simp [parts, DecimalParts.value]
  have hread := Binary64.read?_parts hsound negative
  rw [hparts, ← htext, String.ofList_toList, hvalue] at hread
  simp only [Constant.ofSymbol, Constant.payload?, hkind, hread, Option.map_some, Option.getD_some]

end Document

/-! ## Lines that push a number -/

namespace Assembly

namespace Parser

variable {functions : FunctionTable} {limit : Nat}

/-- A push of a constant in the only line of a text. -/
theorem feedsAll_push {symbol : Symbol} {tag : TypeTag} {object : Object} (hlimit : 6 ≤ limit)
    (hmark : symbol.kind ≠ .lineMark) (hliteral : symbol.kind ≠ .literal)
    (hconstant : constant? symbol = some (tag, some object)) :
    FeedsAll functions limit [⟨.instruction, Opcode.push.mnemonic⟩, symbol, .endOfData]
      ⟨[.body], [], []⟩ ⟨[], [], [.push (some object)]⟩ := by
  have hline : Yields functions limit ⟨.instruction, Opcode.push.mnemonic⟩ 2 ⟨[.body], [], []⟩
      ⟨[.line, .lines, .body], [], []⟩ :=
    .more (puts_body (by simp) (by simp)) (.more (puts_lines (by simp) (by simp)) (.none _))
  have hoperand : Yields functions limit symbol 1
      ⟨.operand .value :: .reduce :: lineEnd, [.push none], []⟩
      ⟨.value :: .reduce :: lineEnd, [.push none], []⟩ := .more (puts_operandValue hmark) (.none _)
  have hend : Yields functions limit .endOfData 4
      ⟨.reduce :: .reduce :: lineEnd, [.value object, .push none], []⟩
      ⟨[.body], [], [.push (some object)]⟩ :=
    .more (puts_attach (by decide) object) (.more (puts_declare (by decide) rfl)
      (.more (.of_states [] (by decide) fun _ => rfl) (.more (.of_states [] (by decide) fun _ => rfl)
        (.none _))))
  exact .cons (hline.feeds (puts_instruction .push) (by omega))
    (.cons (hoperand.feeds (puts_constant hmark hliteral hconstant) (by omega))
      (.single (hend.feeds (puts_end _) (by omega))))

/-! ### Words in place of a constant -/

section

variable {parser : Parser} {found : Symbol}

/-- The symbol is a word or a mark, and no constant. -/
structure IsOther (found : Symbol) : Prop where
  kind : found.kind = .text ∨ found.kind = .punct
  noConstant : constant? found = none

theorem IsOther.isOfLine (hfound : IsOther found) :
    found.kind ≠ .lineMark ∧ found.kind ≠ .literal := by
  rcases hfound.kind with hkind | hkind <;> simp [hkind]

/-- The rest of a line that is skipped is taken as it comes. -/
theorem takes_skipped (hfound : IsOther found) {rest : List State}
    (hstates : parser.states = .skip :: rest) : Takes (put found) parser parser := by
  refine .taken ?_
  rw [put_of_states hfound.isOfLine.1 hstates]
  show stepSkip { parser with states := rest } found = _
  unfold stepSkip
  rcases hfound.kind with hkind | hkind <;> rw [hkind] <;> simp [Parser.push, ← hstates]

/-- The parser after closing, without its constant, a push at the start of a line. -/
def closedEmptyPush (parser : Parser) : Parser :=
  { parser.report (.missingOperand .push) with
    states := [.lines, .body]
    draft := { decls := parser.draft.decls.push ⟨.push (some .null), parser.position⟩,
               stack := [] } }

/-- A push does not take a word for a constant.  It pushes null, and the rest of its line is
skipped. -/
theorem takes_other (hfound : IsOther found) (hstack : parser.draft.stack = []) :
    Takes (put found) (parser.behindInstruction .push)
      (parser.closedEmptyPush.skipLine (.mismatch .endOfLine found)) := by
  obtain ⟨hmark, hliteral⟩ := hfound.isOfLine
  have hoperand : put found (parser.behindInstruction .push) =
      .ok (false, { parser.behindInstruction .push with
        states := .value :: .reduce :: lineEnd }) := by
    rw [put_of_states hmark rfl]
    rfl
  have hvalue : put found { parser.behindInstruction .push with
      states := .value :: .reduce :: lineEnd } =
        .ok (false, { parser.behindInstruction .push with states := .reduce :: lineEnd }) := by
    rw [put_of_states hmark rfl]
    show stepValue _ found = _
    rw [stepValue, if_neg hliteral, hfound.noConstant]
  have hopened : (parser.behindInstruction .push).draft.stack =
      [(.push none, parser.position)] := by
    simp [behindInstruction, Parser.push, Parser.openStatement, Draft.push, hstack,
      Statement.ofOpcode, Opcode.operand]
  have hreduce : put found { parser.behindInstruction .push with states := .reduce :: lineEnd } =
      .ok (false, { parser.closedEmptyPush with states := lineEnd }) := by
    rw [put_of_states hmark rfl]
    show stepReduce { parser.behindInstruction .push with states := lineEnd } = _
    rw [stepReduce_eq hopened, Draft.merged_of_single rfl, ok_bind]
    rfl
  have hendOfLine : put found { parser.closedEmptyPush with states := lineEnd } =
      .ok (false, parser.closedEmptyPush.skipLine (.mismatch .endOfLine found)) := by
    rw [put_of_states hmark rfl]
    show stepEndOfLine _ found = _
    unfold stepEndOfLine
    rcases hfound.kind with hkind | hkind <;> rw [hkind] <;> rfl
  exact .declined hoperand (.declined hvalue (.declined hreduce (.declined hendOfLine
    (takes_skipped hfound rfl))))

theorem foldlM_of_takes {symbol : Symbol} {next : Parser} (hready : Ready parser)
    (hlimit : 6 ≤ parser.retryLimit) (htakes : Takes (put symbol) parser next)
    (rest : List Item) :
    (Item.symbol symbol :: rest).foldlM feedItem parser = rest.foldlM feedItem next ∧
      Ready next ∧ 6 ≤ next.retryLimit := by
  obtain ⟨other, hother, hfeed, hnext, hkeeps⟩ :=
    feed_takes symbol hready hlimit (safe_of_takes htakes)
  obtain rfl := hother.unique htakes
  rw [List.foldlM_cons, feedItem, hfeed, ok_bind, hkeeps.retryLimit]
  exact ⟨rfl, hnext, hlimit⟩

theorem foldlM_skipped {more : List Symbol} (hmore : ∀ symbol ∈ more, IsOther symbol)
    (hready : Ready parser) (hlimit : 6 ≤ parser.retryLimit) {below : List State}
    (hstates : parser.states = .skip :: below) (rest : List Item) :
    (more.map Item.symbol ++ rest).foldlM feedItem parser = rest.foldlM feedItem parser := by
  induction more with
  | nil => rfl
  | cons symbol more ih =>
    rw [List.forall_mem_cons] at hmore
    obtain ⟨hfold, -⟩ := foldlM_of_takes hready hlimit (takes_skipped hmore.1 hstates)
      (more.map Item.symbol ++ rest)
    rw [List.map_cons, List.cons_append, hfold, ih hmore.2]

/-- A push with words in place of a constant, in the only line of a text. -/
theorem parseItems_pushOther (hfound : IsOther found) {more : List Symbol}
    (hmore : ∀ symbol ∈ more, IsOther symbol) (file : String) (hlimit : 6 ≤ limit) :
    parseItems (start file limit functions) (.symbol (.lineMark 1) ::
        .symbol ⟨.instruction, Opcode.push.mnemonic⟩ :: .symbol found ::
          (more.map .symbol ++ [Item.symbol .endOfData])) =
      .ok ([⟨.push (some .null), ⟨file, 1⟩⟩], [⟨⟨file, 1⟩, .missingOperand .push⟩,
        ⟨⟨file, 1⟩, .mismatch .endOfLine found⟩]) := by
  have hmark : Takes (put (.lineMark 1)) (start file limit functions)
      (start file limit functions) := .taken rfl
  have hbody : put ⟨.instruction, Opcode.push.mnemonic⟩ (start file limit functions) =
      .ok (false, { start file limit functions with states := [.lines, .body] }) := rfl
  have hpush := Takes.declined hbody (takes_instruction rfl .push)
  have hskip : Between ((start file limit functions).closedEmptyPush.skipLine
      (.mismatch .endOfLine found)).states := .skip
  obtain ⟨hfirst, hready, hlimit⟩ :=
    foldlM_of_takes (ready_start file limit functions) hlimit hmark _
  obtain ⟨hsecond, hready, hlimit⟩ := foldlM_of_takes hready hlimit hpush _
  obtain ⟨hthird, hready, hlimit⟩ := foldlM_of_takes hready hlimit (takes_other hfound rfl) _
  have hrest := foldlM_skipped hmore hready hlimit rfl
  obtain ⟨hend, -⟩ := foldlM_of_takes hready hlimit hskip.takes_end []
  rw [parseItems, hfirst, hsecond, hthird, hrest, hend]
  rfl

end

end Parser

theorem toList_pushLine (spelling : String) :
    ("push " ++ spelling).toList = Opcode.push.mnemonic.toList ++ ' ' :: spelling.toList := by
  simp [Opcode.mnemonic]

/-- A line that pushes a constant is assembled without a diagnostic. -/
theorem assemble_push {spelling : String} {symbol : Symbol} {tag : TypeTag} {object : Object}
    (hstands : StandsFor spelling.toList [symbol]) (hmark : symbol.kind ≠ .lineMark)
    (hliteral : symbol.kind ≠ .literal)
    (hconstant : Parser.constant? symbol = some (tag, some object)) (file : String) {limit : Nat}
    (hlimit : 6 ≤ limit) (functions : FunctionTable) :
    ∃ program, assemble file ("push " ++ spelling) limit functions = .ok program ∧
      program.diagnostics = [] ∧ program.objects = [.op .push, object] := by
  have hline := hstands.behind_word (isWord_mnemonic .push) (wordSymbol_mnemonic .push)
  rw [← toList_pushLine] at hline
  have hscans := hline.scans_of_ends .endOfText
  obtain ⟨items, last, raw, hlex, hraw, hitems⟩ :=
    lex_eq_scans Mode.patient .start ("push " ++ spelling)
  rw [dropReturns_of_noBreak hline.noBreak] at hraw
  obtain ⟨-, rfl⟩ := hraw.unique hscans
  have hmarks : ∀ other ∈ [⟨.instruction, Opcode.push.mnemonic⟩, symbol, Symbol.endOfData],
      other.kind ≠ .lineMark := by
    simp [hmark, Symbol.endOfData]
  have hunmarked : unmarked items = _ := hitems.trans (unmarked_symbols hmarks)
  obtain ⟨parser, hfold, hshows⟩ :=
    (Parser.feedsAll_push hlimit hmark hliteral hconstant).items hlimit hunmarked
      (Parser.shows_start file)
  obtain ⟨decls, hfinish, hnodes⟩ := Parser.finish_of_shows hshows
  have hassemble : assemble file ("push " ++ spelling) limit functions =
      .ok (.ofStatements decls []) := by
    rw [assemble, parse, lex, hlex, ok_bind, parseItems, hfold, ok_bind, hfinish, ok_bind]
    rfl
  have hplain : ∀ decl ∈ decls, decl.node.IsPlain := by
    intro decl hmem
    have hnode := hnodes ▸ List.mem_map_of_mem (f := Decl.node) hmem
    rw [List.mem_singleton.1 hnode]
    trivial
  obtain ⟨-, hdiagnostics, hobjects⟩ := Program.ofStatements_of_isPlain hplain
  exact ⟨_, hassemble, hdiagnostics, by rw [hobjects, hnodes]; rfl⟩

/-- A line that pushes something else is reported twice, and pushes null. -/
theorem assemble_pushOther {found : Symbol} {more : List Symbol} {text : String}
    (hfound : Parser.IsOther found) (hmore : ∀ symbol ∈ more, Parser.IsOther symbol)
    (hlex : lex text = .ok (.symbol (.lineMark 1) ::
      .symbol ⟨.instruction, Opcode.push.mnemonic⟩ :: .symbol found ::
        (more.map .symbol ++ [Item.symbol .endOfData])))
    (file : String) {limit : Nat} (hlimit : 6 ≤ limit) (functions : FunctionTable) :
    ∃ program, assemble file text limit functions = .ok program ∧
      program.diagnostics = [⟨⟨file, 1⟩, .missingOperand .push⟩,
        ⟨⟨file, 1⟩, .mismatch .endOfLine found⟩] ∧
      program.objects = [.op .push, .null] := by
  refine ⟨.ofStatements [⟨.push (some .null), ⟨file, 1⟩⟩] [⟨⟨file, 1⟩, .missingOperand .push⟩,
    ⟨⟨file, 1⟩, .mismatch .endOfLine found⟩], ?_, rfl, rfl⟩
  rw [assemble, parse, hlex, ok_bind, Parser.parseItems_pushOther hfound hmore file hlimit, ok_bind]
  rfl

/-- Infinity is a word in assembly text, and no constant. -/
theorem assemble_push_infinity (negative : Bool) (file : String) {limit : Nat} (hlimit : 6 ≤ limit)
    (functions : FunctionTable) :
    ∃ program,
      assemble file ("push " ++ (Binary64.ofRank negative Binary64.infinityRank).text) limit
        functions = .ok program ∧
      program.diagnostics = [⟨⟨file, 1⟩, .missingOperand .push⟩, ⟨⟨file, 1⟩,
        .mismatch .endOfLine (if negative then .punct '-' else ⟨.text, "inf"⟩)⟩] ∧
      program.objects = [.op .push, .null] := by
  have hword : Parser.IsOther ⟨.text, "inf"⟩ := ⟨.inl rfl, by decide⟩
  have hsign : Parser.IsOther (.punct '-') := ⟨.inr rfl, by decide⟩
  rw [Binary64.text_infinity]
  cases negative with
  | true =>
    have hlex : lex "push -inf" = .ok [.symbol (.lineMark 1), .symbol ⟨.instruction, "push"⟩,
      .symbol (.punct '-'), .symbol ⟨.text, "inf"⟩, .symbol .endOfData] := by decide +kernel
    exact assemble_pushOther hsign (List.forall_mem_singleton.2 hword) hlex file hlimit functions
  | false =>
    have hlex : lex "push inf" = .ok [.symbol (.lineMark 1), .symbol ⟨.instruction, "push"⟩,
      .symbol ⟨.text, "inf"⟩, .symbol .endOfData] := by decide +kernel
    exact assemble_pushOther hword (List.forall_mem_nil _) hlex file hlimit functions

/-- A finite number is a constant in assembly text. -/
theorem assemble_push_finite {x : Binary64} (hfinite : x.rank < Binary64.infinityRank)
    (file : String) {limit : Nat} (hlimit : 6 ≤ limit) (functions : FunctionTable) :
    ∃ program, assemble file ("push " ++ x.text) limit functions = .ok program ∧
      program.diagnostics = [] ∧ program.objects = [.op .push, .f64 x] := by
  have hobject : Object.ofLiteral? .f64 x.text = some (.f64 x) := by
    simp only [Object.ofLiteral?, Binary64.read?_text hfinite, Option.map_some]
  have hconstant : Parser.constant? ⟨.float, x.text⟩ = some (.f64, some (.f64 x)) := by
    rw [← hobject]
    rfl
  exact assemble_push (standsFor_float hfinite) (by simp) (by simp) hconstant file hlimit functions

/-- The numbers of documents reach the assembled program, as long as they do not round to infinity.
Those that do are not read back. -/
theorem assemble_push_float {start : Document.Scanner} (hstart : start.mode = .start)
    {text : String} {items : List Item}
    (hlex : Docpress.lex Document.Scanner.scan start text = .ok items) {symbol : Symbol}
    (hmem : .symbol symbol ∈ items) (hkind : symbol.kind = .float) (file : String) {limit : Nat}
    (hlimit : 6 ≤ limit) (functions : FunctionTable) :
    ∃ (negative : Bool) (whole fraction : List Char) (x : Binary64) (program : Program),
      Document.IsDigits whole ∧ Document.IsDigits fraction ∧
      symbol.text.toList =
        (if negative then '-' :: (whole ++ '.' :: fraction) else whole ++ '.' :: fraction) ∧
      (Document.Constant.ofSymbol symbol).payload = .float x ∧
      assemble file ("push " ++ (Document.Constant.ofSymbol symbol).payload.spelling) limit
        functions = .ok program ∧
      if Text.ofDigits 10 (whole ++ fraction) < Binary64.overflowBound * 10 ^ fraction.length then
        program.diagnostics = [] ∧ program.objects = [.op .push, .f64 x]
      else
        x = .ofRank negative Binary64.infinityRank ∧
        program.diagnostics = [⟨⟨file, 1⟩, .missingOperand .push⟩, ⟨⟨file, 1⟩,
          .mismatch .endOfLine (if negative then .punct '-' else ⟨.text, "inf"⟩)⟩] ∧
        program.objects = [.op .push, .null] := by
  have hform := Document.wellFormed_of_lex hstart hlex hmem (by simp [hkind]) (by simp [hkind])
  obtain ⟨negative, whole, fraction, hwhole, hfraction, htext⟩ :=
    Document.exists_digits_of_float hform hkind
  have hpayload := Document.payload_float hkind hwhole hfraction htext
  generalize hdecimal : Decimal.mk (Text.ofDigits 10 (whole ++ fraction))
    (-(fraction.length : Int)) = decimal at hpayload
  have hrank := Binary64.rank_ofRank decimal.rank_le negative
  have hiff := Decimal.rank_lt_infinityRank_iff (Text.ofDigits 10 (whole ++ fraction))
    fraction.length
  rw [hdecimal] at hiff
  refine ⟨negative, whole, fraction, .ofRank negative decimal.rank, ?_⟩
  rw [hpayload]
  by_cases hfinite : decimal.rank < Binary64.infinityRank
  · obtain ⟨program, hassemble, hprogram⟩ :=
      assemble_push_finite (hrank.trans_lt hfinite) file hlimit functions
    refine ⟨program, hwhole, hfraction, htext, rfl, hassemble, ?_⟩
    rwa [if_pos (hiff.1 hfinite)]
  · have hinfinite : decimal.rank = Binary64.infinityRank :=
      Nat.le_antisymm decimal.rank_le (Nat.le_of_not_lt hfinite)
    obtain ⟨program, hassemble, hprogram⟩ := assemble_push_infinity negative file hlimit functions
    rw [hinfinite]
    refine ⟨program, hwhole, hfraction, htext, rfl, hassemble, ?_⟩
    rw [if_neg (mt hiff.2 hfinite)]
    exact ⟨rfl, hprogram⟩

theorem assemble_push_negativeFraction :
    Document.Scanner.initial.mode = .start ∧
    Document.lex "at -12345678901234567890.5 m" = .ok [.symbol (.lineMark 1), .symbol .newline,
      .symbol ⟨.text, "at"⟩, .symbol ⟨.float, "-12345678901234567890.5"⟩, .symbol ⟨.text, "m"⟩,
      .symbol .endOfData] ∧
    (6 : Nat) ≤ 6 ∧
    ∃ (negative : Bool) (whole fraction : List Char) (x : Binary64) (program : Program),
      Document.IsDigits whole ∧ Document.IsDigits fraction ∧
      "-12345678901234567890.5".toList =
        (if negative then '-' :: (whole ++ '.' :: fraction) else whole ++ '.' :: fraction) ∧
      (Document.Constant.ofSymbol ⟨.float, "-12345678901234567890.5"⟩).payload = .float x ∧
      assemble "t.asm" ("push " ++
        (Document.Constant.ofSymbol ⟨.float, "-12345678901234567890.5"⟩).payload.spelling) 6 {} =
          .ok program ∧
      if Text.ofDigits 10 (whole ++ fraction) < Binary64.overflowBound * 10 ^ fraction.length then
        program.diagnostics = [] ∧ program.objects = [.op .push, .f64 x]
      else
        x = .ofRank negative Binary64.infinityRank ∧
        program.diagnostics = [⟨⟨"t.asm", 1⟩, .missingOperand .push⟩, ⟨⟨"t.asm", 1⟩,
          .mismatch .endOfLine (if negative then .punct '-' else ⟨.text, "inf"⟩)⟩] ∧
        program.objects = [.op .push, .null] := by
  have hlex : Document.lex "at -12345678901234567890.5 m" = .ok [.symbol (.lineMark 1),
      .symbol .newline, .symbol ⟨.text, "at"⟩, .symbol ⟨.float, "-12345678901234567890.5"⟩,
      .symbol ⟨.text, "m"⟩, .symbol .endOfData] := by
    decide +kernel
  have hmode : Document.Scanner.initial.mode = .start := rfl
  have hmem : .symbol ⟨.float, "-12345678901234567890.5"⟩ ∈ [Item.symbol (.lineMark 1),
      .symbol .newline, .symbol ⟨.text, "at"⟩, .symbol ⟨.float, "-12345678901234567890.5"⟩,
      .symbol ⟨.text, "m"⟩, .symbol .endOfData] := by
    decide
  exact ⟨hmode, hlex, Nat.le_refl 6,
    assemble_push_float hmode hlex hmem rfl "t.asm" (Nat.le_refl 6) {}⟩

/-- A number of a document that is not read back. -/
theorem assemble_push_unbounded {number : String} {whole fraction : List Char}
    (htext : number.toList = whole ++ '.' :: fraction)
    (hwhole : Document.IsDigits whole) (hfraction : Document.IsDigits fraction)
    (hlarge : ¬ Text.ofDigits 10 (whole ++ fraction) <
      Binary64.overflowBound * 10 ^ fraction.length) :
    (∃ items, Document.lex number = .ok items ∧ .symbol ⟨.float, number⟩ ∈ items) ∧
    (Document.Constant.ofSymbol ⟨.float, number⟩).payload =
      .float (.ofRank false Binary64.infinityRank) ∧
    ∃ program, assemble "t.asm"
        ("push " ++ (Document.Constant.ofSymbol ⟨.float, number⟩).payload.spelling) 1024 {} =
          .ok program ∧
      program.diagnostics = [⟨⟨"t.asm", 1⟩, .missingOperand .push⟩,
        ⟨⟨"t.asm", 1⟩, .mismatch .endOfLine ⟨.text, "inf"⟩⟩] := by
  have hkind : (⟨.float, number⟩ : Symbol).kind = .float := rfl
  have hpayload : (Document.Constant.ofSymbol ⟨.float, number⟩).payload =
      .float (.ofRank false Binary64.infinityRank) := by
    rw [← Decimal.rank_lt_infinityRank_iff] at hlarge
    rw [Document.payload_float hkind hwhole hfraction (htext.trans (if_neg Bool.false_ne_true).symm),
      Nat.le_antisymm (Decimal.rank_le _) (Nat.le_of_not_lt hlarge)]
  obtain ⟨program, hassemble, hdiagnostics, -⟩ :=
    assemble_push_infinity false "t.asm" (show 6 ≤ 1024 by decide) {}
  refine ⟨Document.mem_lex_of_isFraction ⟨_, _, htext, .inl hwhole, hfraction⟩, hpayload,
    program, ?_, hdiagnostics⟩
  rw [hpayload]
  exact hassemble

/-- A number with so many digits is infinity, and infinity is not read back. -/
theorem assemble_push_manyDigits :
    let number := String.ofList ('2' :: List.replicate 308 '0' ++ ['.', '0'])
    (∃ items, Document.lex number = .ok items ∧ .symbol ⟨.float, number⟩ ∈ items) ∧
    (Document.Constant.ofSymbol ⟨.float, number⟩).payload =
      .float (.ofRank false Binary64.infinityRank) ∧
    ∃ program, assemble "t.asm"
        ("push " ++ (Document.Constant.ofSymbol ⟨.float, number⟩).payload.spelling) 1024 {} =
          .ok program ∧
      program.diagnostics = [⟨⟨"t.asm", 1⟩, .missingOperand .push⟩,
        ⟨⟨"t.asm", 1⟩, .mismatch .endOfLine ⟨.text, "inf"⟩⟩] := by
  have hzeros : Document.IsDigits (List.replicate 308 '0') := .replicate rfl (by decide)
  have hlarge : ¬ Text.ofDigits 10 ('2' :: List.replicate 308 '0' ++ ['0']) <
      Binary64.overflowBound * 10 ^ ['0'].length := by
    decide +kernel
  exact assemble_push_unbounded String.toList_ofList
    ⟨List.cons_ne_nil _ _, List.forall_mem_cons.2 ⟨rfl, hzeros.2⟩⟩
    (.replicate rfl Nat.one_pos) hlarge

end Assembly
end Docpress
