import Docpress.Proofs.AssemblyLexemes
import Docpress.Proofs.Patience

/-!
# The names of directives

A directive of a document is named by a lower case letter and what follows it of lower case
letters, digits and underscores.  While the scanner reads a name, what it has read is such a name
(`Mode.Named`); every token keeps it so, and so the directives of a text have such names
(`isIdentifier_of_lex`).  What the scanner hands on besides is of its own kinds: the marks that
move positions come from elsewhere (`Scanner.names_scan`).
-/

namespace Docpress.Document

open Assembly (isNameChar)

/-- The characters begin with a lower case letter, and others of a name follow. -/
structure IsIdentifier (name : List Char) : Prop where
  isNameChar : ∀ c ∈ name, isNameChar c = true
  isLower_head : ∃ first rest, name = first :: rest ∧ first.isLower = true

namespace IsIdentifier

variable {c : Char} {count : Nat} {name : List Char}

theorem replicate (hc : c.isLower = true) (hcount : 0 < count) :
    IsIdentifier (List.replicate count c) := by
  obtain ⟨count, rfl⟩ : ∃ rest, count = rest + 1 := ⟨count - 1, by omega⟩
  refine ⟨fun d hmem => ?_, c, List.replicate count c, rfl, hc⟩
  rw [List.eq_of_mem_replicate hmem, Assembly.isNameChar, hc]
  rfl

theorem append_replicate (hname : IsIdentifier name) (hc : continuesName c = true) :
    IsIdentifier (name ++ List.replicate count c) := by
  obtain ⟨first, rest, rfl, hlower⟩ := hname.isLower_head
  refine ⟨?_, first, rest ++ List.replicate count c, rfl, hlower⟩
  rw [List.forall_mem_append]
  refine ⟨hname.isNameChar, fun d hmem => ?_⟩
  rw [List.eq_of_mem_replicate hmem]
  exact hc

end IsIdentifier

/-! ## Items -/

/-- Whether symbols of the kind are neither directives nor marks. -/
def isUnnamed : SymbolKind → Bool
  | .directive | .fileMark | .lineMark => false
  | _ => true

/-- The item is no mark, and if it is a directive, it has a name. -/
def WellNamed : Item → Prop
  | .symbol s =>
    isUnnamed s.kind = true ∨ s.kind = .directive ∧ IsIdentifier s.text.toList
  | .inclusion _ => True

theorem wellNamed_of_kind {s : Symbol} (hkind : isUnnamed s.kind = true) :
    WellNamed (.symbol s) :=
  .inl hkind

/-- All directives among the items have names. -/
def AllNamed (items : List Item) : Prop := ∀ item ∈ items, WellNamed item

@[simp] theorem allNamed_nil : AllNamed [] := by simp [AllNamed]

@[simp] theorem allNamed_cons (item : Item) (items : List Item) :
    AllNamed (item :: items) ↔ WellNamed item ∧ AllNamed items :=
  List.forall_mem_cons

theorem allNamed_singleton {item : Item} (hitem : WellNamed item) : AllNamed [item] :=
  List.forall_mem_singleton.2 hitem

theorem allNamed_replicate {item : Item} (hitem : WellNamed item) (count : Nat) :
    AllNamed (List.replicate count item) := by
  intro other hmem
  rw [List.eq_of_mem_replicate hmem]
  exact hitem

/-! ## Modes -/

namespace Mode

/-- If a name is being read, what was read of it is a name. -/
def Named : Mode → Prop
  | directive name => IsIdentifier name
  | _ => True

theorem wellNamed_symbol {kind : SymbolKind} (text : List Char)
    (hkind : isUnnamed kind = true) : WellNamed (symbol kind text) :=
  wellNamed_of_kind hkind

theorem isUnnamed_numberKind (text : List Char) : isUnnamed (numberKind text) = true := by
  unfold numberKind
  split <;> rfl

theorem allNamed_flush (text : List Char) : AllNamed (flush text) := by
  unfold flush
  split
  · exact allNamed_nil
  · exact allNamed_singleton (wellNamed_symbol text rfl)

theorem named_dots (text : List Char) (count : Nat) :
    (dots text count).1.Named ∧ AllNamed (dots text count).2 := by
  unfold dots
  dsimp only
  split
  · exact ⟨trivial, allNamed_flush _⟩
  · exact ⟨trivial, allNamed_nil⟩

/-- The answer goes on with a name, if it goes on with one, and so do all directives that it
hands on. -/
def Names (answer : Scan Mode) : Prop := answer.next.Named ∧ AllNamed answer.items

theorem names_ite {condition : Prop} [Decidable condition] {first second : Scan Mode}
    (hfirst : Names first) (hsecond : Names second) :
    Names (if condition then first else second) := by
  split
  · exact hfirst
  · exact hsecond

@[simp] theorem items_accept (next : Mode) (items : List Item) :
    (accept next items).items = items := rfl

@[simp] theorem items_decline (next : Mode) (items : List Item) :
    (decline next items).items = items := rfl

section

variable {next : Mode}

theorem names_accept (hnext : next.Named) : Names (accept next []) := ⟨hnext, allNamed_nil⟩

theorem names_decline (hnext : next.Named) : Names (decline next []) := ⟨hnext, allNamed_nil⟩

/-- A symbol of another kind is handed on. -/
theorem names_symbol {kind : SymbolKind} {text : List Char} (hnext : next.Named)
    (hkind : isUnnamed kind = true) : Names (decline next [symbol kind text]) :=
  ⟨hnext, allNamed_singleton (wellNamed_symbol text hkind)⟩

end

variable (text : List Char) (token : Token)

theorem names_stepStart : Names (stepStart token) := by
  cases token with
  | endOfText => exact ⟨trivial, allNamed_singleton (wellNamed_of_kind rfl)⟩
  | run c count =>
    unfold stepStart
    iterate 2 refine names_ite (names_accept trivial) ?_
    refine names_ite (named_dots [] count) ?_
    -- comments, literals, colors, signs
    iterate 4 refine names_ite (names_accept trivial) ?_
    refine names_ite (names_decline trivial) (names_ite ?_ (names_decline trivial))
    have hpunct : WellNamed (.symbol (.punct c)) := wellNamed_of_kind rfl
    exact ⟨trivial, allNamed_replicate hpunct count⟩

theorem names_stepBreaks (count : Nat) : Names (stepBreaks count token) := by
  refine names_ite (names_accept trivial) (names_ite (names_accept trivial) ⟨trivial, ?_⟩)
  show AllNamed (if 1 < count then [.symbol .newline] else [])
  split
  · exact allNamed_singleton (wellNamed_of_kind rfl)
  · exact allNamed_nil

theorem names_stepWord : Names (stepWord text token) := by
  unfold stepWord
  split
  · exact named_dots text _
  · exact names_ite ⟨trivial, allNamed_flush text⟩ (names_accept trivial)

/-- A lower case letter behind a dot begins a name. -/
theorem names_stepDot (htoken : token.Solid) : Names (stepDot token) := by
  have hpunct : Names (decline .start [.symbol (.punct '.')]) :=
    ⟨trivial, allNamed_singleton (wellNamed_of_kind rfl)⟩
  cases token with
  | endOfText => exact hpunct
  | run c count =>
    simp only [stepDot]
    split
    · rename_i hlower
      exact names_accept (.replicate hlower (htoken c count rfl))
    · exact names_ite ⟨trivial, allNamed_singleton (wellNamed_of_kind rfl)⟩ hpunct

/-- Characters of names continue a name. -/
theorem names_stepDirective {name : List Char} (hname : IsIdentifier name) :
    Names (stepDirective name token) := by
  unfold stepDirective
  split
  · rename_i hcontinues
    cases token with
    | endOfText => cases hcontinues
    | run c count => exact names_accept (hname.append_replicate hcontinues)
  · refine names_ite (names_decline trivial) ⟨trivial, allNamed_singleton (.inr ⟨rfl, ?_⟩)⟩
    simpa using hname

theorem names_stepInclusion : Names (stepInclusion token) := by
  have hinclude : IsIdentifier "include".toList := ⟨List.all_eq_true.1 rfl, _, _, rfl, rfl⟩
  exact names_ite (names_accept trivial)
    (names_ite (names_accept trivial) ⟨trivial, allNamed_singleton (.inr ⟨rfl, hinclude⟩)⟩)

theorem names_stepPath : Names (stepPath text token) :=
  names_ite ⟨trivial, by simp [WellNamed]⟩
    (names_ite ⟨trivial, by simp [WellNamed]⟩ (names_accept trivial))

theorem names_stepNumber : Names (stepNumber text token) := by
  unfold stepNumber
  iterate 3 refine names_ite (names_accept trivial) ?_
  exact names_ite (names_decline trivial) (names_symbol trivial (isUnnamed_numberKind text))

theorem names_leaveTimestamp (whole : Nat) : Names (leaveTimestamp text whole token) := by
  refine names_ite (names_symbol trivial (by decide)) (names_ite ?_ (names_decline trivial))
  obtain ⟨hnext, hitems⟩ := named_dots [] (text.drop whole).length
  exact ⟨hnext, (allNamed_cons _ _).2 ⟨wellNamed_symbol _ (by decide), hitems⟩⟩

theorem names_stepTimestamp (whole : Nat) : Names (stepTimestamp text whole token) := by
  unfold stepTimestamp
  dsimp only
  split
  · exact names_accept trivial
  · exact names_accept trivial
  · exact names_leaveTimestamp text _ whole

theorem names_stepLiteral : Names (stepLiteral text token) := by
  unfold stepLiteral
  split
  · exact names_decline trivial
  · refine names_ite (names_decline trivial)
      (names_ite ⟨?_, allNamed_singleton (wellNamed_symbol text rfl)⟩
        (names_ite (names_accept ?_) (names_accept trivial)))
    · show Named (if _ then _ else _)
      split <;> trivial
    · split <;> trivial

theorem names_stepEscape : Names (stepEscape text token) := by
  unfold stepEscape
  dsimp only
  split
  · exact names_symbol trivial (by decide)
  · split
    · exact names_symbol trivial (by decide)
    · exact names_ite (names_stepLiteral _ _) (names_accept trivial)

/-- Every token keeps the names. -/
theorem names_step {mode : Mode} (hmode : mode.Named) (htoken : token.Solid) :
    Names (mode.step token) := by
  cases mode with
  | start => exact names_stepStart token
  | breaks count => exact names_stepBreaks token count
  | comment => exact names_ite (names_decline trivial) (names_accept trivial)
  | word text => exact names_stepWord text token
  | dot => exact names_stepDot token htoken
  | directive name => exact names_stepDirective token hmode
  | inclusion => exact names_stepInclusion token
  | path text => exact names_stepPath text token
  | sign => exact names_ite (names_decline trivial) (names_decline trivial)
  | number text => exact names_stepNumber text token
  | numberDot text =>
    exact names_ite (names_accept trivial) (names_symbol trivial (isUnnamed_numberKind text))
  | float text =>
    exact names_ite (names_accept trivial)
      (names_ite (names_decline trivial) (names_symbol trivial (by decide)))
  | timestamp text whole => exact names_stepTimestamp text token whole
  | color text =>
    exact names_ite (names_accept trivial)
      (names_ite (names_symbol trivial (by decide)) (names_decline trivial))
  | literal text => exact names_stepLiteral text token
  | escape text => exact names_stepEscape text token

end Mode

/-! ## Texts -/

namespace Scanner

/-- An item is handed on as it is, behind a paragraph break at most. -/
theorem mem_handOn {scanner : Scanner} {item other : Item}
    (hmem : other ∈ (scanner.handOn item).2) : other = .symbol .newline ∨ other = item := by
  unfold handOn at hmem
  split at hmem
  · exact .inr (List.mem_singleton.1 hmem)
  · split at hmem
    · cases hmem
    · rcases List.mem_append.1 hmem with hopening | hitem
      · split at hopening
        · exact .inl (List.mem_singleton.1 hopening)
        · cases hopening
      · exact .inr (List.mem_singleton.1 hitem)

theorem mem_handOnAll {scanner : Scanner} {items : List Item} {item : Item}
    (hmem : item ∈ (scanner.handOnAll items).2) : item = .symbol .newline ∨ item ∈ items := by
  induction items generalizing scanner with
  | nil => cases hmem
  | cons first items ih =>
    rw [handOnAll, List.mem_append] at hmem
    rcases hmem with hfirst | hrest
    · rcases mem_handOn hfirst with hbreak | rfl
      · exact .inl hbreak
      · exact .inr List.mem_cons_self
    · exact (ih hrest).imp_right (List.mem_cons_of_mem first)

theorem allNamed_handOnAll (scanner : Scanner) {items : List Item} (hitems : AllNamed items) :
    AllNamed (scanner.handOnAll items).2 := by
  intro item hmem
  rcases mem_handOnAll hmem with rfl | hmem
  · exact wellNamed_of_kind rfl
  · exact hitems item hmem

/-- Every token keeps the names, and no mark is handed on. -/
theorem names_scan {scanner : Scanner} {token : Token} (hscanner : scanner.mode.Named)
    (htoken : token.Solid) :
    (scanner.scan token).next.mode.Named ∧ AllNamed (scanner.scan token).items := by
  obtain ⟨hnext, hanswer⟩ := Mode.names_step token hscanner htoken
  exact ⟨hnext, allNamed_handOnAll scanner hanswer⟩

end Scanner

section

variable {start : Scanner} {text : String} {items : List Item} {symbol : Symbol}

/-- A text has no marks but those of its lines, and its directives have names. -/
theorem wellNamed_of_lex (hstart : start.mode.Named)
    (hlex : Docpress.lex Scanner.scan start text = .ok items) (hmem : .symbol symbol ∈ items)
    (hkind : symbol.kind ≠ .lineMark) : WellNamed (.symbol symbol) := by
  obtain ⟨items', last, raw, hlex', hraw, hunmarked⟩ := lex_eq_scans Scanner.patient start text
  obtain rfl : items = items' := by
    rw [hlex'] at hlex
    exact (Except.ok.inj hlex).symm
  have hnamed : AllNamed raw :=
    hraw.forall_items (fun scanner _ (hmode : scanner.mode.Named) htoken =>
      Scanner.names_scan hmode htoken) hstart (Token.solid_of_text text)
  -- only line marks are not among the items of the run
  have hmem' : .symbol symbol ∈ unmarked raw := by
    rw [← hunmarked]
    exact List.mem_filter.2 ⟨hmem, by simp [Item.isLineMark, hkind]⟩
  exact hnamed _ (List.mem_filter.1 hmem').1

/-- The directives of a text have names. -/
theorem isIdentifier_of_lex (hstart : start.mode.Named)
    (hlex : Docpress.lex Scanner.scan start text = .ok items) (hmem : .symbol symbol ∈ items)
    (hkind : symbol.kind = .directive) : IsIdentifier symbol.text.toList := by
  rcases wellNamed_of_lex hstart hlex hmem (by simp [hkind]) with hunnamed | ⟨_, hname⟩
  · simp [isUnnamed, hkind] at hunnamed
  · exact hname

end

end Docpress.Document
