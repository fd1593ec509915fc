import Docpress.Proofs.Contents
import Docpress.Proofs.DirectiveNames
import Docpress.Proofs.NoFault

/-!
# What documents are made of

The trees that documents are compiled into call methods by identifiers only.  The names come from
directives, or they are those of the methods that stand for paragraphs, quotes and joined words.
The constants are read from symbols, and a property that the symbols bring with them is one of all
constants in the trees (`compile_spelled`).  Times are such that they can be read again
(`Payload.Dated`).  Only a number with a fraction may be read as something that cannot be written
down, namely as an infinity, so that documents without such numbers can be written down altogether
(`writable_ofSymbol`).  Declarations are placed in the document or in a file that it includes
(`Parser.Filed`).
-/

namespace Docpress.Document

/-! ## Trees -/

/-- Methods are named by identifiers, and constants have the property. -/
abbrev Value.Spelled (payloads : Payload → Prop) : Value → Prop :=
  Value.Everywhere (fun name => IsIdentifier name.toList) payloads

@[inherit_doc Value.Spelled]
abbrev Call.Spelled (payloads : Payload → Prop) : Call → Prop :=
  Call.Everywhere (fun name => IsIdentifier name.toList) payloads

theorem isIdentifier_paragraph : IsIdentifier paragraph.toList :=
  ⟨List.all_eq_true.1 rfl, _, _, rfl, rfl⟩

theorem isIdentifier_quote : IsIdentifier quote.toList :=
  ⟨List.all_eq_true.1 rfl, _, _, rfl, rfl⟩

theorem isIdentifier_range : IsIdentifier range.toList :=
  ⟨List.all_eq_true.1 rfl, _, _, rfl, rfl⟩

theorem isIdentifier_cat : IsIdentifier cat.toList :=
  ⟨List.all_eq_true.1 rfl, _, _, rfl, rfl⟩

/-! ### Constants -/

/-- A time is one that can be read. -/
def Payload.Dated : Payload → Prop
  | .timestamp time => ∃ text, Timestamp.read? text = some time
  | _ => True

theorem Constant.dated_ofSymbol (symbol : Symbol) : (Constant.ofSymbol symbol).payload.Dated := by
  show ((payload? symbol).getD (.string symbol.text)).Dated
  cases hpayload : payload? symbol with
  | none => trivial
  | some payload =>
    rw [Option.getD_some]
    cases payload with
    | timestamp time =>
      have hread : Timestamp.read? symbol.text = some time := by
        unfold payload? at hpayload
        split at hpayload <;> simp_all
      exact ⟨symbol.text, hread⟩
    | _ => trivial

theorem Payload.Writable.dated {payload : Payload} (hwritable : payload.Writable) :
    payload.Dated := by
  cases payload with
  | timestamp time => exact hwritable
  | _ => trivial

/-- What a symbol stands for can be written down, unless it is a number with a fraction. -/
theorem Constant.writable_ofSymbol {symbol : Symbol} (hkind : symbol.kind ≠ .float) :
    (Constant.ofSymbol symbol).payload.Writable := by
  have hdated : ((payload? symbol).getD (.string symbol.text)).Dated := dated_ofSymbol symbol
  show ((payload? symbol).getD (.string symbol.text)).Writable
  cases hpayload : payload? symbol with
  | none => trivial
  | some payload =>
    rw [hpayload, Option.getD_some] at hdated
    rw [Option.getD_some]
    cases payload with
    | float value =>
      unfold payload? at hpayload
      split at hpayload <;> simp_all
    | timestamp time => exact hdated
    | _ => trivial

/-- The property does not depend on texts and on truth values. -/
structure Payload.Admits (payloads : Payload → Prop) : Prop where
  string (text : String) : payloads (.string text)
  bool (value : Bool) : payloads (.bool value)

theorem Payload.admits_writable : Payload.Admits Payload.Writable :=
  ⟨fun _ => trivial, fun _ => trivial⟩

theorem Payload.admits_dated : Payload.Admits Payload.Dated :=
  ⟨fun _ => trivial, fun _ => trivial⟩

variable {payloads : Payload → Prop}

theorem Constant.admitted_asParameter (hadmits : Payload.Admits payloads) {constant : Constant}
    (hpayload : payloads constant.payload) : payloads constant.asParameter.payload := by
  unfold asParameter
  split
  · exact hadmits.bool true
  · exact hadmits.bool false
  · exact hpayload

/-! ### Calls -/

theorem Call.spelled_ofName {name : String} (hname : IsIdentifier name.toList) :
    (Call.ofName name).Spelled payloads := by
  unfold Call.ofName Call.start
  split <;> simpa [Call.Everywhere, Value.AllEverywhere, Param.AllEverywhere] using hname

theorem Value.spelled_asParameter (hadmits : Payload.Admits payloads) {value : Value}
    (hspelled : value.Spelled payloads) : value.asParameter.Spelled payloads := by
  cases value with
  | constant c =>
    simp only [Value.asParameter, Value.Everywhere] at hspelled ⊢
    exact Constant.admitted_asParameter hadmits hspelled
  | call call =>
    cases call with
    | map name entry params => exact hspelled
    | vector name entry args =>
      simp only [Value.asParameter]
      split
      · simp only [Value.Everywhere, Call.Everywhere] at hspelled ⊢
        exact ⟨isIdentifier_range, hspelled.2⟩
      · exact hspelled

theorem Value.spelled_join {left right : Value} (hleft : left.Spelled payloads)
    (hright : right.Spelled payloads) : (Value.join left right).Spelled payloads := by
  simp only [Value.join, Value.Everywhere, Call.Everywhere, Value.AllEverywhere]
  exact ⟨isIdentifier_cat, hleft, hright, trivial⟩

theorem Value.spelled_coalesceAfter {current : Value} {args : List Value}
    (hcurrent : current.Spelled payloads) (hargs : ∀ value ∈ args, value.Spelled payloads) :
    ∀ value ∈ Value.coalesceAfter current args, value.Spelled payloads := by
  induction args generalizing current with
  | nil => simpa [Value.coalesceAfter] using hcurrent
  | cons arg args ih =>
    rw [List.forall_mem_cons] at hargs
    rw [Value.coalesceAfter]
    split
    · exact ih (Value.spelled_join hcurrent hargs.1) hargs.2
    · rw [List.forall_mem_cons]
      exact ⟨hcurrent, ih hargs.1 hargs.2⟩

theorem Value.spelled_coalesce {args : List Value}
    (hargs : ∀ value ∈ args, value.Spelled payloads) :
    ∀ value ∈ Value.coalesce args, value.Spelled payloads := by
  cases args with
  | nil => simp [Value.coalesce]
  | cons first rest =>
    rw [List.forall_mem_cons] at hargs
    exact Value.spelled_coalesceAfter hargs.1 hargs.2

theorem Call.spelled_closed (hadmits : Payload.Admits payloads) {call : Call}
    (hspelled : call.Spelled payloads) : call.closed.Spelled payloads := by
  cases call with
  | vector name entry args =>
    simp only [Call.closed, Call.Everywhere, Value.allEverywhere_iff] at hspelled ⊢
    exact ⟨hspelled.1, Value.spelled_coalesce hspelled.2⟩
  | map name entry params =>
    simp only [Call.closed, Call.fillEmpty, Call.Everywhere, Param.allEverywhere_iff,
      List.forall_mem_map] at hspelled ⊢
    refine ⟨hspelled.1, fun param hmem => ?_⟩
    cases param with
    | pending key =>
      simpa [Param.filled, Param.Everywhere, Value.Everywhere, Constant.string] using
        hadmits.string ""
    | bound key value => exact hspelled.2 _ hmem

theorem Call.spelled_append (hadmits : Payload.Admits payloads) {call next : Call} {value : Value}
    (hspelled : call.Spelled payloads) (hvalue : value.Spelled payloads)
    (happend : call.append value = .ok next) : next.Spelled payloads := by
  rcases Call.append_cases happend with
    ⟨name, entry, args, rfl, rfl⟩ | ⟨name, entry, params, key, rfl, rfl⟩
  · simp only [Call.Everywhere, Value.allEverywhere_iff, List.forall_mem_append,
      List.forall_mem_singleton] at hspelled ⊢
    exact ⟨hspelled.1, hspelled.2, hvalue⟩
  · simp only [Call.Everywhere, Param.allEverywhere_iff, List.forall_mem_append,
      List.forall_mem_singleton, Param.Everywhere] at hspelled ⊢
    exact ⟨hspelled.1, hspelled.2.1, Value.spelled_asParameter hadmits hvalue⟩

/-! ## Documents -/

/-- The symbol is a constant with the property, names a file with another one if it is the mark of a
file, and is an identifier if it is a directive. -/
structure HasSpelling (Named : String → Prop) (payloads : Payload → Prop) (symbol : Symbol) :
    Prop where
  constant : payloads (Constant.ofSymbol symbol).payload
  isIdentifier : symbol.kind = .directive → IsIdentifier symbol.text.toList
  named : symbol.kind = .fileMark → Named symbol.text

variable {Named : String → Prop}

theorem growth_spelled (hadmits : Payload.Admits payloads) {symbol : Symbol}
    (hsymbol : HasSpelling Named payloads symbol) :
    Growth symbol (Call.Spelled payloads) (Call.Spelled payloads) (Value.Spelled payloads) where
  paragraph := Call.spelled_ofName isIdentifier_paragraph
  quote := Call.spelled_ofName isIdentifier_quote
  directive hkind := Call.spelled_ofName (hsymbol.isIdentifier hkind)
  constant := by
    simp only [Value.Everywhere]
    exact hsymbol.constant
  name hcall := by
    simp only [Call.Everywhere, Param.allEverywhere_iff, List.forall_mem_append,
      List.forall_mem_singleton] at hcall ⊢
    exact ⟨hcall.1, hcall.2, by simp [Param.Everywhere]⟩
  append := Call.spelled_append hadmits
  close := Call.spelled_closed hadmits
  call hcall := by simpa only [Value.Everywhere] using hcall

/-- The parser is in a file with such a name, and so is everything that it has opened. -/
structure Parser.Filed (Named : String → Prop) (parser : Parser) : Prop where
  position : Named parser.position.file
  decls : ∀ decl ∈ parser.draft.decls, Named decl.position.file
  stack : ∀ opened ∈ parser.draft.stack, Named opened.2.file

theorem Parser.Move.filed {symbol : Symbol} (hsymbol : symbol.kind = .fileMark → Named symbol.text)
    {parser next : Parser} {taken : Bool} (hfiled : parser.Filed Named)
    (hmove : Move symbol parser taken next) : next.Filed Named := by
  have hpush (call : Call) : ∀ opened ∈ (parser.draft.push call parser.position).stack,
      Named opened.2.file := List.forall_mem_cons.2 ⟨hfiled.position, hfiled.stack⟩
  cases hmove with
  | fileMark hkind => exact ⟨hsymbol hkind, hfiled.decls, hfiled.stack⟩
  | lineMark | finish => exact ⟨hfiled.position, hfiled.decls, hfiled.stack⟩
  | paragraph | block | call | quote =>
    exact ⟨by simpa using hfiled.position, hfiled.decls, hpush _⟩
  | constant _ _ _ hstack | name _ _ hstack =>
    have hopened := hfiled.stack
    rw [hstack, List.forall_mem_cons] at hopened
    exact ⟨by simpa using hfiled.position, hfiled.decls, List.forall_mem_cons.2 hopened⟩
  | declare _ hstack =>
    have hopened := hfiled.stack
    rw [hstack, List.forall_mem_singleton] at hopened
    refine ⟨by simpa using hfiled.position, fun decl hmem => ?_, by simp⟩
    rcases Array.mem_push.1 hmem with hmem | rfl
    · exact hfiled.decls decl hmem
    · exact hopened
  | attach _ hstack =>
    have hopened := hfiled.stack
    rw [hstack, List.forall_mem_cons, List.forall_mem_cons] at hopened
    exact ⟨by simpa using hfiled.position, hfiled.decls, List.forall_mem_cons.2 hopened.2⟩
  | _ => exact ⟨by simpa using hfiled.position, hfiled.decls, hfiled.stack⟩

/-- The parser is sound, and all its trees are spelled and in files with such names. -/
structure Parser.Presents (Named : String → Prop) (payloads : Payload → Prop) (parser : Parser) :
    Prop where
  sound : parser.Sound
  spelled : DraftOf (Call.Spelled payloads) (Call.Spelled payloads) parser.draft
  filed : parser.Filed Named

theorem Parser.upholds_presents (hadmits : Payload.Admits payloads) :
    Parser.Upholds Named (HasSpelling Named payloads) (Parser.Presents Named payloads) where
  sound hpresents := hpresents.sound
  named hpresents := hpresents.filed.position
  feed hpresents symbol hsymbol := by
    obtain ⟨next, hfeed, hsteady, hsound, hspelled, hfiled⟩ :=
      Parser.feed_preserves
        (fun parser => SoundDraft parser.draft ∧
          DraftOf (Call.Spelled payloads) (Call.Spelled payloads) parser.draft ∧
          parser.Filed Named)
        symbol
        (fun hdrafts hmove => ⟨hmove.draftOf (growth_sound symbol) hdrafts.1,
          hmove.draftOf (growth_spelled hadmits hsymbol) hdrafts.2.1,
          hmove.filed hsymbol.named hdrafts.2.2⟩)
        (fun hdrafts => ⟨hdrafts.1, hdrafts.2.1, hdrafts.2.2.position, hdrafts.2.2.decls,
          hdrafts.2.2.stack⟩)
        hpresents.sound.1 ⟨hpresents.sound.2, hpresents.spelled, hpresents.filed⟩
    exact ⟨next, hfeed, ⟨hsteady, hsound⟩, hspelled, hfiled⟩
  report hpresents cause := ⟨Parser.upholds_sound.report hpresents.sound cause, hpresents.spelled,
    hpresents.filed.position, hpresents.filed.decls, hpresents.filed.stack⟩
  fileMark hnamed := ⟨hadmits.string _, fun hkind => (by cases hkind), fun _ => hnamed⟩
  lineMark _ := ⟨hadmits.string _, fun hkind => (by cases hkind), fun hkind => (by cases hkind)⟩

/-- The symbols of a text are spelled if their constants have the property. -/
theorem hasSpelling_of_lex (start : Scanner) (hstart : start.mode.Named) {text : String}
    (hconstants : Lexed (fun symbol => payloads (Constant.ofSymbol symbol).payload)
      (Docpress.lex Scanner.scan start text)) :
    Lexed (HasSpelling Named payloads) (Docpress.lex Scanner.scan start text) := by
  intro items hlex symbol hmem
  refine ⟨hconstants items hlex symbol hmem, isIdentifier_of_lex hstart hlex hmem, fun hkind => ?_⟩
  rcases wellNamed_of_lex hstart hlex hmem (by simp [hkind]) with hunnamed | ⟨hdirective, -⟩
  · simp [isUnnamed, hkind] at hunnamed
  · simp [hkind] at hdirective

/-! ### Numbers with a fraction -/

/-- Whether the item is a number with a fraction. -/
def isFraction : Item → Bool
  | .symbol s => s.kind = .float
  | .inclusion _ => false

/-- The text is lexed without numbers with a fraction. -/
def FractionFree (lexed : Except Fault (List Item)) : Prop :=
  ∀ items, lexed = .ok items → ∀ item ∈ items, isFraction item = false

instance (lexed : Except Fault (List Item)) : Decidable (FractionFree lexed) :=
  match lexed with
  | .error _ => isTrue nofun
  | .ok items => decidable_of_iff (∀ item ∈ items, isFraction item = false)
      ⟨fun hitems _ hok => Except.ok.inj hok ▸ hitems, fun hfree => hfree items rfl⟩

theorem FractionFree.writable {lexed : Except Fault (List Item)} (hfree : FractionFree lexed) :
    Lexed (fun symbol => (Constant.ofSymbol symbol).payload.Writable) lexed := by
  intro items hlex symbol hmem
  exact Constant.writable_ofSymbol (by simpa [isFraction] using hfree items hlex _ hmem)

/-! ### Compiling -/

variable {m : Type → Type} [Monad m] [LawfulMonad m]

/-- Documents are compiled into complete trees that are spelled, with the code that is generated for
them. -/
theorem compile_spelled (Named : String → Prop) (hadmits : Payload.Admits payloads)
    {find : SourceFinder m}
    (hfind : find.Finds fun source => Named source.name ∧
      Lexed (fun symbol => payloads (Constant.ofSymbol symbol).payload)
        (lexContinuation source.text))
    (options : Options) {file : String} (hfile : Named file) {text : String}
    (htext : Lexed (fun symbol => payloads (Constant.ofSymbol symbol).payload) (lex text)) :
    Succeeds (fun document =>
        (∀ decl ∈ document.decls,
          decl.node.Complete ∧ decl.node.Spelled payloads ∧ Named decl.position.file) ∧
          generate options.annotate document.decls = .ok document.assembly)
      (compile find options file text) := by
  have hstart : Parser.Presents Named payloads (.start file options.retryLimit) := by
    refine ⟨Parser.sound_start file options.retryLimit, ⟨?_, ?_⟩, hfile, ?_, ?_⟩
    all_goals simp [Parser.start]
  have hfiles : find.Finds (Source.Fits Named (HasSpelling Named payloads)) :=
    hfind.mono fun _ hsource => ⟨hsource.1, hasSpelling_of_lex .continuation trivial hsource.2⟩
  have hsymbols : Lexed (HasSpelling Named payloads) (lex text) :=
    hasSpelling_of_lex .initial trivial htext
  refine (compile_upholds (Parser.upholds_presents hadmits) hfiles options hsymbols hstart).mono ?_
  rintro document ⟨⟨parser, hpresents, hdecls⟩, hgenerate⟩
  refine ⟨fun decl hmem => ?_, hgenerate⟩
  rw [hdecls, Array.mem_toList_iff] at hmem
  exact ⟨hpresents.sound.2.decls decl hmem, hpresents.spelled.decls decl hmem,
    hpresents.filed.decls decl hmem⟩

end Docpress.Document
