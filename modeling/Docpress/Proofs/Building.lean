import Docpress.Build
import Docpress.Proofs.DocumentContents
import Docpress.Proofs.LineNumbering

/-!
# What can keep the compiler from an answer

Authors' mistakes are diagnostics, and documents are compiled whatever is in them.  Assembly text
is assembled unless a directive `.line` makes the number of a line too large, or too small, for 64
bits.  Code that is generated for a document has no such directive, for each of its lines stands for
an instruction and the operand that belongs to it (`Call.unnumbering_emit`), so building a document
succeeds as well (`build_succeeds`).

There is one way for a directive into generated code.  Annotated code names the files of the
declarations in comments, and a line feed in the name of a file ends the comment.
-/

namespace Docpress

namespace Assembly

open Mode

/-! ## Lines without directives -/

/-- The line stands for symbols among which there is no directive that numbers lines. -/
def Unnumbering (line : List Char) : Prop :=
  ∃ symbols, StandsFor line symbols ∧ ⟨.directive, "line"⟩ ∉ symbols

theorem unnumbering_word {text : List Char} (hword : IsWord text) : Unnumbering text := by
  obtain ⟨symbol, hsymbol, hkind⟩ :
      ∃ symbol, wordSymbol text = .symbol symbol ∧ symbol.kind ≠ .directive := by
    unfold wordSymbol
    dsimp only
    split
    · exact ⟨_, rfl, by simp⟩
    · split <;> exact ⟨_, rfl, by simp⟩
  refine ⟨[symbol], standsFor_word hword hsymbol, fun hmem => hkind ?_⟩
  rw [← List.mem_singleton.1 hmem]

theorem Unnumbering.behind_mnemonic {text : List Char} (htext : Unnumbering text) (op : Opcode) :
    Unnumbering (op.mnemonic.toList ++ ' ' :: text) := by
  obtain ⟨symbols, hstands, hnone⟩ := htext
  exact ⟨_, hstands.behind_word (isWord_mnemonic op) (wordSymbol_mnemonic op), by simp [hnone]⟩

/-- Numbers that are not finite are words. -/
theorem unnumbering_float (value : Binary64) : Unnumbering value.text.toList := by
  rcases Nat.lt_or_ge value.rank Binary64.infinityRank with hfinite | hinfinite
  · exact ⟨_, standsFor_float hfinite, by simp⟩
  rw [Binary64.text]
  split
  · have hscans : Scans step .start (Token.runs "NaN".toList) (.word "NaN".toList) [] :=
      .enter (fun _ _ => rfl)
        (.of_taken_char rfl (by decide) (.of_taken_char rfl (by decide) (.of_taken rfl)))
    exact ⟨[⟨.text, "NaN"⟩], .of_isGraphic
      (readsAs_of_scans hscans (leaves_word (by decide)) (by decide)) (by decide)
      (List.all_eq_true.1 (by decide)), by decide⟩
  · rename_i hnumber
    have hrank : value.rank = Binary64.infinityRank := by
      simp only [Binary64.isNaN, decide_eq_true_eq] at hnumber
      omega
    rw [if_pos hrank, String.toList_ofList]
    have hword : IsWord "inf".toList := ⟨List.all_eq_true.1 rfl, _, _, rfl, rfl⟩
    split
    · have hdeclined : Scans step (.number .sign ['-']) (Token.runs "inf".toList)
          (.word "inf".toList) ([.symbol (.punct '-')] ++ []) := .declined rfl (scans_word hword)
      have hscans : Scans step .start (Token.runs "-inf".toList) (.word "inf".toList)
          [.symbol (.punct '-')] := .of_taken_char rfl (by decide) hdeclined
      exact ⟨[.punct '-', ⟨.text, "inf"⟩], .of_isGraphic
        (readsAs_of_scans hscans (leaves_word (by decide)) (by decide)) (by decide)
        (List.all_eq_true.1 (by decide)), by decide⟩
    · exact unnumbering_word hword

theorem exists_scans_unlines {lines : List (List Char)}
    (hlines : ∀ line ∈ lines, Unnumbering line) :
    ∃ items, Scans step .start (Token.runs (unlines lines)) .start items ∧
      .symbol ⟨.directive, "line"⟩ ∉ items := by
  induction lines with
  | nil => exact ⟨[], .nil _, by simp⟩
  | cons line lines ih =>
    rw [List.forall_mem_cons] at hlines
    obtain ⟨⟨symbols, hstands, hnone⟩, hlines⟩ := hlines
    obtain ⟨items, hscans, hitems⟩ := ih hlines
    have hhead := head?_unlines fun line hmem => (hlines line hmem).imp fun _ h => h.1
    rw [unlines_cons]
    exact ⟨_, hstands.scans_append hhead hscans, by simp [hnone, hitems, Symbol.newline]⟩

/-- A text of such lines is assembled. -/
theorem exists_assemble_of_unnumbering {lines : List (List Char)}
    (hlines : ∀ line ∈ lines, Unnumbering line) {text : String}
    (htext : text.toList = unlines lines) (file : String) (retryLimit : Nat)
    (functions : FunctionTable) :
    ∃ program, assemble file text retryLimit functions = .ok program := by
  obtain ⟨items, hscans, hitems⟩ := exists_scans_unlines hlines
  rw [← dropReturns_unlines fun line hmem => (hlines line hmem).imp fun _ h => h.1,
    ← htext] at hscans
  have hend : step .start .endOfText = accept .start [.symbol .endOfData] := rfl
  exact exists_assemble_of_noDirective (hscans.append (.of_taken hend))
    (by simp [hitems, Symbol.endOfData]) file retryLimit functions

end Assembly

namespace Document

open Assembly

/-! ## Generated code -/

theorem Payload.unnumbering_spelling {payload : Payload} (hdated : payload.Dated) :
    Unnumbering payload.spelling.toList := by
  have hwritten (hwritable : payload.Writable) : Unnumbering payload.spelling.toList := by
    obtain ⟨symbols, hstands, hconstant⟩ := payload.exists_symbols hwritable
    refine ⟨symbols, hstands, fun hmem => ?_⟩
    generalize payload.object = object at hconstant
    cases hconstant with
    | plain _ _ hconstant =>
      rw [← List.mem_singleton.1 hmem] at hconstant
      cases hconstant
    | string => simp at hmem
    | tagged => simp at hmem
  cases payload with
  | float value => exact unnumbering_float value
  | timestamp time => exact hwritten hdated
  | _ => exact hwritten trivial

theorem Line.unnumbering_op (op : Opcode) : Unnumbering (Line.op op).text.toList :=
  unnumbering_word (isWord_mnemonic op)

theorem Line.unnumbering_operand {op : Opcode} {operand : String}
    (hoperand : Unnumbering operand.toList) :
    Unnumbering (Line.operand op operand).text.toList := by
  rw [Line.toList_text_operand]
  exact hoperand.behind_mnemonic op

theorem IsIdentifier.isWord {name : List Char} (hname : IsIdentifier name) : IsWord name :=
  isWord_of_isLower_head hname.isNameChar hname.isLower_head

theorem Line.unnumbering_invoke {name : String} (hname : IsIdentifier name.toList) :
    Unnumbering (Line.operand .invokeR name).text.toList :=
  Line.unnumbering_operand (unnumbering_word hname.isWord)

theorem Line.unnumbering_count (count : Nat) :
    Unnumbering (Line.push (Text.decimal count)).text.toList := by
  refine Line.unnumbering_operand ⟨[⟨.number, Text.decimal count⟩], ?_, by simp⟩
  rw [Text.decimal, String.toList_ofList]
  exact standsFor_natural count

theorem Line.unnumbering_one : Unnumbering (Line.push "1").text.toList :=
  Line.unnumbering_count 1

theorem Emission.unnumbering_andThen {first second : Emission}
    (hfirst : ∀ line ∈ first.lines, Unnumbering line.text.toList)
    (hsecond : ∀ line ∈ second.lines, Unnumbering line.text.toList) :
    ∀ line ∈ (first.andThen second).lines, Unnumbering line.text.toList := by
  unfold Emission.andThen
  split
  · exact hfirst
  · exact List.forall_mem_append.2 ⟨hfirst, hsecond⟩

section

variable {payloads : Payload → Prop}

mutual

theorem Value.unnumbering_emit (hdated : ∀ payload, payloads payload → payload.Dated) :
    (value : Value) → value.Spelled payloads →
    ∀ line ∈ value.emit.lines, Unnumbering line.text.toList
  | .constant constant, hspelled => by
    simp only [Value.Everywhere] at hspelled
    simp only [Value.emit, Emission.ofLines, List.forall_mem_singleton]
    exact Line.unnumbering_operand (Payload.unnumbering_spelling (hdated _ hspelled))
  | .call call, hspelled => by
    simp only [Value.Everywhere] at hspelled
    simp only [Value.emit]
    exact Call.unnumbering_emit hdated call hspelled

/-- No line of the code numbers lines. -/
theorem Call.unnumbering_emit (hdated : ∀ payload, payloads payload → payload.Dated) :
    (call : Call) → call.Spelled payloads →
    ∀ line ∈ call.emit.lines, Unnumbering line.text.toList
  | .vector name _ args, hspelled => by
    simp only [Call.Everywhere] at hspelled
    obtain ⟨hname, hargs⟩ := hspelled
    simp only [Call.emit]
    split
    · simp only [Emission.ofLines, List.forall_mem_singleton]
      exact ⟨[], standsFor_note (by decide) hname.isWord, by simp⟩
    · refine Emission.unnumbering_andThen
        (Emission.unnumbering_andThen ?_ (Value.unnumbering_emitAll hdated args hargs)) ?_
      · simp only [Emission.ofLines, List.forall_mem_singleton]
        exact Line.unnumbering_op .esba
      · simp only [Emission.ofLines, List.forall_mem_cons]
        exact ⟨Line.unnumbering_op .frm, Line.unnumbering_op .makeVector, Line.unnumbering_one,
          Line.unnumbering_invoke hname, Line.unnumbering_op .pull, by simp⟩
  | .map name _ params, hspelled => by
    simp only [Call.Everywhere] at hspelled
    obtain ⟨hname, hparams⟩ := hspelled
    simp only [Call.emit]
    split
    · simp [Emission.ofFault]
    · refine Emission.unnumbering_andThen (Param.unnumbering_emitAll hdated params hparams) ?_
      simp only [Emission.ofLines, List.forall_mem_cons]
      exact ⟨Line.unnumbering_count _, Line.unnumbering_op .makeParamMap, Line.unnumbering_one,
        Line.unnumbering_invoke hname, by simp⟩

theorem Param.unnumbering_emit (hdated : ∀ payload, payloads payload → payload.Dated) :
    (param : Param) →
    param.Everywhere (fun name => IsIdentifier name.toList) payloads →
    ∀ line ∈ param.emit.lines, Unnumbering line.text.toList
  | .pending _, _ => by simp [Param.emit, Emission.ofFault]
  | .bound key value, hspelled => by
    simp only [Param.Everywhere] at hspelled
    simp only [Param.emit]
    refine Emission.unnumbering_andThen (Value.unnumbering_emit hdated value hspelled) ?_
    simp only [Emission.ofLines, List.forall_mem_cons]
    exact ⟨Line.unnumbering_operand ⟨_, standsFor_string key, by simp⟩,
      Line.unnumbering_op .makeParam, by simp⟩

theorem Value.unnumbering_emitAll (hdated : ∀ payload, payloads payload → payload.Dated) :
    (values : List Value) →
    Value.AllEverywhere (fun name => IsIdentifier name.toList) payloads values →
    ∀ line ∈ (Value.emitAll values).lines, Unnumbering line.text.toList
  | [], _ => by simp [Value.emitAll]
  | value :: rest, hspelled => by
    simp only [Value.AllEverywhere] at hspelled
    simp only [Value.emitAll]
    exact Emission.unnumbering_andThen (Value.unnumbering_emit hdated value hspelled.1)
      (Value.unnumbering_emitAll hdated rest hspelled.2)

theorem Param.unnumbering_emitAll (hdated : ∀ payload, payloads payload → payload.Dated) :
    (params : List Param) →
    Param.AllEverywhere (fun name => IsIdentifier name.toList) payloads params →
    ∀ line ∈ (Param.emitAll params).lines, Unnumbering line.text.toList
  | [], _ => by simp [Param.emitAll]
  | param :: rest, hspelled => by
    simp only [Param.AllEverywhere] at hspelled
    simp only [Param.emitAll]
    exact Emission.unnumbering_andThen (Param.unnumbering_emit hdated param hspelled.1)
      (Param.unnumbering_emitAll hdated rest hspelled.2)

end

theorem Call.isWord_name {call : Call} (hspelled : call.Spelled payloads) :
    IsWord call.name.toList := by
  cases call with
  | vector name entry args =>
    simp only [Call.Everywhere] at hspelled
    exact hspelled.1.isWord
  | map name entry params =>
    simp only [Call.Everywhere] at hspelled
    exact hspelled.1.isWord

/-- The lines of a declaration, annotated or not. -/
theorem unnumbering_decl (hdated : ∀ payload, payloads payload → payload.Dated) {annotate : Bool}
    {decl : Decl Call} (hspelled : decl.node.Spelled payloads)
    (hfile : annotate = true → '\n' ∉ decl.position.file.toList) :
    ∀ line ∈ Line.note annotate (decl.position.text ++ " ." ++ decl.node.name) ++
      decl.node.emit.lines, Unnumbering line.text.toList := by
  refine List.forall_mem_append.2 ⟨?_, Call.unnumbering_emit hdated decl.node hspelled⟩
  cases annotate with
  | false => simp [Line.note]
  | true =>
    refine List.forall_mem_singleton.2 ⟨[], ?_, by simp⟩
    exact standsFor_note (lineFeed_not_mem_position (hfile rfl)) (Call.isWord_name hspelled)

/-- Generated code is assembled. -/
theorem exists_assemble_of_generate (hdated : ∀ payload, payloads payload → payload.Dated)
    {annotate : Bool} {decls : List (Decl Call)} {text : String}
    (hgenerate : generate annotate decls = .ok text)
    (hcomplete : ∀ decl ∈ decls, decl.node.Complete)
    (hspelled : ∀ decl ∈ decls, decl.node.Spelled payloads)
    (hfiles : ∀ decl ∈ decls, annotate = true → '\n' ∉ decl.position.file.toList) (file : String)
    (retryLimit : Nat) (functions : FunctionTable) :
    ∃ program, assemble file text retryLimit functions = .ok program := by
  rw [generate_of_complete annotate hcomplete] at hgenerate
  cases hgenerate
  refine exists_assemble_of_unnumbering ?_ (toList_render _) file retryLimit functions
  rw [List.forall_mem_cons, List.forall_mem_map, List.forall_mem_append]
  refine ⟨⟨[], standsFor_codeHeader, by simp⟩, fun line hmem => ?_, ?_⟩
  · obtain ⟨lines, hlines, hline⟩ := List.mem_flatten.1 hmem
    obtain ⟨decl, hdecl, rfl⟩ := List.mem_map.1 hlines
    exact unnumbering_decl hdated (hspelled decl hdecl) (hfiles decl hdecl) line hline
  · exact List.forall_mem_singleton.2 (Line.unnumbering_op .halt)

end

end Document

/-! ## The whole compiler -/

variable {m : Type → Type} [Monad m] [LawfulMonad m]

open Document

theorem compile_succeeds (find : SourceFinder m) (options : Options) (file text : String) :
    Succeeds (fun _ => True) (compile find options file text) :=
  (compile_upholds Parser.upholds_sound (find.finds_any fun _ => ⟨trivial, fun _ _ _ _ => trivial⟩)
    options (fun _ _ _ _ => trivial) (Parser.sound_start file options.retryLimit)).mono
      fun _ _ => trivial

/-- A comment of the code can hold the name. -/
def Document.Options.FitsComment (options : Options) (name : String) : Prop :=
  options.annotate = true → '\n' ∉ name.toList

/-- Building succeeds if no comment of the code is broken. -/
theorem build_succeeds {find : SourceFinder m} {options : Options} {file : String}
    (hfile : options.FitsComment file)
    (hfind : find.Finds fun source => options.FitsComment source.name)
    (functions : Assembly.FunctionTable) (text : String) :
    Succeeds (fun _ => True) (build find options functions file text) := by
  have hlexed (lexed : Except Fault (List Item)) :
      Lexed (fun symbol => (Constant.ofSymbol symbol).payload.Dated) lexed :=
    fun _ _ symbol _ => Constant.dated_ofSymbol symbol
  refine (compile_spelled options.FitsComment Payload.admits_dated
    (hfind.mono fun _ hname => ⟨hname, hlexed _⟩) options hfile (hlexed _)).bind
      fun document hdocument => ?_
  obtain ⟨hdecls, hgenerate⟩ := hdocument
  obtain ⟨program, hprogram⟩ := exists_assemble_of_generate (fun _ => id) hgenerate
    (fun decl hmem => (hdecls decl hmem).1) (fun decl hmem => (hdecls decl hmem).2.1)
    (fun decl hmem => (hdecls decl hmem).2.2) (file ++ ".asm") options.retryLimit functions
  exact .liftFault_bind hprogram (.pure trivial)

/-- What building makes of a compiled document. -/
def Document.Compilation.assembled (document : Compilation) (options : Options)
    (functions : Assembly.FunctionTable) (file : String) : Except Fault Build := do
  let program ← Assembly.assemble (file ++ ".asm") document.assembly options.retryLimit functions
  let diagnostics := document.diagnostics ++ program.diagnostics
  return { document, program := { program with diagnostics } }

theorem overflow_of_assembled {document : Compilation} {options : Options}
    {functions : Assembly.FunctionTable} {file : String} {fault : Fault}
    (hfault : document.assembled options functions file = .error fault) :
    ∃ operation, fault = .overflow operation := by
  obtain ⟨program, hprogram⟩ | ⟨operation, hprogram⟩ := Assembly.assemble_cases
    (file ++ ".asm") document.assembly options.retryLimit functions
  · rw [Compilation.assembled, hprogram] at hfault
    cases hfault
  · rw [Compilation.assembled, hprogram] at hfault
    cases hfault
    exact ⟨operation, rfl⟩

/-- Only compiling has effects. -/
theorem run_build {find : SourceFinder m} {options : Options} {file text : String}
    {compilations : m Compilation}
    (hcompile : (compile find options file text).run = Except.ok <$> compilations)
    (functions : Assembly.FunctionTable) :
    (build find options functions file text).run =
      (·.assembled options functions file) <$> compilations := by
  rw [build, ExceptT.run_bind, hcompile, bind_map_left, map_eq_pure_bind]
  refine bind_congr fun document => ?_
  simp only [Compilation.assembled, ExceptT.run_bind, liftFault, ExceptT.run_mk, pure_bind]
  cases Assembly.assemble (file ++ ".asm") document.assembly options.retryLimit functions with
  | error fault => rfl
  | ok program => rfl

/-- Compiling succeeds on every input, and so does building, unless the code is annotated and the
name of a file has a line feed.  The finder of included files may have any effects, for instance a
state of its own.  Otherwise building may fail as assembling may: with an overflow, where the number
of a line does not fit in 64 bits. -/
theorem compiler_succeeds (find : SourceFinder m) (options : Options)
    (functions : Assembly.FunctionTable) (file text : String) :
    (∃ compilations : m Compilation,
      (compile find options file text).run = Except.ok <$> compilations) ∧
    ((∃ program, Assembly.assemble file text options.retryLimit functions = .ok program) ∨
      ∃ operation, Assembly.assemble file text options.retryLimit functions =
          .error (.overflow operation) ∧
        (1 + text.toList.count '\n' < 2 ^ 63 → Assembly.lineOverflow? text = some operation)) ∧
    (options.FitsComment file → (find.Finds fun source => options.FitsComment source.name) →
      ∃ builds : m Build, (build find options functions file text).run = Except.ok <$> builds) ∧
    ∃ builds : m {result : Except Fault Build //
        ∀ fault, result = .error fault → ∃ operation, fault = .overflow operation},
      (build find options functions file text).run = Subtype.val <$> builds := by
  obtain ⟨compilations, hcompile⟩ := (compile_succeeds find options file text).exists_run
  refine ⟨⟨compilations, hcompile⟩, ?_, fun hfile hfind =>
    (build_succeeds hfile hfind functions text).exists_run, ?_⟩
  · obtain hprogram | ⟨operation, hfault⟩ :=
      Assembly.assemble_cases file text options.retryLimit functions
    · exact .inl hprogram
    · exact .inr ⟨operation, hfault, fun hlines =>
        Assembly.lineOverflow?_of_assemble hlines hfault⟩
  · refine ⟨(fun document => ⟨document.assembled options functions file,
      fun fault => overflow_of_assembled⟩) <$> compilations, ?_⟩
    rw [run_build hcompile, Functor.map_map]

/-- A finder that counts its calls and has every file include itself. -/
def selfIncluding : SourceFinder (StateM Nat) := fun path _ => do
  modify (· + 1)
  return some ⟨path, ".bf(a .include(" ++ path ++ ") b)"⟩

/-- Files that include themselves are no fault, with no retries and whatever the depth. -/
theorem compiler_succeeds_selfIncluding :
    (∃ compilations : StateM Nat Compilation,
      (compile selfIncluding { retryLimit := 0, maxIncludeDepth := 3 } "m"
        ".map(a : .include(x)").run = Except.ok <$> compilations) ∧
    (∃ program, Assembly.assemble "m" ".map(a : .include(x)" 0 {} = .ok program) ∧
    (∃ builds : StateM Nat Build,
      (build selfIncluding { retryLimit := 0, maxIncludeDepth := 3 } {} "m"
        ".map(a : .include(x)").run = Except.ok <$> builds) := by
  obtain ⟨hcompile, hassemble, hbuild, -⟩ := compiler_succeeds selfIncluding
    { retryLimit := 0, maxIncludeDepth := 3 } {} "m" ".map(a : .include(x)"
  refine ⟨hcompile, ?_, hbuild nofun (selfIncluding.finds_any fun _ => nofun)⟩
  obtain hprogram | ⟨operation, -, hoverflow⟩ := hassemble
  · exact hprogram
  · have hnone : Assembly.lineOverflow? ".map(a : .include(x)" = none := by decide +kernel
    rw [hnone] at hoverflow
    cases hoverflow (by decide +kernel)

/-- The line behind the one with the largest number has none.  Annotated code is no better if the
name of the file breaks out of the comment. -/
theorem assemble_past_largest_line :
    Assembly.assemble "t.asm" ".line 9223372036854775807\nnop\nnop" 1024 {} =
      .error (.overflow .addition) ∧
    (Id.run (build (m := Id) (fun _ _ => pure none) { annotate := true } {}
      "a\n.line 9223372036854775807\nnop\nnop" "x").run).toOption.isNone = true :=
  ⟨rfl, by decide +kernel⟩

end Docpress
