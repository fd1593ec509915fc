import Docpress.Proofs.Building
import Docpress.Proofs.Reports

/-!
# What the assembler accepts of generated code

A document without numbers with a fraction is compiled into code that the assembler reads without
a diagnostic, with one exception: the words `true` and `false` are truth values of the assembly
language, and an instruction that wants the name of a method does not take them.  The assembler
accepts the code exactly if no method is called by one of these names
(`build_diagnostics_iff`).

In one direction the trees of such a document are writable (`Call.writable_of_spelled`), so that
their code has a meaning.  In the other direction every method that is called in a tree is invoked
in its code (`Call.everywhere_of_lines`), and one line that invokes a truth value is reported
wherever it stands.
-/

namespace Docpress

namespace Document

open Assembly

/-! ## Writable trees -/

mutual

/-- The parameters of every call in the value can be counted in a word. -/
def Value.Countable : Value → Prop
  | .constant _ => True
  | .call call => call.Countable

/-- The parameters of every call in the call can be counted in a word, as those of every list in
memory can be. -/
def Call.Countable : Call → Prop
  | .vector _ _ args => Value.AllCountable args
  | .map _ _ params => params.length < UInt64.size ∧ Param.AllCountable params

/-- The parameters of every call in the value of the parameter can be counted in a word. -/
def Param.Countable : Param → Prop
  | .pending _ => True
  | .bound _ value => value.Countable

def Value.AllCountable : List Value → Prop
  | [] => True
  | value :: rest => value.Countable ∧ Value.AllCountable rest

def Param.AllCountable : List Param → Prop
  | [] => True
  | param :: rest => param.Countable ∧ Param.AllCountable rest

end

/-- The name is none of the words for truth values. -/
def IsNoTruthValue (name : String) : Prop := name ≠ "true" ∧ name ≠ "false"

/-- No method in the call is named like a truth value. -/
abbrev Call.CallsNoTruthValue : Call → Prop :=
  Call.Everywhere IsNoTruthValue fun _ => True

theorem isMethodName_of_isIdentifier {name : String} (hidentifier : IsIdentifier name.toList)
    (hname : IsNoTruthValue name) : IsMethodName name :=
  ⟨hidentifier.isNameChar, hidentifier.isLower_head, hname.1, hname.2⟩

mutual

theorem Value.writable_of_spelled : (value : Value) → value.Spelled Payload.Writable →
    value.Countable →
    value.Everywhere IsNoTruthValue (fun _ => True) → value.Writable
  | .constant _, hspelled, _, _ => by
    simp only [Value.Everywhere, Value.Writable] at hspelled ⊢
    exact hspelled
  | .call call, hspelled, hcount, hnames => by
    simp only [Value.Everywhere, Value.Countable, Value.Writable] at hspelled hcount hnames ⊢
    exact Call.writable_of_spelled call hspelled hcount hnames

/-- Names other than truth values are all that a spelled tree needs to be writable. -/
theorem Call.writable_of_spelled : (call : Call) → call.Spelled Payload.Writable →
    call.Countable →
    call.CallsNoTruthValue → call.Writable
  | .vector name _ args, hspelled, hcount, hnames => by
    simp only [Call.Everywhere, Call.Countable, Call.Writable] at hspelled hcount hnames ⊢
    exact ⟨isMethodName_of_isIdentifier hspelled.1 hnames.1,
      Value.allWritable_of_spelled args hspelled.2 hcount hnames.2⟩
  | .map name _ params, hspelled, hcount, hnames => by
    simp only [Call.Everywhere, Call.Countable, Call.Writable] at hspelled hcount hnames ⊢
    exact ⟨isMethodName_of_isIdentifier hspelled.1 hnames.1, hcount.1,
      Param.allWritable_of_spelled params hspelled.2 hcount.2 hnames.2⟩

theorem Param.writable_of_spelled : (param : Param) →
    param.Everywhere (fun name => IsIdentifier name.toList) Payload.Writable → param.Countable →
    param.Everywhere IsNoTruthValue (fun _ => True) → param.Writable
  | .pending _, _, _, _ => by simp only [Param.Writable]
  | .bound _ value, hspelled, hcount, hnames => by
    simp only [Param.Everywhere, Param.Countable, Param.Writable] at hspelled hcount hnames ⊢
    exact Value.writable_of_spelled value hspelled hcount hnames

theorem Value.allWritable_of_spelled : (values : List Value) →
    Value.AllEverywhere (fun name => IsIdentifier name.toList) Payload.Writable values →
    Value.AllCountable values → Value.AllEverywhere IsNoTruthValue (fun _ => True) values →
    Value.AllWritable values
  | [], _, _, _ => by simp only [Value.AllWritable]
  | value :: rest, hspelled, hcount, hnames => by
    simp only [Value.AllEverywhere, Value.AllCountable, Value.AllWritable]
      at hspelled hcount hnames ⊢
    exact ⟨Value.writable_of_spelled value hspelled.1 hcount.1 hnames.1,
      Value.allWritable_of_spelled rest hspelled.2 hcount.2 hnames.2⟩

theorem Param.allWritable_of_spelled : (params : List Param) →
    Param.AllEverywhere (fun name => IsIdentifier name.toList) Payload.Writable params →
    Param.AllCountable params → Param.AllEverywhere IsNoTruthValue (fun _ => True) params →
    Param.AllWritable params
  | [], _, _, _ => by simp only [Param.AllWritable]
  | param :: rest, hspelled, hcount, hnames => by
    simp only [Param.AllEverywhere, Param.AllCountable, Param.AllWritable]
      at hspelled hcount hnames ⊢
    exact ⟨Param.writable_of_spelled param hspelled.1 hcount.1 hnames.1,
      Param.allWritable_of_spelled rest hspelled.2 hcount.2 hnames.2⟩

end

/-! ## Invoked methods -/

/-- The names that the lines invoke satisfy the predicate. -/
def Invokes (names : String → Prop) (lines : List Line) : Prop :=
  ∀ name, .operand .invokeR name ∈ lines → names name

theorem Invokes.of_append {names : String → Prop} {first second : List Line}
    (hinvokes : Invokes names (first ++ second)) : Invokes names first ∧ Invokes names second :=
  ⟨fun name hmem => hinvokes name (List.mem_append_left _ hmem),
    fun name hmem => hinvokes name (List.mem_append_right _ hmem)⟩

theorem Emission.Counts.lines_andThen {first : Emission} {count : Nat} (hfirst : first.Counts count)
    (second : Emission) : (first.andThen second).lines = first.lines ++ second.lines := by
  simp only [Emission.andThen, hfirst.1]

section

variable {names : String → Prop}

mutual

theorem Value.everywhere_of_lines (hparagraph : names paragraph) : (value : Value) →
    value.Complete → Invokes names value.emit.lines → value.Everywhere names fun _ => True
  | .constant _, _, _ => by simp only [Value.Everywhere]
  | .call call, hcomplete, hinvokes => by
    simp only [Value.Complete, Value.emit, Value.Everywhere] at hcomplete hinvokes ⊢
    exact Call.everywhere_of_lines hparagraph call hcomplete hinvokes

/-- All methods that are called in a complete tree are invoked in its code, but for paragraphs
with nothing in them. -/
theorem Call.everywhere_of_lines (hparagraph : names paragraph) : (call : Call) →
    call.Complete → Invokes names call.emit.lines → call.Everywhere names fun _ => True
  | .vector name entry args, hcomplete, hinvokes => by
    simp only [Call.Complete, Call.emit, Call.Everywhere] at hcomplete hinvokes ⊢
    by_cases hvacuous : Call.isVacuous name args = true
    · simp only [Call.isVacuous, Bool.and_eq_true, decide_eq_true_eq, List.isEmpty_iff]
        at hvacuous
      obtain ⟨rfl, rfl⟩ := hvacuous
      exact ⟨hparagraph, by simp only [Value.AllEverywhere]⟩
    · have hargs := Value.emitAll_of_complete args hcomplete
      have hframe := (Emission.counts_ofLines [.op .esba]).andThen hargs
      rw [if_neg hvacuous, hframe.lines_andThen,
        (Emission.counts_ofLines [.op .esba]).lines_andThen] at hinvokes
      obtain ⟨hcode, hinvoke⟩ := hinvokes.of_append
      exact ⟨hinvoke name (by simp [Emission.ofLines]),
        Value.allEverywhere_of_lines hparagraph args hcomplete hcode.of_append.2⟩
  | .map name entry params, hcomplete, hinvokes => by
    simp only [Call.Complete, Call.Everywhere] at hcomplete ⊢
    have hparams := Param.emitAll_of_complete params hcomplete
    rw [Call.emit, Call.isComplete_of_allComplete hcomplete, if_neg (by decide),
      hparams.lines_andThen] at hinvokes
    obtain ⟨hcode, hinvoke⟩ := hinvokes.of_append
    exact ⟨hinvoke name (by simp [Emission.ofLines]),
      Param.allEverywhere_of_lines hparagraph params hcomplete hcode⟩

theorem Param.everywhere_of_lines (hparagraph : names paragraph) : (param : Param) →
    param.Complete → Invokes names param.emit.lines → param.Everywhere names fun _ => True
  | .pending _, _, _ => by simp only [Param.Everywhere]
  | .bound _ value, hcomplete, hinvokes => by
    simp only [Param.Complete, Param.Everywhere, Param.emit] at hcomplete hinvokes ⊢
    rw [(Value.emit_of_complete value hcomplete).lines_andThen] at hinvokes
    exact Value.everywhere_of_lines hparagraph value hcomplete hinvokes.of_append.1

theorem Value.allEverywhere_of_lines (hparagraph : names paragraph) : (values : List Value) →
    Value.AllComplete values → Invokes names (Value.emitAll values).lines →
    Value.AllEverywhere names (fun _ => True) values
  | [], _, _ => by simp only [Value.AllEverywhere]
  | value :: rest, hcomplete, hinvokes => by
    simp only [Value.AllComplete, Value.emitAll, Value.AllEverywhere] at hcomplete hinvokes ⊢
    rw [(Value.emit_of_complete value hcomplete.1).lines_andThen] at hinvokes
    exact ⟨Value.everywhere_of_lines hparagraph value hcomplete.1 hinvokes.of_append.1,
      Value.allEverywhere_of_lines hparagraph rest hcomplete.2 hinvokes.of_append.2⟩

theorem Param.allEverywhere_of_lines (hparagraph : names paragraph) : (params : List Param) →
    Param.AllComplete params → Invokes names (Param.emitAll params).lines →
    Param.AllEverywhere names (fun _ => True) params
  | [], _, _ => by simp only [Param.AllEverywhere]
  | param :: rest, hcomplete, hinvokes => by
    simp only [Param.AllComplete, Param.emitAll, Param.AllEverywhere] at hcomplete hinvokes ⊢
    rw [(Param.emit_of_complete param hcomplete.1).lines_andThen] at hinvokes
    exact ⟨Param.everywhere_of_lines hparagraph param hcomplete.1 hinvokes.of_append.1,
      Param.allEverywhere_of_lines hparagraph rest hcomplete.2 hinvokes.of_append.2⟩

end

end

/-! ## Generated code -/

/-- In code with the line, the line stands behind a line break and before another one. -/
theorem exists_render_of_mem {line : Line} {lines : List Line} (hmem : line ∈ lines) :
    ∃ front rest,
      (render lines).toList = front ++ '\n' :: (line.text.toList ++ '\n' :: rest) := by
  obtain ⟨before, after, rfl⟩ := List.append_of_mem hmem
  obtain ⟨front, hfront⟩ := exists_unlines_cons codeHeader.toList (before.map (·.text.toList))
  refine ⟨front, unlines ((after ++ [Line.op .halt]).map (·.text.toList)), ?_⟩
  rw [toList_render, List.append_assoc, List.map_append, ← List.cons_append, unlines_append, hfront,
    List.cons_append, List.map_cons, unlines_cons, List.append_assoc]
  rfl

/-- The line that invokes a method named like a truth value. -/
theorem standsFor_invoke_truthValue {name : String} (hname : ¬ IsNoTruthValue name) :
    StandsFor (Line.operand .invokeR name).text.toList
      [⟨.instruction, Opcode.invokeR.mnemonic⟩, ⟨.bool, name⟩] := by
  rw [Line.toList_text_operand]
  have hvalue : StandsFor name.toList [⟨.bool, name⟩] := by
    rw [IsNoTruthValue, not_and_or, not_not, not_not] at hname
    rcases hname with rfl | rfl
    · exact standsFor_word ⟨List.all_eq_true.1 rfl, _, _, rfl, rfl⟩ (by decide)
    · exact standsFor_word ⟨List.all_eq_true.1 rfl, _, _, rfl, rfl⟩ (by decide)
  exact hvalue.behind_word (isWord_mnemonic .invokeR) (wordSymbol_mnemonic .invokeR)

/-- The assembler accepts the code of spelled declarations exactly if no method is named like a
truth value. -/
theorem assemble_iff {decls : List (Decl Call)} (hcomplete : ∀ decl ∈ decls, decl.node.Complete)
    (hspelled : ∀ decl ∈ decls, decl.node.Spelled Payload.Writable)
    (hcount : ∀ decl ∈ decls, decl.node.Countable) {text : String}
    (hgenerate : generate false decls = .ok text) {retryLimit : Nat} (hlimit : 6 ≤ retryLimit)
    {functions : FunctionTable} {file : String} {program : Program}
    (hassemble : assemble file text retryLimit functions = .ok program) :
    program.diagnostics = [] ↔ ∀ decl ∈ decls, decl.node.CallsNoTruthValue := by
  have htext : text = render (decls.map (·.node.emit.lines)).flatten := by
    rw [generate_of_complete false hcomplete] at hgenerate
    exact (Except.ok.inj hgenerate).symm
  by_cases hnames : ∀ decl ∈ decls, decl.node.CallsNoTruthValue
  · have hwritable (decl : Decl Call) (hmem : decl ∈ decls) : decl.node.Writable :=
      Call.writable_of_spelled decl.node (hspelled decl hmem) (hcount decl hmem)
        (hnames decl hmem)
    have hfiles : false = true → ∀ decl ∈ decls, '\n' ∉ decl.position.file.toList := nofun
    have hmeans : Means functions retryLimit _ _ :=
      (means_decls hlimit hcomplete hwritable hfiles).append
        (.single (lineMeans_op hlimit .halt rfl))
    have hrender := toList_render (decls.map (·.node.emit.lines)).flatten
    rw [← htext, List.map_append] at hrender
    obtain ⟨_, hprogram, hdiagnostics, -⟩ :=
      assemble_of_means hlimit standsFor_codeHeader hmeans hrender file
    cases hassemble.symm.trans hprogram
    exact iff_of_true hdiagnostics hnames
  · have hinvokes : ¬ Invokes IsNoTruthValue (decls.map (·.node.emit.lines)).flatten := by
      intro hinvokes
      refine hnames fun decl hmem => ?_
      refine Call.everywhere_of_lines (by simp [IsNoTruthValue, paragraph]) decl.node
        (hcomplete decl hmem) fun name hname => hinvokes name ?_
      exact List.mem_flatten_of_mem (List.mem_map_of_mem hmem) hname
    simp only [Invokes, not_forall] at hinvokes
    obtain ⟨name, hmem, hname⟩ := hinvokes
    obtain ⟨front, rest, hrender⟩ := exists_render_of_mem hmem
    rw [← htext] at hrender
    have hdiagnostics := diagnostics_of_reports (standsFor_invoke_truthValue hname) nofun (by simp)
      (Parser.reports_truthValue (.inl rfl) name) hrender hlimit hassemble
    exact iff_of_false hdiagnostics hnames

end Document

/-! ## Building -/

open Document in
/-- Where neither a document nor the files that it includes have numbers with a fraction, building
it adds no diagnostic to those of the document exactly if no method is called `true` or
`false`. -/
theorem build_diagnostics_iff {m : Type → Type} [Monad m] [LawfulMonad m] {find : SourceFinder m}
    (hfind : find.Finds fun source => FractionFree (lexContinuation source.text))
    {options : Options} (hannotate : options.annotate = false) (hlimit : 6 ≤ options.retryLimit)
    {text : String} (htext : FractionFree (Document.lex text)) (functions : Assembly.FunctionTable)
    (file : String) :
    Succeeds (fun result => (∀ decl ∈ result.document.decls, decl.node.Countable) →
        (result.program.diagnostics = result.document.diagnostics ↔
          ∀ decl ∈ result.document.decls, decl.node.CallsNoTruthValue))
      (build find options functions file text) := by
  have hfiles := hfind.mono fun _ hfree => And.intro trivial hfree.writable
  refine (compile_spelled (fun _ => True) Payload.admits_writable hfiles options trivial
    htext.writable).bind fun document hdocument => ?_
  obtain ⟨hdecls, hgenerate⟩ := hdocument
  have hcomplete : ∀ decl ∈ document.decls, decl.node.Complete := fun decl hmem =>
    (hdecls decl hmem).1
  have hspelled : ∀ decl ∈ document.decls, decl.node.Spelled Payload.Writable := fun decl hmem =>
    (hdecls decl hmem).2.1
  rw [hannotate] at hgenerate
  obtain ⟨program, hprogram⟩ := exists_assemble_of_generate (fun _ => Payload.Writable.dated)
    hgenerate hcomplete hspelled (fun _ _ => nofun) (file ++ ".asm") options.retryLimit functions
  refine .liftFault_bind hprogram (.pure fun hcount => ?_)
  show document.diagnostics ++ program.diagnostics = document.diagnostics ↔ _
  rw [List.append_right_eq_self]
  exact assemble_iff hcomplete hspelled hcount hgenerate hlimit hprogram

/-- A finder that counts its calls and has every file include itself and others. -/
def countingFinder : Document.SourceFinder (StateM Nat) := fun _ _ => do
  modify (· + 1)
  return some ⟨"c.ds", "b .include(c) .false(.include(d)). 2024-02-29"⟩

theorem build_diagnostics_iff_countingFinder :
    (countingFinder.Finds fun source =>
      Document.FractionFree (Document.lexContinuation source.text)) ∧
    Document.FractionFree (Document.lex "a -1 .link(title : \"x\", .include(c)") ∧
    Succeeds (fun result => (∀ decl ∈ result.document.decls, decl.node.Countable) →
        (result.program.diagnostics = result.document.diagnostics ↔
          ∀ decl ∈ result.document.decls, decl.node.CallsNoTruthValue))
      (build countingFinder { retryLimit := 6, maxIncludeDepth := 3 } {} "m"
        "a -1 .link(title : \"x\", .include(c)") := by
  have hfile : Document.FractionFree
      (Document.lexContinuation "b .include(c) .false(.include(d)). 2024-02-29") := by
    decide +kernel
  have hfind : countingFinder.Finds fun source =>
      Document.FractionFree (Document.lexContinuation source.text) := by
    refine fun path position => ⟨do
      modify (· + 1)
      return ⟨some ⟨"c.ds", "b .include(c) .false(.include(d)). 2024-02-29"⟩, ?_⟩, rfl⟩
    rintro _ ⟨⟩
    exact hfile
  have htext : Document.FractionFree
      (Document.lex "a -1 .link(title : \"x\", .include(c)") := by
    decide +kernel
  exact ⟨hfind, htext, build_diagnostics_iff hfind rfl (by decide) htext {} "m"⟩

/-- A method named `true` gets past the compiler with a warning, but not past the assembler. -/
theorem build_method_true : ∃ result : Build,
    (build (m := Id) (fun _ _ => none) {} {} "doc.ds" ".true(a)").run = .ok result ∧
      result.document.diagnostics = [⟨⟨"doc.ds", 1⟩, .unknownMethod "true"⟩] ∧
      result.program.diagnostics = result.document.diagnostics ++
        [⟨⟨"doc.ds.asm", 8⟩, .missingOperand .invokeR⟩,
          ⟨⟨"doc.ds.asm", 8⟩, .mismatch .endOfLine ⟨.bool, "true"⟩⟩] := by
  have hrun : (match (build (m := Id) (fun _ _ => none) {} {} "doc.ds" ".true(a)").run with
      | .ok result => decide (result.document.diagnostics =
          [⟨⟨"doc.ds", 1⟩, .unknownMethod "true"⟩] ∧
        result.program.diagnostics = result.document.diagnostics ++
          [⟨⟨"doc.ds.asm", 8⟩, .missingOperand .invokeR⟩,
            ⟨⟨"doc.ds.asm", 8⟩, .mismatch .endOfLine ⟨.bool, "true"⟩⟩])
      | .error _ => false) = true := by
    decide +kernel
  split at hrun
  · rename_i result hresult
    exact ⟨result, hresult, of_decide_eq_true hrun⟩
  · cases hrun

end Docpress
