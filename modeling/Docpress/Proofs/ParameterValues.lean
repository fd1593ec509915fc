import Docpress.Proofs.NoFault
import Docpress.Proofs.StackMachine
import Docpress.Proofs.WellFormedTrees

/-!
# The values of parameters

The code of a parameter is that of its value, followed by the key and the instruction that pairs
the two.  The value is whatever is on top of the stack by then.  It is the parameter's own value,
since the code of a value ends with what it leaves (`Value.heads_of_run`), unless it has no
instruction at all.  Only a paragraph with nothing in it is compiled to none, and nothing keeps it
out of parameters: the key is then paired with what was pushed before, which is missing there.

`Param.Pairing` says this of a parameter, `Param.pairing` proves it of every complete one, and
documents are compiled into complete trees.
-/

namespace Docpress.Document

/-! ## Complete trees -/

mutual

theorem Value.complete_of_mem_nodes : (value : Value) → value.Complete →
    ∀ node ∈ value.nodes, node.Complete
  | .constant _, _ => by simp [Value.nodes]
  | .call call, hcomplete => by
    simp only [Value.Complete] at hcomplete
    simpa only [Value.nodes] using Call.complete_of_mem_nodes call hcomplete

/-- All calls in a complete call are complete. -/
theorem Call.complete_of_mem_nodes : (call : Call) → call.Complete →
    ∀ node ∈ call.nodes, node.Complete
  | .vector name entry args, hcomplete => by
    rw [Call.nodes, List.forall_mem_cons]
    refine ⟨hcomplete, ?_⟩
    simp only [Call.Complete] at hcomplete
    exact Value.complete_of_mem_allNodes args hcomplete
  | .map name entry params, hcomplete => by
    rw [Call.nodes, List.forall_mem_cons]
    refine ⟨hcomplete, ?_⟩
    simp only [Call.Complete] at hcomplete
    exact Param.complete_of_mem_allNodes params hcomplete

theorem Param.complete_of_mem_nodes : (param : Param) → param.Complete →
    ∀ node ∈ param.nodes, node.Complete
  | .pending _, _ => by simp [Param.nodes]
  | .bound _ value, hcomplete => by
    simp only [Param.Complete] at hcomplete
    simpa only [Param.nodes] using Value.complete_of_mem_nodes value hcomplete

theorem Value.complete_of_mem_allNodes : (values : List Value) → Value.AllComplete values →
    ∀ node ∈ Value.allNodes values, node.Complete
  | [], _ => by simp [Value.allNodes]
  | value :: rest, hcomplete => by
    simp only [Value.AllComplete] at hcomplete
    rw [Value.allNodes, List.forall_mem_append]
    exact ⟨Value.complete_of_mem_nodes value hcomplete.1,
      Value.complete_of_mem_allNodes rest hcomplete.2⟩

theorem Param.complete_of_mem_allNodes : (params : List Param) → Param.AllComplete params →
    ∀ node ∈ Param.allNodes params, node.Complete
  | [], _ => by simp [Param.allNodes]
  | param :: rest, hcomplete => by
    simp only [Param.AllComplete] at hcomplete
    rw [Param.allNodes, List.forall_mem_append]
    exact ⟨Param.complete_of_mem_nodes param hcomplete.1,
      Param.complete_of_mem_allNodes rest hcomplete.2⟩

end

/-! ## The end of the code -/

theorem runLines_append (first second : List Line) (stack : List Slot) :
    runLines (first ++ second) stack = (runLines first stack).bind (runLines second) :=
  List.foldlM_append

theorem runLines_cons (line : Line) (lines : List Line) (stack : List Slot) :
    runLines (line :: lines) stack = (line.run stack).bind (runLines lines) := rfl

/-- A method that is called leaves the call. -/
theorem top_of_run_invoke {name : String} {stack after : List Slot}
    (hrun : Line.run (.operand .invokeR name) stack = some after) :
    ∃ argument rest, after = .term (.call name argument) :: rest := by
  rcases stack with _ | ⟨_ | arity, _ | ⟨_ | argument, rest⟩⟩
  · cases hrun
  · cases hrun
  · cases hrun
  · cases hrun
  · cases hrun
  · cases hrun
  · simp only [Line.run] at hrun
    split at hrun
    · exact ⟨argument, rest, (Option.some.inj hrun).symm⟩
    · cases hrun

/-- A frame is closed around the top of the stack. -/
theorem top_of_run_pull {top : Term} {stack after : List Slot}
    (hrun : Line.run (.op .pull) (.term top :: stack) = some after) :
    ∃ rest, after = .term top :: rest := by
  obtain ⟨frame, -, hafter⟩ := Option.bind_eq_some_iff.1 hrun
  exact ⟨frame.2, (Option.some.inj hafter).symm⟩

/-- Whether the value is a paragraph with nothing in it. -/
def Value.isEmptyParagraph : Value → Bool
  | .constant _ => false
  | .call node => node.isEmptyParagraph

/-- The term is of the value: its constant, or a call of its method. -/
def Value.Heads : Value → Term → Prop
  | .constant c, term => term = .constant c.payload.spelling
  | .call node, term => ∃ argument, term = .call node.name argument

/-- The code of a call ends with the call of the method, and with the frame if it has one. -/
theorem Call.exists_emit_eq {call : Call} (hcomplete : call.Complete)
    (hempty : call.isEmptyParagraph = false) :
    ∃ front back, call.emit.lines = front ++ Line.operand .invokeR call.name :: back ∧
      (back = [] ∨ back = [.op .pull]) := by
  cases call with
  | vector name entry args =>
    have hvacuous : ¬ Call.isVacuous name args = true := by simpa [isEmptyParagraph] using hempty
    simp only [Call.Complete] at hcomplete
    obtain ⟨hfault, -⟩ := Value.emitAll_of_complete args hcomplete
    refine ⟨.op .esba :: ((Value.emitAll args).lines ++ [Line.op .frm, .op .makeVector, .push "1"]),
      [.op .pull], ?_, .inr rfl⟩
    simp [Call.emit, hvacuous, Emission.andThen, Emission.ofLines, hfault, Call.name]
  | map name entry params =>
    simp only [Call.Complete] at hcomplete
    obtain ⟨hfault, -⟩ := Param.emitAll_of_complete params hcomplete
    refine ⟨(Param.emitAll params).lines ++
      [Line.push (Text.decimal params.length), .op .makeParamMap, .push "1"], [], ?_, .inl rfl⟩
    simp [Call.emit, Call.isComplete_of_allComplete hcomplete, Emission.andThen, Emission.ofLines,
      hfault, Call.name]

/-- The code of a value leaves a term of the value on top, if it has any instruction. -/
theorem Value.heads_of_run {value : Value} (hcomplete : value.Complete)
    (hempty : value.isEmptyParagraph = false) {stack after : List Slot}
    (hrun : runLines value.emit.lines stack = some after) :
    ∃ term rest, after = .term term :: rest ∧ value.Heads term := by
  cases value with
  | constant c =>
    simp only [Value.emit, Emission.ofLines] at hrun
    exact ⟨_, stack, (Option.some.inj hrun).symm, rfl⟩
  | call node =>
    simp only [Value.Complete] at hcomplete
    obtain ⟨front, back, hlines, hback⟩ := Call.exists_emit_eq hcomplete hempty
    rw [Value.emit, hlines, runLines_append] at hrun
    obtain ⟨before, -, hrun⟩ := Option.bind_eq_some_iff.1 hrun
    rw [runLines_cons] at hrun
    obtain ⟨called, hcalled, hrun⟩ := Option.bind_eq_some_iff.1 hrun
    obtain ⟨argument, rest, rfl⟩ := top_of_run_invoke hcalled
    rcases hback with rfl | rfl
    · exact ⟨_, rest, (Option.some.inj hrun).symm, argument, rfl⟩
    · rw [runLines_cons] at hrun
      obtain ⟨closed, hclosed, hrun⟩ := Option.bind_eq_some_iff.1 hrun
      obtain ⟨below, rfl⟩ := top_of_run_pull hclosed
      exact ⟨_, below, (Option.some.inj hrun).symm, argument, rfl⟩

/-! ## Parameters -/

theorem Value.size_pos_iff (value : Value) : 0 < value.size ↔ value.isEmptyParagraph = false := by
  cases value with
  | constant c => simp [Value.size, isEmptyParagraph]
  | call node =>
    cases node with
    | vector name entry args =>
      simp only [Value.size, Call.size, isEmptyParagraph, Call.isEmptyParagraph]
      split
      · simp_all
      · rename_i hvacuous
        rw [Bool.not_eq_true] at hvacuous
        exact iff_of_true (by omega) hvacuous
    | map name entry params =>
      simp only [Value.size, Call.size, isEmptyParagraph, Call.isEmptyParagraph]
      exact iff_of_true (by omega) trivial

/-- How the key of a parameter finds the value. -/
structure Param.Pairing (key : String) (value : Value) : Prop where
  /-- the value can be compiled -/
  fault : value.emit.fault = none
  /-- only an empty paragraph is compiled to no instruction -/
  instructions : 0 < instructionCount value.emit.lines ↔ value.isEmptyParagraph = false
  /-- the key is paired with what the code of the value leaves on top -/
  own (hvalue : value.isEmptyParagraph = false) {stack after : List Slot}
    (hrun : runLines value.emit.lines stack = some after) :
    ∃ term rest, after = .term term :: rest ∧ value.Heads term ∧
      runLines (Param.bound key value).emit.lines stack =
        some (.term (.param (quoteString key) term) :: rest)
  /-- which is the term of the value, unless empty paragraphs are missing in it -/
  whole (hvalue : value.Solid) (stack : List Slot) :
    runLines (Param.bound key value).emit.lines stack =
      some (.term (.param (quoteString key) value.term) :: stack)
  /-- in place of an empty paragraph, it is paired with what was on top before -/
  other (hvalue : value.isEmptyParagraph = true) (top : Term) (stack : List Slot) :
    runLines (Param.bound key value).emit.lines (.term top :: stack) =
      some (.term (.param (quoteString key) top) :: stack)
  /-- if there was anything -/
  stuck (hvalue : value.isEmptyParagraph = true) (stack : List Slot)
    (hstack : ∀ top rest, stack ≠ .term top :: rest) :
    runLines (Param.bound key value).emit.lines stack = none

theorem Param.emit_lines_bound (key : String) {value : Value} (hfault : value.emit.fault = none) :
    (Param.bound key value).emit.lines =
      value.emit.lines ++ [.push (quoteString key), .op .makeParam] := by
  simp [Param.emit, Emission.andThen, Emission.ofLines, hfault]

/-- The code of an empty paragraph is a comment. -/
theorem Value.runLines_of_isEmptyParagraph {value : Value} (hempty : value.isEmptyParagraph = true)
    (stack : List Slot) : runLines value.emit.lines stack = some stack := by
  cases value with
  | constant c => cases hempty
  | call node =>
    cases node with
    | vector name entry args =>
      have hvacuous : Call.isVacuous name args = true := hempty
      simp only [Value.emit, Call.emit, hvacuous, if_true]
      rfl
    | map name entry params => cases hempty

theorem Param.pairing (key : String) {value : Value} (hcomplete : value.Complete) :
    Param.Pairing key value := by
  obtain ⟨hfault, hcount⟩ := Value.emit_of_complete value hcomplete
  have hlines := Param.emit_lines_bound key hfault
  have hpair (top : Term) (rest : List Slot) :
      runLines [.push (quoteString key), .op .makeParam] (.term top :: rest) =
        some (.term (.param (quoteString key) top) :: rest) :=
    (runs_param key top).runLines rest
  refine ⟨hfault, ?_, fun hvalue stack after hrun => ?_, fun hvalue stack => ?_,
    fun hvalue top stack => ?_, fun hvalue stack hstack => ?_⟩
  · rw [hcount, Value.size_pos_iff]
  · obtain ⟨term, rest, rfl, hheads⟩ := Value.heads_of_run hcomplete hvalue hrun
    refine ⟨term, rest, rfl, hheads, ?_⟩
    rw [hlines, runLines_append, hrun]
    exact hpair term rest
  · exact (Param.emit_runs (.bound key value) hcomplete hvalue).2.runLines stack
  · rw [hlines, runLines_append, Value.runLines_of_isEmptyParagraph hvalue]
    exact hpair top stack
  · rw [hlines, runLines_append, Value.runLines_of_isEmptyParagraph hvalue]
    rcases stack with _ | ⟨_ | top, rest⟩
    · rfl
    · rfl
    · exact absurd rfl (hstack top rest)

/-! ## Documents -/

section

variable {m : Type → Type} [Monad m] [LawfulMonad m]

/-- Documents are compiled into trees in which every parameter of every call is paired with its
value, unless the value is an empty paragraph. -/
theorem compile_pairs_parameters (find : SourceFinder m) (options : Options) (file text : String) :
    Succeeds (fun document => generate options.annotate document.decls = .ok document.assembly ∧
        ∀ decl ∈ document.decls, ∀ node ∈ decl.node.nodes,
          ∀ name entry params, node = .map name entry params → ∀ param ∈ params,
            ∃ key value, param = .bound key value ∧ Param.Pairing key value)
      (compile find options file text) := by
  have hfiles : find.Finds (Source.Fits (fun _ => True) fun _ => True) :=
    find.finds_any fun _ => ⟨trivial, fun _ _ _ _ => trivial⟩
  have htext : Lexed (fun _ => True) (lex text) := fun _ _ _ _ => trivial
  refine (compile_upholds Parser.upholds_sound hfiles options htext
    (Parser.sound_start file options.retryLimit)).mono fun document hdocument => ?_
  obtain ⟨⟨parser, hsound, hdecls⟩, hgenerate⟩ := hdocument
  refine ⟨hgenerate, ?_⟩
  rintro decl hdecl node hnode name entry params rfl param hparam
  rw [hdecls, Array.mem_toList_iff] at hdecl
  have hcomplete := Call.complete_of_mem_nodes decl.node (hsound.2.decls decl hdecl) _ hnode
  simp only [Call.Complete, Param.allComplete_iff] at hcomplete
  have hbound := hcomplete param hparam
  cases param with
  | pending key => simp [Param.Complete] at hbound
  | bound key value =>
    simp only [Param.Complete] at hbound
    exact ⟨key, value, rfl, Param.pairing key hbound⟩

end

/-- A link whose text is an empty paragraph. -/
def emptyLinkText : String := "see .link(text: .paragraph(), url: b)"

theorem compile_pairs_emptyLinkText : ∃ document : Compilation,
    (compile (m := Id) (fun _ _ => none) {} "doc.ds" emptyLinkText).run = .ok document ∧
      ∀ decl ∈ document.decls, ∀ node ∈ decl.node.nodes,
        ∀ name entry params, node = .map name entry params → ∀ param ∈ params,
          ∃ key value, param = .bound key value ∧ Param.Pairing key value := by
  obtain ⟨results, hrun⟩ :=
    compile_pairs_parameters (m := Id) (fun _ _ => none) {} "doc.ds" emptyLinkText
  exact ⟨results.val, hrun, results.property.2⟩

/-- The code of such a document.  Where the text of the link should be there is a comment. -/
def emptyLinkLines : List Line :=
  [.op .esba, .push "\"see\"", .comment "empty paragraph", .push "\"text\"", .op .makeParam,
    .push "\"b\"", .push "\"url\"", .op .makeParam, .push "2", .op .makeParamMap, .push "1",
    .operand .invokeR "link", .op .frm, .op .makeVector, .push "1",
    .operand .invokeR "paragraph", .op .pull]

/-- The word before the link becomes its text, without a diagnostic. -/
theorem compile_emptyLinkText : ∃ document : Compilation,
    (compile (m := Id) (fun _ _ => none) {} "doc.ds" emptyLinkText).run = .ok document ∧
      document.diagnostics = [] ∧ document.decls.map (·.node.emit.lines) = [emptyLinkLines] ∧
      runLines emptyLinkLines [] =
        some [.term (.call "paragraph" (.vector [.call "link" (.map
          [.param "\"text\"" (.constant "\"see\""),
            .param "\"url\"" (.constant "\"b\"")])]))] := by
  have hrun : (match (compile (m := Id) (fun _ _ => none) {} "doc.ds" emptyLinkText).run with
      | .ok document => decide (document.diagnostics = [] ∧
          document.decls.map (·.node.emit.lines) = [emptyLinkLines])
      | .error _ => false) = true := by
    decide +kernel
  split at hrun
  · rename_i document hdocument
    obtain ⟨hdiagnostics, hlines⟩ := of_decide_eq_true hrun
    exact ⟨document, hdocument, hdiagnostics, hlines, rfl⟩
  · cases hrun

end Docpress.Document
