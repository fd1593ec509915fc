import Docpress.Proofs.Contents
import Mathlib.Algebra.GroupWithZero.Nat

/-!
# The size of generated code

Code is generated for a tree just if every parameter in it has its value: the two recursions, over
the code and over the sizes, then agree at every node, so that nothing else can fail
(`generate_eq_ok_iff`).

The sizes count instructions.  These are also the lines of the text that are no comments, unless a
line feed gets into the code.  Constants are spelled without one (`Payload.noFeed_spelling`), but
names of methods and files are written as they are, so that each line of the code is one of the
text only if there is none in these (`generate_counts`).
-/

namespace Docpress.Document

open Assembly

/-! ## Faults -/

theorem Emission.fault_andThen_iff {first second : Emission} :
    (first.andThen second).fault = none ↔ first.fault = none ∧ second.fault = none := by
  unfold andThen
  split
  · rename_i fault hfault
    simp [hfault]
  · rename_i hfault
    simp [hfault]

mutual

theorem Value.complete_of_emit : (value : Value) → value.emit.fault = none → value.Complete
  | .constant _, _ => by simp only [Value.Complete]
  | .call call, hfault => by
    simp only [Value.emit, Value.Complete] at hfault ⊢
    exact Call.complete_of_emit call hfault

/-- A call whose code has no fault has all its values. -/
theorem Call.complete_of_emit : (call : Call) → call.emit.fault = none → call.Complete
  | .vector name entry args, hfault => by
    simp only [Call.emit, Call.Complete] at hfault ⊢
    by_cases hvacuous : Call.isVacuous name args = true
    · simp only [Call.isVacuous, Bool.and_eq_true, List.isEmpty_iff] at hvacuous
      rw [hvacuous.2]
      simp only [Value.AllComplete]
    · rw [if_neg hvacuous, Emission.fault_andThen_iff, Emission.fault_andThen_iff] at hfault
      exact Value.allComplete_of_emit args hfault.1.2
  | .map name entry params, hfault => by
    simp only [Call.emit, Call.Complete] at hfault ⊢
    split at hfault
    · cases hfault
    · rw [Emission.fault_andThen_iff] at hfault
      exact Param.allComplete_of_emit params hfault.1

theorem Param.complete_of_emit : (param : Param) → param.emit.fault = none → param.Complete
  | .pending _, hfault => by cases hfault
  | .bound _ value, hfault => by
    simp only [Param.emit, Param.Complete, Emission.fault_andThen_iff] at hfault ⊢
    exact Value.complete_of_emit value hfault.1

theorem Value.allComplete_of_emit : (values : List Value) →
    (Value.emitAll values).fault = none → Value.AllComplete values
  | [], _ => by simp only [Value.AllComplete]
  | value :: rest, hfault => by
    simp only [Value.emitAll, Value.AllComplete, Emission.fault_andThen_iff] at hfault ⊢
    exact ⟨Value.complete_of_emit value hfault.1, Value.allComplete_of_emit rest hfault.2⟩

theorem Param.allComplete_of_emit : (params : List Param) →
    (Param.emitAll params).fault = none → Param.AllComplete params
  | [], _ => by simp only [Param.AllComplete]
  | param :: rest, hfault => by
    simp only [Param.emitAll, Param.AllComplete, Emission.fault_andThen_iff] at hfault ⊢
    exact ⟨Param.complete_of_emit param hfault.1, Param.allComplete_of_emit rest hfault.2⟩

end

theorem complete_of_declLines {annotate : Bool} {decl : Decl Call} {lines : List Line}
    (hlines : declLines annotate decl = .ok lines) : decl.node.Complete := by
  refine decl.node.complete_of_emit ?_
  unfold declLines at hlines
  dsimp only at hlines
  split at hlines
  · cases hlines
  · assumption

theorem forall₂_of_mapM {ε α β : Type} {f : α → Except ε β} {inputs : List α} {outputs : List β}
    (hmap : inputs.mapM f = .ok outputs) :
    List.Forall₂ (fun input output => f input = .ok output) inputs outputs := by
  induction inputs generalizing outputs with
  | nil =>
    cases hmap
    exact .nil
  | cons input inputs ih =>
    rw [List.mapM_cons] at hmap
    cases hinput : f input with
    | error fault =>
      rw [hinput] at hmap
      cases hmap
    | ok output =>
      rw [hinput, ok_bind] at hmap
      cases hinputs : inputs.mapM f with
      | error fault =>
        rw [hinputs] at hmap
        cases hmap
      | ok more =>
        rw [hinputs, ok_bind] at hmap
        cases hmap
        exact .cons hinput (ih hinputs)

/-- The lines of each declaration. -/
abbrev CompiledTo (annotate : Bool) : List (Decl Call) → List (List Line) → Prop :=
  List.Forall₂ fun decl block => declLines annotate decl = .ok block

theorem exists_compiledTo {annotate : Bool} {decls : List (Decl Call)} {text : String}
    (htext : generate annotate decls = .ok text) :
    ∃ blocks, CompiledTo annotate decls blocks ∧ text = render blocks.flatten := by
  rw [generate] at htext
  cases hblocks : decls.mapM (declLines annotate) with
  | error fault =>
    rw [hblocks] at htext
    cases htext
  | ok blocks =>
    rw [hblocks, ok_bind] at htext
    cases htext
    exact ⟨blocks, forall₂_of_mapM hblocks, rfl⟩

namespace CompiledTo

variable {annotate : Bool} {decls : List (Decl Call)} {blocks : List (List Line)}

theorem complete (hblocks : CompiledTo annotate decls blocks) :
    ∀ decl ∈ decls, decl.node.Complete := by
  induction hblocks with
  | nil => simp
  | cons hblock _ ih => exact List.forall_mem_cons.2 ⟨complete_of_declLines hblock, ih⟩

end CompiledTo

/-- Code is generated just for complete declarations. -/
theorem generate_eq_ok_iff (annotate : Bool) (decls : List (Decl Call)) :
    (∃ text, generate annotate decls = .ok text) ↔ ∀ decl ∈ decls, decl.node.Complete := by
  refine ⟨?_, fun hcomplete => ⟨_, generate_of_complete annotate hcomplete⟩⟩
  rintro ⟨text, htext⟩
  obtain ⟨blocks, hblocks, -⟩ := exists_compiledTo htext
  exact hblocks.complete

/-! ## Lines of a text -/

/-- The lines of a text, without the line feeds behind them. -/
def textLines : List Char → List (List Char)
  | [] => []
  | c :: text =>
    if c = '\n' then [] :: textLines text
    else
      match textLines text with
      | [] => [[c]]
      | line :: rest => (c :: line) :: rest

theorem textLines_append {line : List Char} (hline : '\n' ∉ line) (text : List Char) :
    textLines (line ++ '\n' :: text) = line :: textLines text := by
  induction line with
  | nil => simp [textLines]
  | cons c line ih =>
    rw [List.mem_cons, not_or] at hline
    rw [List.cons_append, textLines, if_neg (Ne.symm hline.1), ih hline.2]

theorem textLines_unlines {lines : List (List Char)} (hlines : ∀ line ∈ lines, '\n' ∉ line) :
    textLines (unlines lines) = lines := by
  induction lines with
  | nil => rfl
  | cons line lines ih =>
    rw [List.forall_mem_cons] at hlines
    rw [unlines_cons, textLines_append hlines.1, ih hlines.2]

/-- Whether the line of a text is no comment. -/
def isCode (line : List Char) : Bool := line.head? != some ';'

/-- No line of code but a comment begins like one. -/
theorem isCode_text (line : Line) : isCode line.text.toList = line.isInstruction := by
  have hmnemonic (op : Opcode) (rest : List Char) : isCode (op.mnemonic.toList ++ rest) = true := by
    obtain ⟨first, more, hword, -⟩ := (isWord_mnemonic op).head
    have hfirst := (isWord_mnemonic op).isNameChar first (by simp [hword])
    rw [hword, isCode, List.cons_append, List.head?_cons, bne_iff_ne]
    rintro ⟨⟩
    exact absurd hfirst (by decide)
  cases line with
  | op op =>
    rw [Line.text, ← List.append_nil op.mnemonic.toList]
    exact hmnemonic op []
  | operand op operand =>
    rw [Line.toList_text_operand]
    exact hmnemonic op _
  | comment text => simp [Line.text, isCode, Line.isInstruction]

theorem countP_isCode (lines : List Line) :
    (lines.map (·.text.toList)).countP isCode = instructionCount lines := by
  rw [List.countP_map, instructionCount, ← List.countP_eq_length_filter]
  exact List.countP_congr fun line _ => by rw [Function.comp_apply, isCode_text]

/-! ## Line feeds -/

/-- Nothing in a constant is spelled with a line feed. -/
theorem Payload.noFeed_spelling (payload : Payload) : '\n' ∉ payload.spelling.toList := by
  have hwritten (hwritable : payload.Writable) : '\n' ∉ payload.spelling.toList := by
    obtain ⟨symbols, hstands, -⟩ := payload.exists_symbols hwritable
    exact hstands.noBreak
  cases payload with
  | string | bool | unsigned | signed | color => exact hwritten trivial
  | float value =>
    rcases Nat.lt_or_ge value.rank Binary64.infinityRank with hfinite | hinfinite
    · exact hwritten hfinite
    · -- what is not finite is written as a word
      rw [Payload.spelling, Binary64.text]
      split
      · decide
      · rename_i hnumber
        have hrank : value.rank = Binary64.infinityRank := by
          simp only [Binary64.isNaN, decide_eq_true_eq] at hnumber
          omega
        rw [if_pos hrank, String.toList_ofList]
        split <;> decide
  | timestamp time =>
    rw [Payload.spelling, String.toList_append]
    simp only [List.mem_append, not_or]
    refine ⟨by decide, fun hmem => ?_⟩
    exact absurd (Timestamp.mem_text hmem) (by decide)

theorem noFeed_quoteString (text : String) : '\n' ∉ (quoteString text).toList :=
  (standsFor_string text).noBreak

/-- The name has no line feed. -/
def NoFeed (name : String) : Prop := '\n' ∉ name.toList

instance (name : String) : Decidable (NoFeed name) :=
  inferInstanceAs (Decidable ('\n' ∉ name.toList))

namespace Line

/-- The line of code is one line of text. -/
def IsSingle (line : Line) : Prop := '\n' ∉ line.text.toList

theorem isSingle_op (op : Opcode) : (Line.op op).IsSingle :=
  (isWord_mnemonic op).not_mem (by decide)

theorem isSingle_operand (op : Opcode) {operand : String} (hoperand : NoFeed operand) :
    (Line.operand op operand).IsSingle := by
  rw [IsSingle, toList_text_operand, List.mem_append, List.mem_cons, not_or, not_or]
  exact ⟨(isWord_mnemonic op).not_mem (by decide), by decide, hoperand⟩

theorem isSingle_comment {text : String} (htext : NoFeed text) : (Line.comment text).IsSingle := by
  rw [IsSingle, Line.text, String.toList_append, List.mem_append, not_or]
  exact ⟨by decide, htext⟩

end Line

/-- All lines of the code are lines of text. -/
def Emission.AllSingle (emission : Emission) : Prop := ∀ line ∈ emission.lines, line.IsSingle

theorem Emission.AllSingle.andThen {first second : Emission} (hfirst : first.AllSingle)
    (hsecond : second.AllSingle) : (first.andThen second).AllSingle := by
  unfold Emission.andThen
  split
  · exact hfirst
  · exact List.forall_mem_append.2 ⟨hfirst, hsecond⟩

theorem Emission.allSingle_ofFault (fault : Fault) : (Emission.ofFault fault).AllSingle := by
  simp [Emission.AllSingle, Emission.ofFault]

/-- Lines that are there one by one. -/
theorem Emission.allSingle_ofLines {lines : List Line} (hlines : ∀ line ∈ lines, line.IsSingle) :
    (Emission.ofLines lines).AllSingle := hlines

mutual

theorem Value.allSingle_emit : (value : Value) → value.Everywhere NoFeed (fun _ => True) →
    value.emit.AllSingle
  | .constant constant, _ => by
    simp only [Value.emit]
    exact Emission.allSingle_ofLines (List.forall_mem_singleton.2
      (Line.isSingle_operand .push constant.payload.noFeed_spelling))
  | .call call, hnames => by
    simp only [Value.Everywhere, Value.emit] at hnames ⊢
    exact Call.allSingle_emit call hnames

/-- Where no name has a line feed, the lines of the code are lines of text. -/
theorem Call.allSingle_emit : (call : Call) → call.Everywhere NoFeed (fun _ => True) →
    call.emit.AllSingle
  | .vector name entry args, hnames => by
    simp only [Call.Everywhere, Call.emit] at hnames ⊢
    split
    · refine Emission.allSingle_ofLines (List.forall_mem_singleton.2 (Line.isSingle_comment ?_))
      rw [NoFeed, String.toList_append, List.mem_append, not_or]
      exact ⟨by decide, hnames.1⟩
    · have hone : NoFeed "1" := by decide
      have hclosing : (Emission.ofLines [.op .frm, .op .makeVector, .push "1",
          .operand .invokeR name, .op .pull]).AllSingle := by
        refine Emission.allSingle_ofLines ?_
        simp only [List.forall_mem_cons]
        exact ⟨Line.isSingle_op _, Line.isSingle_op _, Line.isSingle_operand _ hone,
          Line.isSingle_operand _ hnames.1, Line.isSingle_op _, by simp⟩
      have hopening : (Emission.ofLines [.op .esba]).AllSingle :=
        Emission.allSingle_ofLines (List.forall_mem_singleton.2 (Line.isSingle_op _))
      exact (hopening.andThen (Value.allSingle_emitAll args hnames.2)).andThen hclosing
  | .map name entry params, hnames => by
    simp only [Call.Everywhere, Call.emit] at hnames ⊢
    split
    · exact Emission.allSingle_ofFault _
    · have hone : NoFeed "1" := by decide
      refine (Param.allSingle_emitAll params hnames.2).andThen (Emission.allSingle_ofLines ?_)
      simp only [List.forall_mem_cons]
      exact ⟨Line.isSingle_operand _ (lineFeed_not_mem_decimal _), Line.isSingle_op _,
        Line.isSingle_operand _ hone, Line.isSingle_operand _ hnames.1, by simp⟩

theorem Param.allSingle_emit : (param : Param) → param.Everywhere NoFeed (fun _ => True) →
    param.emit.AllSingle
  | .pending _, _ => by
    simp only [Param.emit]
    exact Emission.allSingle_ofFault _
  | .bound key value, hnames => by
    simp only [Param.Everywhere, Param.emit] at hnames ⊢
    refine (Value.allSingle_emit value hnames).andThen (Emission.allSingle_ofLines ?_)
    simp only [List.forall_mem_cons]
    exact ⟨Line.isSingle_operand _ (noFeed_quoteString key), Line.isSingle_op _, by simp⟩

theorem Value.allSingle_emitAll : (values : List Value) →
    Value.AllEverywhere NoFeed (fun _ => True) values → (Value.emitAll values).AllSingle
  | [], _ => by simp [Value.emitAll, Emission.AllSingle]
  | value :: rest, hnames => by
    simp only [Value.AllEverywhere, Value.emitAll] at hnames ⊢
    exact (Value.allSingle_emit value hnames.1).andThen (Value.allSingle_emitAll rest hnames.2)

theorem Param.allSingle_emitAll : (params : List Param) →
    Param.AllEverywhere NoFeed (fun _ => True) params → (Param.emitAll params).AllSingle
  | [], _ => by simp [Param.emitAll, Emission.AllSingle]
  | param :: rest, hnames => by
    simp only [Param.AllEverywhere, Param.emitAll] at hnames ⊢
    exact (Param.allSingle_emit param hnames.1).andThen (Param.allSingle_emitAll rest hnames.2)

end

theorem Call.noFeed_name {call : Call} (hnames : call.Everywhere NoFeed fun _ => True) :
    NoFeed call.name := by
  cases call with
  | vector name entry args =>
    simp only [Call.Everywhere] at hnames
    exact hnames.1
  | map name entry params =>
    simp only [Call.Everywhere] at hnames
    exact hnames.1

/-! ## Declarations -/

/-- No method of the declaration has a line feed in its name, nor has the file that annotated code
names. -/
structure NoFeedIn (annotate : Bool) (decl : Decl Call) : Prop where
  names : decl.node.Everywhere NoFeed fun _ => True
  file : annotate = true → NoFeed decl.position.file

theorem isSingle_of_declLines {annotate : Bool} {decl : Decl Call} {block : List Line}
    (hfeeds : NoFeedIn annotate decl) (hblock : declLines annotate decl = .ok block) :
    ∀ line ∈ block, line.IsSingle := by
  rw [declLines_of_complete annotate (complete_of_declLines hblock)] at hblock
  cases hblock
  refine List.forall_mem_append.2 ⟨?_, decl.node.allSingle_emit hfeeds.names⟩
  cases annotate with
  | false => simp [Line.note]
  | true =>
    refine List.forall_mem_singleton.2 (Line.isSingle_comment ?_)
    rw [NoFeed, String.toList_append, List.mem_append, not_or]
    exact ⟨lineFeed_not_mem_position (hfeeds.file rfl), Call.noFeed_name hfeeds.names⟩

/-- The lines of a declaration are as many instructions as its size says, which is checked. -/
theorem instructionCount_of_declLines {annotate : Bool} {decl : Decl Call} {block : List Line}
    (hblock : declLines annotate decl = .ok block) : instructionCount block = decl.node.size := by
  have hcomplete := complete_of_declLines hblock
  rw [declLines_of_complete annotate hcomplete] at hblock
  cases hblock
  rw [instructionCount_append, (decl.node.emit_of_complete hcomplete).2]
  cases annotate <;> simp [Line.note, instructionCount, Line.isInstruction]

namespace CompiledTo

variable {annotate : Bool} {decls : List (Decl Call)} {blocks : List (List Line)}

theorem counts (hblocks : CompiledTo annotate decls blocks) :
    blocks.map instructionCount = decls.map (·.node.size) := by
  induction hblocks with
  | nil => rfl
  | cons hblock _ ih =>
    rw [List.map_cons, List.map_cons, ih, instructionCount_of_declLines hblock]

theorem isSingle (hblocks : CompiledTo annotate decls blocks)
    (hfeeds : ∀ decl ∈ decls, NoFeedIn annotate decl) :
    ∀ line ∈ blocks.flatten, line.IsSingle := by
  induction hblocks with
  | nil => simp
  | cons hblock _ ih =>
    rw [List.forall_mem_cons] at hfeeds
    rw [List.flatten_cons]
    exact List.forall_mem_append.2 ⟨isSingle_of_declLines hfeeds.1 hblock, ih hfeeds.2⟩

end CompiledTo

theorem instructionCount_flatten (blocks : List (List Line)) :
    instructionCount blocks.flatten = (blocks.map instructionCount).sum := by
  induction blocks with
  | nil => rfl
  | cons block blocks ih =>
    rw [List.flatten_cons, instructionCount_append, ih, List.map_cons, List.sum_cons]

/-- The lines of a text are those of the code between the header and the end of the run. -/
theorem textLines_render {lines : List Line} (hlines : ∀ line ∈ lines, line.IsSingle) :
    textLines (render lines).toList =
      codeHeader.toList :: (lines.map (·.text.toList) ++ [Opcode.halt.mnemonic.toList]) := by
  rw [toList_render, List.map_append, textLines_unlines]
  · rfl
  · refine List.forall_mem_cons.2 ⟨by decide, List.forall_mem_append.2 ⟨?_, ?_⟩⟩
    · exact List.forall_mem_map.2 hlines
    · exact List.forall_mem_singleton.2 (Line.isSingle_op .halt)

/-- Code is generated just for declarations in which every parameter has its value.  It is made of
one block of lines for each declaration, with as many instructions as the size of the declaration
says.  Where no name has a line feed, the lines of the text are the header, the lines of the blocks
and a final halt, so that the lines before the halt that are no comments number the sizes. -/
theorem generate_counts (annotate : Bool) (decls : List (Decl Call)) :
    ((∃ text, generate annotate decls = .ok text) ↔ ∀ decl ∈ decls, decl.node.Complete) ∧
    ∀ text, generate annotate decls = .ok text →
      ∃ blocks, CompiledTo annotate decls blocks ∧ text = render blocks.flatten ∧
        blocks.map instructionCount = decls.map (·.node.size) ∧
        ((∀ decl ∈ decls, NoFeedIn annotate decl) →
          textLines text.toList =
              codeHeader.toList :: ((blocks.map (·.map (·.text.toList))).flatten ++
                [Opcode.halt.mnemonic.toList]) ∧
            (blocks.map (·.map (·.text.toList))).map (List.countP isCode) =
              decls.map (·.node.size) ∧
            (textLines text.toList).dropLast.countP isCode = (decls.map (·.node.size)).sum) := by
  refine ⟨generate_eq_ok_iff annotate decls, fun text htext => ?_⟩
  obtain ⟨blocks, hblocks, rfl⟩ := exists_compiledTo htext
  refine ⟨blocks, hblocks, rfl, hblocks.counts, fun hfeeds => ?_⟩
  have htextLines := textLines_render (hblocks.isSingle hfeeds)
  refine ⟨?_, ?_, ?_⟩
  · rw [htextLines, List.map_flatten]
  · rw [← hblocks.counts, List.map_map]
    exact List.map_congr_left fun block _ => countP_isCode block
  · rw [htextLines, ← List.cons_append, List.dropLast_concat, List.countP_cons_of_neg (by decide),
      countP_isCode, instructionCount_flatten, hblocks.counts]

theorem noFeedIn_sampleLink : ∀ decl ∈ sampleLink, NoFeedIn true decl := by
  have hfile : NoFeed "a.ds" := by decide
  have hparagraph : NoFeed "paragraph" := by decide
  have hlink : NoFeed "link" := by decide
  have hquote : NoFeed "quote" := by decide
  refine List.forall_mem_cons.2 ⟨⟨?_, fun _ => hfile⟩,
    List.forall_mem_singleton.2 ⟨?_, fun _ => hfile⟩⟩
  · simp [Call.Everywhere, Value.AllEverywhere, hparagraph]
  · simp [Call.Everywhere, Param.AllEverywhere, Param.Everywhere, Value.AllEverywhere,
      Value.Everywhere, hlink, hquote]

theorem generate_counts_sampleLink :
    (∀ decl ∈ sampleLink, NoFeedIn true decl) ∧
    ∃ text, generate true sampleLink = .ok text ∧
      (textLines text.toList).dropLast.countP isCode = 17 := by
  obtain ⟨hok, hcounts⟩ := generate_counts true sampleLink
  obtain ⟨text, htext⟩ := hok.2 complete_sampleLink
  obtain ⟨blocks, -, -, -, hlines⟩ := hcounts text htext
  obtain ⟨-, -, hcount⟩ := hlines noFeedIn_sampleLink
  exact ⟨noFeedIn_sampleLink, text, htext, hcount.trans (by decide +kernel)⟩

/-- A name of two lines makes an instruction of two lines. -/
theorem generate_twoLineName :
    (Call.vector "a\nb" none []).Complete ∧ (Call.vector "a\nb" none []).size = 6 ∧
    ∃ text, generate false [⟨.vector "a\nb" none [], ⟨"t", 1⟩⟩] = .ok text ∧
      (textLines text.toList).dropLast.countP isCode = 7 := by
  have hcomplete : (Call.vector "a\nb" none []).Complete := by
    simp only [Call.Complete, Value.AllComplete]
  refine ⟨hcomplete, by decide +kernel, _,
    generate_of_complete false (List.forall_mem_singleton.2 hcomplete), by decide +kernel⟩

end Docpress.Document
