import Docpress.Proofs.AssemblyText
import Docpress.Proofs.Completeness

/-!
# What generated code means

`Call.objects` says which objects a call stands for, without a detour through text.  Code that
is generated for complete and writable declarations is assembled into just these objects: the
lines of a tree mean the tree's objects (`Call.emit_means`, by induction over the tree), and a
text of lines is assembled line by line.

A tree is `Writable` if the assembly language has words for all that is in it: names that can be
called, finite numbers, times that can be read, and counts that fit into a word.
-/

namespace Docpress.Document

open Assembly

/-! ## The objects of a tree -/

/-- The constant as an object. -/
def Payload.object : Payload → Object
  | .string text => .string text
  | .bool value => .bool value
  | .unsigned value => .u64 value
  | .signed value => .i64 value
  | .float value => .f64 value
  | .timestamp time => .timestamp time
  | .color c => .color c

/-- The operand that names a function: its number in the table, or else its name. -/
def functionObject (functions : FunctionTable) (name : String) : Object :=
  match functions.lookup? name with
  | some id => .u64 id
  | none => .string name

mutual

/-- The objects that push the value. -/
def Value.objects (functions : FunctionTable) : Value → List Object
  | .constant constant => [.op .push, constant.payload.object]
  | .call call => call.objects functions

/-- The objects of the call. -/
def Call.objects (functions : FunctionTable) : Call → List Object
  | .vector name _ args =>
    if name = "paragraph" ∧ args.isEmpty then []
    else
      [.op .esba] ++ Value.allObjects functions args ++
        [.op .frm, .op .makeVector, .op .push, .u64 1, .op .invokeR,
          functionObject functions name, .op .pull]
  | .map name _ params =>
    Param.allObjects functions params ++
      [.op .push, .u64 (.ofNat params.length), .op .makeParamMap, .op .push, .u64 1,
        .op .invokeR, functionObject functions name]

/-- The objects that bind the parameter. -/
def Param.objects (functions : FunctionTable) : Param → List Object
  | .pending _ => []
  | .bound key value =>
    value.objects functions ++ [.op .push, .string key, .op .makeParam]

/-- The objects that push the values. -/
def Value.allObjects (functions : FunctionTable) : List Value → List Object
  | [] => []
  | value :: rest => value.objects functions ++ Value.allObjects functions rest

/-- The objects that bind the parameters. -/
def Param.allObjects (functions : FunctionTable) : List Param → List Object
  | [] => []
  | param :: rest => param.objects functions ++ Param.allObjects functions rest

end

/-! ## Writable trees -/

/-- The constant can be written down: a number has to be finite, and a time one that can be
read. -/
def Payload.Writable : Payload → Prop
  | .float value => value.rank < Binary64.infinityRank
  | .timestamp time => ∃ text, Timestamp.read? text = some time
  | _ => True

mutual

/-- All that is in the value can be written down. -/
def Value.Writable : Value → Prop
  | .constant constant => constant.payload.Writable
  | .call call => call.Writable

/-- The method can be called by its name, its parameters can be counted, and all that is in the
call can be written down. -/
def Call.Writable : Call → Prop
  | .vector name _ args => IsMethodName name ∧ Value.AllWritable args
  | .map name _ params =>
    IsMethodName name ∧ params.length < UInt64.size ∧ Param.AllWritable params

/-- All that is in the value of the parameter can be written down. -/
def Param.Writable : Param → Prop
  | .pending _ => True
  | .bound _ value => value.Writable

def Value.AllWritable : List Value → Prop
  | [] => True
  | value :: rest => value.Writable ∧ Value.AllWritable rest

def Param.AllWritable : List Param → Prop
  | [] => True
  | param :: rest => param.Writable ∧ Param.AllWritable rest

end

/-! ## Constants -/

/-- The spelling of a writable constant is read as the constant. -/
theorem Payload.exists_symbols (payload : Payload) (hwritable : payload.Writable) :
    ∃ symbols, StandsFor payload.spelling.toList symbols ∧
      Assembly.Parser.IsConstant symbols payload.object := by
  cases payload with
  | string text => exact ⟨_, standsFor_string text, .string text⟩
  | bool value =>
    cases value with
    | true =>
      have hword : IsWord "true".toList := ⟨List.all_eq_true.1 rfl, _, _, rfl, rfl⟩
      have hsymbol : Mode.wordSymbol "true".toList = .symbol ⟨.bool, "true"⟩ := by decide
      have hobject : Object.ofLiteral? .bool "true" = some (.bool true) := by decide
      exact ⟨_, standsFor_word hword hsymbol, .of_literal hobject rfl (by decide) (by decide)⟩
    | false =>
      have hword : IsWord "false".toList := ⟨List.all_eq_true.1 rfl, _, _, rfl, rfl⟩
      have hsymbol : Mode.wordSymbol "false".toList = .symbol ⟨.bool, "false"⟩ := by decide
      have hobject : Object.ofLiteral? .bool "false" = some (.bool false) := by decide
      exact ⟨_, standsFor_word hword hsymbol, .of_literal hobject rfl (by decide) (by decide)⟩
  | unsigned value =>
    have hobject : Object.ofLiteral? .u64 (Text.decimal value.toNat) = some (.u64 value) := by
      simp only [Object.ofLiteral?, Text.readUInt64?_decimal value.toNat_lt, Option.map_some,
        UInt64.ofNat_toNat]
    have hspelling : (Payload.unsigned value).spelling.toList =
        Text.decimalDigits value.toNat ++ ['u', '6', '4'] := by
      simp [Payload.spelling, Text.decimal]
    have hstands := standsFor_unsigned value.toNat
    rw [← hspelling] at hstands
    exact ⟨_, hstands, .of_literal hobject rfl (by decide) (by decide)⟩
  | signed value =>
    have hobject : Object.ofLiteral? .i64 (Text.signedDecimal value.toInt) =
        some (.i64 value) := by
      simp only [Object.ofLiteral?, Text.readInt64?_signedDecimal, Option.map_some]
    have hspelling : (Payload.signed value).spelling.toList =
        (Text.signedDecimal value.toInt).toList ++ ['i', '6', '4'] := by
      simp [Payload.spelling]
    have hstands := standsFor_signed value.toInt
    rw [← hspelling] at hstands
    exact ⟨_, hstands, .of_literal hobject rfl (by decide) (by decide)⟩
  | float value =>
    have hobject : Object.ofLiteral? .f64 value.text = some (.f64 value) := by
      simp only [Object.ofLiteral?, Binary64.read?_text hwritable, Option.map_some]
    exact ⟨_, standsFor_float hwritable, .of_literal hobject rfl (by decide) (by decide)⟩
  | timestamp time =>
    obtain ⟨text, hread⟩ := hwritable
    have hrange := Timestamp.inRange_of_readChars? hread
    have hobject : Object.ofLiteral? .timestamp time.text = some (.timestamp time) := by
      simp only [Object.ofLiteral?, Timestamp.read?, Timestamp.readChars?_text hrange,
        Option.map_some]
    have hspelling : (Payload.timestamp time).spelling.toList = '@' :: time.text.toList := by
      simp [Payload.spelling]
    have hstands := standsFor_timestamp hrange
    rw [← hspelling] at hstands
    exact ⟨_, hstands, .of_literal hobject rfl (by decide) (by decide)⟩
  | color c =>
    have hobject : Object.ofLiteral? .color c.text = some (.color c) := by
      simp only [Object.ofLiteral?, Color.read?, Color.readChars?_text, Option.map_some]
    exact ⟨_, standsFor_color c, .tagged rfl hobject⟩

/-! ## Lines -/

variable {functions : FunctionTable} {limit : Nat}

theorem lineMeans_op (hlimit : 6 ≤ limit) (op : Opcode) (hbare : op.operand = .bare) :
    LineMeans functions limit (Line.op op).text.toList [.op op] :=
  ⟨_, _, standsFor_word (isWord_mnemonic op) (wordSymbol_mnemonic op),
    Parser.declares_operation hlimit hbare, by simp [Statement.IsPlain], rfl⟩

/-- The text of an instruction with an operand. -/
theorem Line.toList_text_operand (op : Opcode) (operand : String) :
    (Line.operand op operand).text.toList = op.mnemonic.toList ++ ' ' :: operand.toList := by
  simp [Line.text]

theorem lineMeans_push (hlimit : 6 ≤ limit) {spelling : String} {symbols : List Symbol}
    {object : Object} (hstands : StandsFor spelling.toList symbols)
    (hconstant : Parser.IsConstant symbols object) :
    LineMeans functions limit (Line.push spelling).text.toList [.op .push, object] := by
  refine ⟨_, _, ?_, Parser.declares_push hlimit hconstant, by simp [Statement.IsPlain], rfl⟩
  rw [Line.push, Line.toList_text_operand]
  exact hstands.behind_word (isWord_mnemonic .push) (wordSymbol_mnemonic .push)

theorem lineMeans_constant (hlimit : 6 ≤ limit) (payload : Payload)
    (hwritable : payload.Writable) :
    LineMeans functions limit (Line.push payload.spelling).text.toList
      [.op .push, payload.object] := by
  obtain ⟨symbols, hstands, hconstant⟩ := payload.exists_symbols hwritable
  exact lineMeans_push hlimit hstands hconstant

/-- Counts are written without their type. -/
theorem lineMeans_count (hlimit : 6 ≤ limit) {n : Nat} (hn : n < UInt64.size) :
    LineMeans functions limit (Line.push (Text.decimal n)).text.toList
      [.op .push, .u64 (.ofNat n)] := by
  have hobject : Object.ofLiteral? .u64 (Text.decimal n) = some (.u64 (.ofNat n)) := by
    simp only [Object.ofLiteral?, Text.readUInt64?_decimal hn, Option.map_some]
  have hstands : StandsFor (Text.decimal n).toList [⟨.number, Text.decimal n⟩] := by
    rw [Text.decimal, String.toList_ofList]
    exact standsFor_natural n
  exact lineMeans_push hlimit hstands (.of_literal hobject rfl (by decide) (by decide))

/-- Every method is called with one operand. -/
theorem lineMeans_one (hlimit : 6 ≤ limit) :
    LineMeans functions limit (Line.push "1").text.toList [.op .push, .u64 1] := by
  have hone : Text.decimal 1 = "1" := by decide
  rw [← hone]
  exact lineMeans_count hlimit (by decide)

theorem lineMeans_invoke (hlimit : 6 ≤ limit) {name : String} (hname : IsMethodName name) :
    LineMeans functions limit (Line.operand .invokeR name).text.toList
      [.op .invokeR, functionObject functions name] := by
  obtain ⟨kind, hkind, hsymbol⟩ := hname.wordSymbol
  have hnotEmpty : name ≠ "" := by
    rintro rfl
    exact hname.isWord.ne_nil rfl
  have hdeclares : Parser.Declares functions limit
      [⟨.instruction, Opcode.invokeR.mnemonic⟩, ⟨kind, name⟩]
      [.invoke .invokeR name (functions.lookup? name)] :=
    Parser.declares_invoke hlimit rfl hkind hnotEmpty
  refine ⟨_, _, ?_, hdeclares, by simp [Statement.IsPlain], rfl⟩
  rw [Line.toList_text_operand]
  exact (standsFor_word hname.isWord hsymbol).behind_word (isWord_mnemonic .invokeR)
    (wordSymbol_mnemonic .invokeR)

/-- A comment has to end in a name, so that no carriage return gets lost. -/
theorem standsFor_note {before name : String} (hbreak : '\n' ∉ before.toList)
    (hname : IsWord name.toList) :
    StandsFor (Line.comment (before ++ name)).text.toList [] := by
  have htext : (Line.comment (before ++ name)).text.toList =
      ';' :: (' ' :: before.toList ++ name.toList) := by simp [Line.text]
  have hchars (c : Char) (hmem : c ∈ name.toList) : c ≠ '\n' ∧ c ≠ '\r' := by
    have hrange := isNameChar_range (hname.isNameChar c hmem)
    constructor <;> rintro rfl <;> revert hrange <;> decide
  rw [htext]
  refine standsFor_comment ?_ ?_
  · intro hmem
    rcases List.mem_append.1 hmem with hmem | hmem
    · exact hbreak (by simpa using hmem)
    · exact (hchars _ hmem).1 rfl
  · rw [List.getLast?_append_of_ne_nil _ hname.ne_nil]
    intro hlast
    exact (hchars _ (List.mem_of_getLast? hlast)).2 rfl

/-- A comment means nothing. -/
theorem lineMeans_comment (hlimit : 6 ≤ limit) {before name : String}
    (hbreak : '\n' ∉ before.toList) (hname : IsMethodName name) :
    LineMeans functions limit (Line.comment (before ++ name)).text.toList [] :=
  ⟨[], [], standsFor_note hbreak hname.isWord, Parser.declares_nothing hlimit, by simp, rfl⟩

/-! ## Code -/

/-- The code has no fault and means the objects. -/
def Emission.Means (functions : FunctionTable) (limit : Nat) (emission : Emission)
    (objects : List Object) : Prop :=
  emission.fault = none ∧
    Assembly.Means functions limit (emission.lines.map (·.text.toList)) objects

theorem Emission.Means.andThen {first second : Emission} {objects more : List Object}
    (hfirst : first.Means functions limit objects) (hsecond : second.Means functions limit more) :
    (first.andThen second).Means functions limit (objects ++ more) := by
  obtain ⟨hfault, hlines⟩ := hfirst
  obtain ⟨hfault', hlines'⟩ := hsecond
  simp only [Emission.andThen, hfault]
  refine ⟨hfault', ?_⟩
  rw [List.map_append]
  exact hlines.append hlines'

mutual

theorem Value.emit_means (hlimit : 6 ≤ limit) : (value : Value) → value.Complete →
    value.Writable → value.emit.Means functions limit (value.objects functions)
  | .constant constant, _, hwritable => by
    simp only [Value.Writable] at hwritable
    simp only [Value.emit, Value.objects]
    exact ⟨rfl, .single (lineMeans_constant hlimit constant.payload hwritable)⟩
  | .call call, hcomplete, hwritable => by
    simp only [Value.Complete, Value.Writable] at hcomplete hwritable
    simp only [Value.emit, Value.objects]
    exact Call.emit_means hlimit call hcomplete hwritable

/-- The code of a complete and writable call means the objects of the call. -/
theorem Call.emit_means (hlimit : 6 ≤ limit) : (call : Call) → call.Complete →
    call.Writable → call.emit.Means functions limit (call.objects functions)
  | .vector name entry args, hcomplete, hwritable => by
    simp only [Call.Complete, Call.Writable] at hcomplete hwritable
    obtain ⟨hname, hargs⟩ := hwritable
    have hempty : Call.isVacuous name args = true ↔ name = "paragraph" ∧ args.isEmpty = true := by
      rw [Call.isVacuous, Bool.and_eq_true, decide_eq_true_iff]
      rfl
    simp only [Call.emit, Call.objects, hempty]
    split
    · exact ⟨rfl, .single (lineMeans_comment hlimit (by decide) hname)⟩
    · have hcode := Value.emitAll_means hlimit args hcomplete hargs
      have hframe : (Emission.ofLines [.op .esba]).Means functions limit [.op .esba] :=
        ⟨rfl, .single (lineMeans_op hlimit .esba rfl)⟩
      have hinvoke : Means functions limit _ _ := .cons (lineMeans_op hlimit .frm rfl)
        (.cons (lineMeans_op hlimit .makeVector rfl) (.cons (lineMeans_one hlimit)
          (.cons (lineMeans_invoke hlimit hname) (.single (lineMeans_op hlimit .pull rfl)))))
      exact (hframe.andThen hcode).andThen ⟨rfl, hinvoke⟩
  | .map name entry params, hcomplete, hwritable => by
    simp only [Call.Complete, Call.Writable] at hcomplete hwritable
    obtain ⟨hname, hcount, hparams⟩ := hwritable
    simp only [Call.emit, Call.objects, Call.isComplete_of_allComplete hcomplete, Bool.not_true,
      Bool.false_eq_true, if_false]
    have hinvoke : Means functions limit _ _ := .cons (lineMeans_count hlimit hcount)
      (.cons (lineMeans_op hlimit .makeParamMap rfl) (.cons (lineMeans_one hlimit)
        (.single (lineMeans_invoke hlimit hname))))
    exact (Param.emitAll_means hlimit params hcomplete hparams).andThen ⟨rfl, hinvoke⟩

theorem Param.emit_means (hlimit : 6 ≤ limit) : (param : Param) → param.Complete →
    param.Writable → param.emit.Means functions limit (param.objects functions)
  | .pending _, hcomplete, _ => by simp [Param.Complete] at hcomplete
  | .bound key value, hcomplete, hwritable => by
    simp only [Param.Complete, Param.Writable] at hcomplete hwritable
    simp only [Param.emit, Param.objects]
    have hbind : Means functions limit _ _ := .cons (lineMeans_constant hlimit (.string key) trivial)
      (.single (lineMeans_op hlimit .makeParam rfl))
    exact (Value.emit_means hlimit value hcomplete hwritable).andThen ⟨rfl, hbind⟩

theorem Value.emitAll_means (hlimit : 6 ≤ limit) : (values : List Value) →
    Value.AllComplete values → Value.AllWritable values →
    (Value.emitAll values).Means functions limit (Value.allObjects functions values)
  | [], _, _ => by
    simp only [Value.emitAll, Value.allObjects]
    exact ⟨rfl, .nil⟩
  | value :: rest, hcomplete, hwritable => by
    simp only [Value.AllComplete, Value.AllWritable] at hcomplete hwritable
    simp only [Value.emitAll, Value.allObjects]
    exact (Value.emit_means hlimit value hcomplete.1 hwritable.1).andThen
      (Value.emitAll_means hlimit rest hcomplete.2 hwritable.2)

theorem Param.emitAll_means (hlimit : 6 ≤ limit) : (params : List Param) →
    Param.AllComplete params → Param.AllWritable params →
    (Param.emitAll params).Means functions limit (Param.allObjects functions params)
  | [], _, _ => by
    simp only [Param.emitAll, Param.allObjects]
    exact ⟨rfl, .nil⟩
  | param :: rest, hcomplete, hwritable => by
    simp only [Param.AllComplete, Param.AllWritable] at hcomplete hwritable
    simp only [Param.emitAll, Param.allObjects]
    exact (Param.emit_means hlimit param hcomplete.1 hwritable.1).andThen
      (Param.emitAll_means hlimit rest hcomplete.2 hwritable.2)

end

/-! ## Documents -/

theorem Call.isMethodName_of_writable {call : Call} (hwritable : call.Writable) :
    IsMethodName call.name := by
  cases call with
  | vector name entry args =>
    simp only [Call.Writable] at hwritable
    exact hwritable.1
  | map name entry params =>
    simp only [Call.Writable] at hwritable
    exact hwritable.1

theorem lineFeed_not_mem_decimal (n : Nat) : '\n' ∉ (Text.decimal n).toList := by
  rw [Text.decimal, String.toList_ofList]
  intro hmem
  exact absurd (Text.isDigit_of_mem_decimalDigits hmem) (by decide)

theorem lineFeed_not_mem_position {position : Position} (hfile : '\n' ∉ position.file.toList) :
    '\n' ∉ (position.text ++ " .").toList := by
  have hline := lineFeed_not_mem_decimal position.line
  simp [Position.text, hfile, hline]

/-- The lines of a declaration mean its objects, annotated or not. -/
theorem means_decl (hlimit : 6 ≤ limit) {annotate : Bool} {decl : Decl Call}
    (hcomplete : decl.node.Complete) (hwritable : decl.node.Writable)
    (hfile : annotate = true → '\n' ∉ decl.position.file.toList) :
    Means functions limit
      ((Line.note annotate (decl.position.text ++ " ." ++ decl.node.name) ++
        decl.node.emit.lines).map (·.text.toList))
      (decl.node.objects functions) := by
  have hcode : Means functions limit (decl.node.emit.lines.map (·.text.toList)) _ :=
    (Call.emit_means hlimit decl.node hcomplete hwritable).2
  cases annotate with
  | false => exact hcode
  | true =>
    have hname := Call.isMethodName_of_writable hwritable
    exact .cons (lineMeans_comment hlimit (lineFeed_not_mem_position (hfile rfl)) hname) hcode

theorem means_decls (hlimit : 6 ≤ limit) {annotate : Bool} {decls : List (Decl Call)}
    (hcomplete : ∀ decl ∈ decls, decl.node.Complete)
    (hwritable : ∀ decl ∈ decls, decl.node.Writable)
    (hfiles : annotate = true → ∀ decl ∈ decls, '\n' ∉ decl.position.file.toList) :
    Means functions limit
      ((decls.map fun decl =>
        Line.note annotate (decl.position.text ++ " ." ++ decl.node.name) ++
          decl.node.emit.lines).flatten.map (·.text.toList))
      (decls.flatMap (·.node.objects functions)) := by
  induction decls with
  | nil => exact .nil
  | cons decl decls ih =>
    rw [List.forall_mem_cons] at hcomplete hwritable
    have hfile : annotate = true → '\n' ∉ decl.position.file.toList := fun h =>
      hfiles h decl (by simp)
    have hrest := ih hcomplete.2 hwritable.2 fun h decl hmem =>
      hfiles h decl (List.mem_cons_of_mem _ hmem)
    rw [List.map_cons, List.flatten_cons, List.map_append, List.flatMap_cons]
    exact (means_decl hlimit hcomplete.1 hwritable.1 hfile).append hrest

theorem toList_render (lines : List Line) :
    (render lines).toList =
      unlines (codeHeader.toList :: (lines ++ [Line.op .halt]).map (·.text.toList)) := by
  rw [render, String.toList_join, unlines]
  simp [List.flatMap_map, List.map_map, Function.comp_def]

theorem standsFor_codeHeader : StandsFor codeHeader.toList [] := by
  have htext : codeHeader.toList = ';' :: " docc 0.1.0".toList := by decide
  rw [htext]
  exact standsFor_comment (by decide) (by decide)

/-- Generated code means the declarations that it is generated for: it is assembled, without a
diagnostic and without labels, into their objects and a final halt. -/
theorem assemble_generate {annotate : Bool} {decls : List (Decl Call)}
    (hcomplete : ∀ decl ∈ decls, decl.node.Complete)
    (hwritable : ∀ decl ∈ decls, decl.node.Writable)
    (hfiles : annotate = true → ∀ decl ∈ decls, '\n' ∉ decl.position.file.toList)
    {retryLimit : Nat} (hlimit : 6 ≤ retryLimit) (functions : FunctionTable) (file : String) :
    ∃ text program, generate annotate decls = .ok text ∧
      assemble file text retryLimit functions = .ok program ∧ program.diagnostics = [] ∧
      program.labels = {} ∧
      program.objects = decls.flatMap (·.node.objects functions) ++ [.op .halt] := by
  have hmeans : Means functions retryLimit _ _ :=
    (means_decls hlimit hcomplete hwritable hfiles).append
      (.single (lineMeans_op hlimit .halt rfl))
  have htext := toList_render (decls.map fun decl =>
    Line.note annotate (decl.position.text ++ " ." ++ decl.node.name) ++
      decl.node.emit.lines).flatten
  rw [List.map_append] at htext
  obtain ⟨program, hassemble, hdiagnostics, hlabels, hobjects⟩ :=
    assemble_of_means hlimit standsFor_codeHeader hmeans htext file
  exact ⟨_, program, generate_of_complete annotate hcomplete, hassemble, hdiagnostics, hlabels,
    hobjects⟩

/-- An empty paragraph, and a link with a quoted title and a time. -/
def sampleLink : List (Decl Call) :=
  [⟨.vector "paragraph" none [], ⟨"a.ds", 1⟩⟩,
    ⟨.map "link" none
      [.bound "title" (.call (.vector "quote" none
          [.constant ⟨"", .string "a \\\"b\"\n"⟩, .constant ⟨"", .float ⟨0x7FEFFFFFFFFFFFFF⟩⟩])),
        .bound "seen" (.constant ⟨"", .timestamp ⟨2024, 2, 29, 23, 59, 59, 5⟩⟩)],
      ⟨"a.ds", 3⟩⟩]

theorem complete_sampleLink : ∀ decl ∈ sampleLink, decl.node.Complete := by
  simp [sampleLink, Call.Complete, Param.AllComplete, Param.Complete, Value.AllComplete,
    Value.Complete]

theorem writable_sampleLink : ∀ decl ∈ sampleLink, decl.node.Writable := by
  have hname {name : String} (hchars : name.toList.all isNameChar = true)
      (hhead : ∃ first rest, name.toList = first :: rest ∧ first.isLower = true)
      (htrue : name ≠ "true") (hfalse : name ≠ "false") : IsMethodName name :=
    ⟨List.all_eq_true.1 hchars, hhead, htrue, hfalse⟩
  have hfinite : (Payload.float ⟨0x7FEFFFFFFFFFFFFF⟩).Writable := by
    show Binary64.rank _ < Binary64.infinityRank
    decide
  have htime : (Payload.timestamp ⟨2024, 2, 29, 23, 59, 59, 5⟩).Writable :=
    ⟨"2024-02-29T23:59:59.000000005Z", by decide⟩
  have hparagraph : IsMethodName "paragraph" := hname rfl ⟨_, _, rfl, rfl⟩ (by decide) (by decide)
  have hlink : IsMethodName "link" := hname rfl ⟨_, _, rfl, rfl⟩ (by decide) (by decide)
  have hquote : IsMethodName "quote" := hname rfl ⟨_, _, rfl, rfl⟩ (by decide) (by decide)
  simp only [sampleLink, List.forall_mem_cons, List.not_mem_nil, false_imp_iff, implies_true,
    and_true, Call.Writable, Param.AllWritable, Param.Writable, Value.AllWritable, Value.Writable]
  exact ⟨hparagraph, hlink, by decide, ⟨hquote, trivial, hfinite⟩, htime⟩

theorem assemble_sampleLink :
    (∀ decl ∈ sampleLink, decl.node.Complete) ∧ (∀ decl ∈ sampleLink, decl.node.Writable) ∧
    (∀ decl ∈ sampleLink, '\n' ∉ decl.position.file.toList) ∧
    ∃ text program, generate true sampleLink = .ok text ∧
      assemble "a.dasm" text 6 (({} : FunctionTable).insert "link" 7) = .ok program ∧
      program.diagnostics = [] ∧ program.labels = {} ∧
      program.objects =
        [.op .esba, .op .push, .string "a \\\"b\"\n", .op .push, .f64 ⟨0x7FEFFFFFFFFFFFFF⟩,
          .op .frm, .op .makeVector, .op .push, .u64 1, .op .invokeR, .string "quote", .op .pull,
          .op .push, .string "title", .op .makeParam,
          .op .push, .timestamp ⟨2024, 2, 29, 23, 59, 59, 5⟩,
          .op .push, .string "seen", .op .makeParam,
          .op .push, .u64 2, .op .makeParamMap, .op .push, .u64 1, .op .invokeR, .u64 7,
          .op .halt] := by
  have hfiles : ∀ decl ∈ sampleLink, '\n' ∉ decl.position.file.toList := by decide
  exact ⟨complete_sampleLink, writable_sampleLink, hfiles,
    assemble_generate complete_sampleLink writable_sampleLink (fun _ => hfiles) (by decide) _ _⟩

end Docpress.Document
