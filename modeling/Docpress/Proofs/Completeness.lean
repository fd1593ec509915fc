import Docpress.Document.Code
import Docpress.Proofs.DocumentMoves

/-!
# Complete trees

A tree is complete when every parameter in it has its value.  Complete trees are what code can
be generated for: the code of a complete tree has no fault and as many instructions as the
tree's size says (`Call.emit_of_complete`), so that `generate` succeeds on complete
declarations (`generate_of_complete`).

The parser declares complete trees only.  The parameters of an open call may still wait for
their values, but the values that are there are complete; `Call.closed` fills the rest.  What
makes trees grow is the same for all such properties (`Growth`): if new calls have a property,
appending keeps it and closing turns it into another one, then all declarations have the latter
(`Parser.Move.draftOf`).
-/

namespace Docpress.Document

/-! ## Definitions -/

mutual

/-- Every parameter in the value has its value. -/
def Value.Complete : Value → Prop
  | .constant _ => True
  | .call call => call.Complete

/-- Every parameter in the call has its value. -/
def Call.Complete : Call → Prop
  | .vector _ _ args => Value.AllComplete args
  | .map _ _ params => Param.AllComplete params

/-- The parameter has its value, and so has every parameter in that. -/
def Param.Complete : Param → Prop
  | .pending _ => False
  | .bound _ value => value.Complete

def Value.AllComplete : List Value → Prop
  | [] => True
  | value :: rest => value.Complete ∧ Value.AllComplete rest

def Param.AllComplete : List Param → Prop
  | [] => True
  | param :: rest => param.Complete ∧ Param.AllComplete rest

end

theorem Value.allComplete_iff {values : List Value} :
    Value.AllComplete values ↔ ∀ value ∈ values, value.Complete := by
  induction values with
  | nil => simp [Value.AllComplete]
  | cons value values ih => simp [Value.AllComplete, ih]

theorem Param.allComplete_iff {params : List Param} :
    Param.AllComplete params ↔ ∀ param ∈ params, param.Complete := by
  induction params with
  | nil => simp [Param.AllComplete]
  | cons param params ih => simp [Param.AllComplete, ih]

/-! ## Code of complete trees -/

@[simp] theorem instructionCount_append (first second : List Line) :
    instructionCount (first ++ second) = instructionCount first + instructionCount second := by
  simp [instructionCount]

/-- The code has no fault and the given number of instructions. -/
def Emission.Counts (emission : Emission) (count : Nat) : Prop :=
  emission.fault = none ∧ instructionCount emission.lines = count

theorem Emission.counts_ofLines (lines : List Line) :
    (Emission.ofLines lines).Counts (instructionCount lines) := ⟨rfl, rfl⟩

theorem Emission.Counts.andThen {first second : Emission} {count more : Nat}
    (hfirst : first.Counts count) (hsecond : second.Counts more) :
    (first.andThen second).Counts (count + more) := by
  obtain ⟨hfault, hcount⟩ := hfirst
  obtain ⟨hfault', hcount'⟩ := hsecond
  simp only [Emission.andThen, hfault]
  exact ⟨hfault', by rw [instructionCount_append, hcount, hcount']⟩

theorem Param.isBound_of_complete {param : Param} (hcomplete : param.Complete) :
    param.isBound = true := by
  cases param with
  | pending key => simp [Param.Complete] at hcomplete
  | bound key value => rfl

theorem Call.isComplete_of_allComplete {params : List Param}
    (hcomplete : Param.AllComplete params) : Call.isComplete params = true := by
  rw [Param.allComplete_iff] at hcomplete
  exact List.all_eq_true.2 fun param hmem => Param.isBound_of_complete (hcomplete param hmem)

mutual

theorem Value.emit_of_complete : (value : Value) → value.Complete → value.emit.Counts value.size
  | .constant _, _ => by
    simp only [Value.emit, Value.size]
    exact Emission.counts_ofLines _
  | .call call, hcomplete => by
    simp only [Value.emit, Value.size, Value.Complete] at hcomplete ⊢
    exact Call.emit_of_complete call hcomplete

/-- The code of a complete call has no fault and as many instructions as the size says. -/
theorem Call.emit_of_complete : (call : Call) → call.Complete → call.emit.Counts call.size
  | .vector name entry args, hcomplete => by
    simp only [Call.Complete] at hcomplete
    simp only [Call.emit, Call.size]
    split
    · exact Emission.counts_ofLines _
    · have hargs := Value.emitAll_of_complete args hcomplete
      have := ((Emission.counts_ofLines [.op .esba]).andThen hargs).andThen
        (Emission.counts_ofLines
          [.op .frm, .op .makeVector, .push "1", .operand .invokeR name, .op .pull])
      rwa [show 6 + Value.totalSize args = 1 + Value.totalSize args + 5 by omega]
  | .map name entry params, hcomplete => by
    simp only [Call.Complete] at hcomplete
    simp only [Call.emit, Call.size, Call.isComplete_of_allComplete hcomplete, Bool.not_true,
      Bool.false_eq_true, if_false]
    have hparams := Param.emitAll_of_complete params hcomplete
    rw [Nat.add_comm]
    exact hparams.andThen (Emission.counts_ofLines _)

theorem Param.emit_of_complete : (param : Param) → param.Complete → param.emit.Counts param.size
  | .pending _, hcomplete => by simp [Param.Complete] at hcomplete
  | .bound key value, hcomplete => by
    simp only [Param.Complete] at hcomplete
    simp only [Param.emit, Param.size]
    rw [Nat.add_comm]
    exact (Value.emit_of_complete value hcomplete).andThen (Emission.counts_ofLines _)

theorem Value.emitAll_of_complete : (values : List Value) → Value.AllComplete values →
    (Value.emitAll values).Counts (Value.totalSize values)
  | [], _ => by
    simp only [Value.emitAll, Value.totalSize]
    exact Emission.counts_ofLines []
  | value :: rest, hcomplete => by
    simp only [Value.AllComplete] at hcomplete
    simp only [Value.emitAll, Value.totalSize]
    exact (Value.emit_of_complete value hcomplete.1).andThen
      (Value.emitAll_of_complete rest hcomplete.2)

theorem Param.emitAll_of_complete : (params : List Param) → Param.AllComplete params →
    (Param.emitAll params).Counts (Param.totalSize params)
  | [], _ => by
    simp only [Param.emitAll, Param.totalSize]
    exact Emission.counts_ofLines []
  | param :: rest, hcomplete => by
    simp only [Param.AllComplete] at hcomplete
    simp only [Param.emitAll, Param.totalSize]
    exact (Param.emit_of_complete param hcomplete.1).andThen
      (Param.emitAll_of_complete rest hcomplete.2)

end

theorem declLines_of_complete (annotate : Bool) {decl : Decl Call}
    (hcomplete : decl.node.Complete) :
    declLines annotate decl =
      .ok (Line.note annotate (decl.position.text ++ " ." ++ decl.node.name) ++
        decl.node.emit.lines) := by
  obtain ⟨hfault, hcount⟩ := Call.emit_of_complete decl.node hcomplete
  simp only [declLines, hfault, hcount, ne_eq, not_true_eq_false, if_false]

theorem mapM_declLines_of_complete (annotate : Bool) {decls : List (Decl Call)}
    (hcomplete : ∀ decl ∈ decls, decl.node.Complete) :
    decls.mapM (declLines annotate) =
      .ok (decls.map fun decl =>
        Line.note annotate (decl.position.text ++ " ." ++ decl.node.name) ++
          decl.node.emit.lines) := by
  induction decls with
  | nil => rfl
  | cons decl decls ih =>
    have hdecl := hcomplete decl (by simp)
    have hdecls := fun decl hmem => hcomplete decl (List.mem_cons_of_mem _ hmem)
    rw [List.mapM_cons, declLines_of_complete annotate hdecl, ok_bind, ih hdecls, ok_bind]
    rfl

/-- Code is generated for complete declarations. -/
theorem generate_of_complete (annotate : Bool) {decls : List (Decl Call)}
    (hcomplete : ∀ decl ∈ decls, decl.node.Complete) :
    generate annotate decls =
      .ok (render (decls.map fun decl =>
        Line.note annotate (decl.position.text ++ " ." ++ decl.node.name) ++
          decl.node.emit.lines).flatten) := by
  rw [generate, mapM_declLines_of_complete annotate hcomplete, ok_bind]
  rfl

/-! ## Open calls -/

/-- The value of the parameter is complete if it is there. -/
def Param.Sound : Param → Prop
  | .pending _ => True
  | .bound _ value => value.Complete

/-- The values in the call are complete as far as they are there. -/
def Call.Sound : Call → Prop
  | .vector _ _ args => ∀ value ∈ args, value.Complete
  | .map _ _ params => ∀ param ∈ params, param.Sound

theorem Call.sound_ofName (name : String) : (Call.ofName name).Sound := by
  unfold Call.ofName Call.start
  split <;> simp [Call.Sound]

theorem Value.complete_asParameter {value : Value} (hcomplete : value.Complete) :
    value.asParameter.Complete := by
  cases value with
  | constant c => simp [Value.asParameter, Value.Complete]
  | call call =>
    cases call with
    | map name entry params => exact hcomplete
    | vector name entry args =>
      simp only [Value.asParameter]
      split
      · simpa only [Value.Complete, Call.Complete] using hcomplete
      · exact hcomplete

theorem Value.complete_coalesceAfter {current : Value} {args : List Value}
    (hcurrent : current.Complete) (hargs : ∀ value ∈ args, value.Complete) :
    ∀ value ∈ Value.coalesceAfter current args, value.Complete := by
  induction args generalizing current with
  | nil => simpa [Value.coalesceAfter] using hcurrent
  | cons arg args ih =>
    have harg := hargs arg (by simp)
    have hrest := fun value hmem => hargs value (List.mem_cons_of_mem _ hmem)
    rw [Value.coalesceAfter]
    split
    · refine ih ?_ hrest
      simp only [Value.join, Value.Complete, Call.Complete, Value.AllComplete]
      exact ⟨hcurrent, harg, trivial⟩
    · intro value hmem
      rcases List.mem_cons.1 hmem with rfl | hmem
      · exact hcurrent
      · exact ih harg hrest value hmem

theorem Value.complete_coalesce {args : List Value} (hargs : ∀ value ∈ args, value.Complete) :
    ∀ value ∈ Value.coalesce args, value.Complete := by
  cases args with
  | nil => simp [Value.coalesce]
  | cons first rest =>
    exact Value.complete_coalesceAfter (hargs first (by simp))
      fun value hmem => hargs value (List.mem_cons_of_mem _ hmem)

/-- Closing a call completes it. -/
theorem Call.complete_closed {call : Call} (hsound : call.Sound) : call.closed.Complete := by
  cases call with
  | vector name entry args =>
    simp only [Call.closed, Call.Complete]
    exact Value.allComplete_iff.2 (Value.complete_coalesce hsound)
  | map name entry params =>
    simp only [Call.closed, Call.Complete]
    rw [Param.allComplete_iff]
    intro param hmem
    obtain ⟨before, hbefore, rfl⟩ := List.mem_map.1 hmem
    cases before with
    | pending key => simp [Param.filled, Param.Complete, Value.Complete]
    | bound key value =>
      simp only [Param.filled, Param.Complete]
      exact hsound _ hbefore

theorem Call.sound_append {call next : Call} {value : Value} (hsound : call.Sound)
    (hvalue : value.Complete) (happend : call.append value = .ok next) : next.Sound := by
  rcases Call.append_cases happend with
    ⟨name, entry, args, rfl, rfl⟩ | ⟨name, entry, params, key, rfl, rfl⟩
  · intro arg hmem
    rcases List.mem_append.1 hmem with hmem | hmem
    · exact hsound arg hmem
    · rwa [List.mem_singleton.1 hmem]
  · intro param hmem
    rcases List.mem_append.1 hmem with hmem | hmem
    · exact hsound param (List.mem_append_left _ hmem)
    · rw [List.mem_singleton.1 hmem]
      exact Value.complete_asParameter hvalue

/-! ## The parser -/

/-- What holds of the declarations and of the open calls of a draft. -/
structure DraftOf (closed opened : Call → Prop) (draft : Draft Call) : Prop where
  decls : ∀ decl ∈ draft.decls, closed decl.node
  stack : ∀ node ∈ draft.stack, opened node.1

namespace DraftOf

variable {closed opened : Call → Prop} {draft : Draft Call} {call : Call} {position : Position}
  {around : List (Call × Position)}

theorem push (hdraft : DraftOf closed opened draft) (hcall : opened call) (position : Position) :
    DraftOf closed opened (draft.push call position) := by
  refine ⟨hdraft.decls, fun node hmem => ?_⟩
  rcases List.mem_cons.1 hmem with rfl | hmem
  · exact hcall
  · exact hdraft.stack node hmem

theorem top (hdraft : DraftOf closed opened draft)
    (hstack : draft.stack = (call, position) :: around) : opened call :=
  hdraft.stack (call, position) (by simp [hstack])

/-- Open calls may be exchanged. -/
theorem exchange (hdraft : DraftOf closed opened draft) (haround : around ⊆ draft.stack)
    (hcall : opened call) :
    DraftOf closed opened { draft with stack := (call, position) :: around } := by
  refine ⟨hdraft.decls, fun node hmem => ?_⟩
  rcases List.mem_cons.1 hmem with rfl | hmem
  · exact hcall
  · exact hdraft.stack node (haround hmem)

theorem declare (hdraft : DraftOf closed opened draft) (hcall : closed call)
    (position : Position) :
    DraftOf closed opened { decls := draft.decls.push ⟨call, position⟩, stack := [] } := by
  refine ⟨fun decl hmem => ?_, fun node hmem => by cases hmem⟩
  rcases Array.mem_push.1 hmem with hmem | rfl
  · exact hdraft.decls decl hmem
  · exact hcall

end DraftOf

/-- How the properties of values, open calls and closed calls follow from each other where a
symbol makes trees grow. -/
structure Growth (symbol : Symbol) (closed opened : Call → Prop) (values : Value → Prop) :
    Prop where
  paragraph : opened (.ofName Document.paragraph)
  quote : opened (.ofName Document.quote)
  directive (hkind : symbol.kind = .directive) : opened (.ofName symbol.text)
  constant : values (.constant (.ofSymbol symbol))
  name {name : String} {entry : Option Entry} {params : List Param}
    (hcall : opened (.map name entry params)) :
    opened (.map name entry (params ++ [.pending symbol.text]))
  append {call next : Call} {value : Value} (hcall : opened call) (hvalue : values value)
    (happend : call.append value = .ok next) : opened next
  close {call : Call} (hcall : opened call) : closed call.closed
  call {call : Call} (hcall : closed call) : values (.call call)

namespace Parser

/-- Every move makes trees grow. -/
theorem Move.draftOf {symbol : Symbol} {closed opened : Call → Prop} {values : Value → Prop}
    (hgrowth : Growth symbol closed opened values) {parser next : Parser} {taken : Bool}
    (hdraft : DraftOf closed opened parser.draft) (hmove : Move symbol parser taken next) :
    DraftOf closed opened next.draft := by
  cases hmove with
  | paragraph => exact hdraft.push hgrowth.paragraph _
  | block _ hkind => exact hdraft.push (hgrowth.directive hkind) _
  | call _ hkind => exact hdraft.push (hgrowth.directive hkind) _
  | quote => exact hdraft.push hgrowth.quote _
  | constant _ _ _ hstack happend =>
    exact hdraft.exchange (by simp [hstack])
      (hgrowth.append (hdraft.top hstack) hgrowth.constant happend)
  | name _ _ hstack => exact hdraft.exchange (by simp [hstack]) (hgrowth.name (hdraft.top hstack))
  | declare _ hstack => exact hdraft.declare (hgrowth.close (hdraft.top hstack)) _
  | @attach _ call parent _ position place below _ hstack happend =>
    have hvalue := hgrowth.call (hgrowth.close (hdraft.top hstack))
    have hparent := hdraft.stack (parent, place) (by simp [hstack])
    exact hdraft.exchange (by rw [hstack]; simp) (hgrowth.append hparent hvalue happend)
  | _ => exact hdraft

end Parser

/-- The declarations of a draft are complete, and its open calls as far as they go. -/
abbrev SoundDraft (draft : Draft Call) : Prop := DraftOf Call.Complete Call.Sound draft

/-- Values are appended to open calls when they are complete. -/
theorem growth_sound (symbol : Symbol) :
    Growth symbol Call.Complete Call.Sound Value.Complete where
  paragraph := Call.sound_ofName _
  quote := Call.sound_ofName _
  directive _ := Call.sound_ofName _
  constant := by simp [Value.Complete]
  name hcall := by
    intro param hmem
    rcases List.mem_append.1 hmem with hmem | hmem
    · exact hcall param hmem
    · rw [List.mem_singleton.1 hmem]
      trivial
  append := Call.sound_append
  close := Call.complete_closed
  call hcall := by simpa only [Value.Complete] using hcall

namespace Parser

/-- Feeding a symbol never fails and keeps the declarations complete. -/
theorem feed_soundDraft (symbol : Symbol) {parser : Parser} (hsteady : Steady parser)
    (hdraft : SoundDraft parser.draft) :
    ∃ next, feed symbol parser = .ok next ∧ Steady next ∧ SoundDraft next.draft :=
  feed_preserves (fun parser => SoundDraft parser.draft) symbol
    (fun hdraft hmove => hmove.draftOf (growth_sound symbol) hdraft) id hsteady hdraft

/-- Nothing is open once the end of the data was taken. -/
theorem stack_of_finished {parser : Parser} (hsteady : Steady parser)
    (hfinished : parser.finished = true) : parser.draft.stack = [] := by
  have hfits := hsteady.fits
  rw [hsteady.finished.1 hfinished] at hfits
  generalize parser.draft.stack = stack at hfits
  cases hfits with
  | done => rfl
  | call hcompletes _ =>
    cases hcompletes with
    | closing _ hcloses => cases hcloses

/-- The end of the document is always reached with nothing open. -/
theorem finish_of_steady {parser : Parser} (hsteady : Steady parser) :
    parser.finish = .ok (parser.draft.decls.toList, parser.diagnostics.toList) := by
  rw [finish]
  split
  · rename_i hdone
    have hfinished : parser.finished = true := by
      cases hparser : parser.finished
      · simp [hparser] at hdone
      · rfl
    have hstack := stack_of_finished hsteady hfinished
    rw [Draft.finish, hstack]
    rfl
  · rfl

end Parser
end Docpress.Document
