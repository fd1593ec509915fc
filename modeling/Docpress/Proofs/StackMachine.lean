import Docpress.Proofs.Contents
import Mathlib.Data.List.Induction

/-!
# Running generated code

The calling convention, as a machine with a stack.  `push` puts a constant on the stack, `esba`
opens a frame, `frm` counts what is in the innermost frame, `make_vector`, `make_param` and
`make_param_map` build arguments, `invoke_r` calls a method on them, and `pull` closes the frame
around a result.  What does not fit a line of code stops the machine.

The code of a call pushes one term, which is the call itself (`Call.emit_runs`).  `Runs` carries
the induction over the tree.  It describes the part of the stack that code works on and leaves
open what is beneath, so that the arguments of a call can be run behind what the call has already
pushed.
-/

namespace Docpress.Document

/-! ## Terms -/

/-- What a machine builds. -/
inductive Term where
  /-- a constant as it is spelled -/
  | constant (spelling : String)
  | vector (items : List Term)
  | param (key : String) (value : Term)
  | map (params : List Term)
  | call (name : String) (argument : Term)

namespace Term

/-- Numbers are constants. -/
def number (n : Nat) : Term := constant (Text.decimal n)

/-- The number that a term stands for. -/
def number? : Term → Option Nat
  | constant spelling => Text.readDigits? spelling.toList
  | _ => none

/-- Whether a method can be called on the term. -/
def isAggregate : Term → Bool
  | vector _ => true
  | map _ => true
  | _ => false

def isParam : Term → Bool
  | param _ _ => true
  | _ => false

@[simp] theorem number?_number (n : Nat) : (number n).number? = some n := by
  rw [number, number?, Text.decimal, String.toList_ofList, Text.readDigits?_decimalDigits]

end Term

/-! ## The machine -/

/-- A place of the stack. -/
inductive Slot where
  /-- the beginning of a frame -/
  | marker
  | term (term : Term)

/-- The terms above the innermost marker, in the order in which they were pushed, and what is
beneath the marker. -/
def frame? : List Slot → Option (List Term × List Slot)
  | [] => none
  | .marker :: stack => some ([], stack)
  | .term top :: stack => (frame? stack).map fun (terms, rest) => (terms ++ [top], rest)

/-- Takes terms off the stack, in the order in which they were pushed. -/
def popTerms? : Nat → List Slot → Option (List Term × List Slot)
  | 0, stack => some ([], stack)
  | count + 1, .term top :: stack =>
    (popTerms? count stack).map fun (terms, rest) => (terms ++ [top], rest)
  | _ + 1, _ => none

/-- Runs a line, unless the stack is not as the line needs it. -/
def Line.run (line : Line) (stack : List Slot) : Option (List Slot) :=
  match line, stack with
  | .comment _, stack => some stack
  | .operand .push spelling, stack => some (.term (.constant spelling) :: stack)
  | .op .esba, stack => some (.marker :: stack)
  | .op .frm, stack => do
    let (terms, _) ← frame? stack
    return .term (.number terms.length) :: stack
  | .op .makeVector, .term count :: stack => do
    let (items, rest) ← popTerms? (← count.number?) stack
    return .term (.vector items) :: rest
  | .op .makeParam, .term (.constant key) :: .term value :: stack =>
    some (.term (.param key value) :: stack)
  | .op .makeParamMap, .term count :: stack => do
    let (params, rest) ← popTerms? (← count.number?) stack
    if params.all Term.isParam then return .term (.map params) :: rest else none
  | .operand .invokeR name, .term arity :: .term argument :: stack =>
    if arity.number? = some 1 ∧ argument.isAggregate then
      some (.term (.call name argument) :: stack)
    else none
  | .op .pull, .term result :: stack => do
    let (_, rest) ← frame? stack
    return .term result :: rest
  | _, _ => none

/-- Runs lines one after the other. -/
def runLines (lines : List Line) (stack : List Slot) : Option (List Slot) :=
  lines.foldlM (fun stack line => line.run stack) stack

/-! ## The term of a tree -/

mutual

/-- The term that a value stands for. -/
def Value.term : Value → Term
  | .constant constant => .constant constant.payload.spelling
  | .call call => call.term

/-- The term of a call: the method and its arguments. -/
def Call.term : Call → Term
  | .vector name _ args => .call name (.vector (Value.terms args))
  | .map name _ params => .call name (.map (Param.terms params))

/-- The term of a parameter.  Without a value there is only the key. -/
def Param.term : Param → Term
  | .pending key => .constant (quoteString key)
  | .bound key value => .param (quoteString key) value.term

def Value.terms : List Value → List Term
  | [] => []
  | value :: rest => value.term :: Value.terms rest

def Param.terms : List Param → List Term
  | [] => []
  | param :: rest => param.term :: Param.terms rest

end

/-- Whether the call is a paragraph with nothing in it. -/
def Call.isEmptyParagraph : Call → Bool
  | .vector name _ args => Call.isVacuous name args
  | .map _ _ _ => false

mutual

/-- Nothing inside the value is an empty paragraph, nor is the value itself. -/
def Value.Solid : Value → Prop
  | .constant _ => True
  | .call call => call.isEmptyParagraph = false ∧ call.Solid

/-- No argument and no value of a parameter in the call is an empty paragraph. -/
def Call.Solid : Call → Prop
  | .vector _ _ args => Value.AllSolid args
  | .map _ _ params => Param.AllSolid params

def Param.Solid : Param → Prop
  | .pending _ => True
  | .bound _ value => value.Solid

def Value.AllSolid : List Value → Prop
  | [] => True
  | value :: rest => value.Solid ∧ Value.AllSolid rest

def Param.AllSolid : List Param → Prop
  | [] => True
  | param :: rest => param.Solid ∧ Param.AllSolid rest

end

/-! ## Runs -/

/-- The lines turn `before`, on top of any stack, into `after`.  They never look further down. -/
inductive Runs : List Line → List Slot → List Slot → Prop where
  | nil (slots : List Slot) : Runs [] slots slots
  | cons {line : Line} {lines : List Line} {before between after : List Slot}
      (hline : ∀ stack, line.run (before ++ stack) = some (between ++ stack))
      (hlines : Runs lines between after) : Runs (line :: lines) before after

namespace Runs

variable {lines more : List Line} {before between after : List Slot}

theorem append (hlines : Runs lines before between) (hmore : Runs more between after) :
    Runs (lines ++ more) before after := by
  induction hlines with
  | nil => exact hmore
  | cons hline _ ih => exact .cons hline (ih hmore)

/-- What lies beneath stays there. -/
theorem beneath (hruns : Runs lines before after) (slots : List Slot) :
    Runs lines (before ++ slots) (after ++ slots) := by
  induction hruns with
  | nil => exact .nil _
  | cons hline _ ih =>
    refine .cons (fun stack => ?_) ih
    rw [List.append_assoc, List.append_assoc]
    exact hline _

theorem runLines (hruns : Runs lines before after) (stack : List Slot) :
    runLines lines (before ++ stack) = some (after ++ stack) := by
  induction hruns with
  | nil => rfl
  | cons hline _ ih =>
    rw [Document.runLines, List.foldlM_cons, hline]
    exact ih

/-- After any number of lines the stack lies beneath, as it was. -/
theorem exists_of_prefix (hruns : Runs lines before after) {first : List Line}
    (hfirst : first <+: lines) :
    ∃ above, ∀ stack, Document.runLines first (before ++ stack) = some (above ++ stack) := by
  induction hruns generalizing first with
  | nil =>
    obtain rfl := List.prefix_nil.1 hfirst
    exact ⟨_, fun _ => rfl⟩
  | @cons line lines before between after hline _ ih =>
    cases first with
    | nil => exact ⟨before, fun _ => rfl⟩
    | cons other first =>
      obtain ⟨rfl, hrest⟩ := List.cons_prefix_cons.1 hfirst
      obtain ⟨above, habove⟩ := ih hrest
      refine ⟨above, fun stack => ?_⟩
      rw [Document.runLines, List.foldlM_cons, hline]
      exact habove stack

end Runs

/-! ## Lines -/

/-- The stack after the terms were pushed one after the other. -/
def pushed (terms : List Term) : List Slot :=
  (terms.map .term).reverse

@[simp] theorem pushed_nil : pushed [] = [] := rfl

@[simp] theorem pushed_cons (term : Term) (terms : List Term) :
    pushed (term :: terms) = pushed terms ++ [.term term] := by
  simp [pushed]

@[simp] theorem pushed_concat (terms : List Term) (term : Term) :
    pushed (terms ++ [term]) = .term term :: pushed terms := by
  simp [pushed]

theorem frame?_pushed (terms : List Term) (stack : List Slot) :
    frame? (pushed terms ++ .marker :: stack) = some (terms, stack) := by
  induction terms using List.reverseRecOn with
  | nil => rfl
  | append_singleton terms last ih =>
    rw [pushed_concat, List.cons_append, frame?, ih]
    rfl

theorem popTerms?_pushed (terms : List Term) (stack : List Slot) :
    popTerms? terms.length (pushed terms ++ stack) = some (terms, stack) := by
  induction terms using List.reverseRecOn with
  | nil => rfl
  | append_singleton terms last ih =>
    rw [pushed_concat, List.length_append, List.cons_append]
    show (popTerms? terms.length (pushed terms ++ stack)).map _ = _
    rw [ih]
    rfl

theorem number?_one : (Term.constant "1").number? = some 1 := by decide

/-- A comment leaves the stack as it is. -/
theorem runs_comment (text : String) : Runs [.comment text] [] [] :=
  .cons (fun _ => rfl) (.nil _)

theorem runs_push (spelling : String) (slots : List Slot) :
    Runs [.push spelling] slots (.term (.constant spelling) :: slots) :=
  .cons (fun _ => rfl) (.nil _)

/-- A method is called on the one aggregate that was pushed. -/
theorem runs_invoke (name : String) {argument : Term} (hargument : argument.isAggregate = true)
    (slots : List Slot) :
    Runs [.push "1", .operand .invokeR name] (.term argument :: slots)
      (.term (.call name argument) :: slots) := by
  have hinvoke (stack : List Slot) : Line.run (.operand .invokeR name)
      (.term (.constant "1") :: .term argument :: slots ++ stack) =
        some (.term (.call name argument) :: slots ++ stack) := by
    simp only [Line.run, List.cons_append]
    exact if_pos ⟨number?_one, hargument⟩
  exact (runs_push _ _).append (.cons hinvoke (.nil _))

theorem runs_esba : Runs [.op .esba] [] [.marker] :=
  .cons (fun _ => rfl) (.nil _)

/-- The lines behind the arguments of a call close the frame and leave the call. -/
theorem runs_vectorCall (name : String) (items : List Term) :
    Runs [.op .frm, .op .makeVector, .push "1", .operand .invokeR name, .op .pull]
      (pushed items ++ [.marker]) [.term (.call name (.vector items))] := by
  have hframe (stack : List Slot) :
      frame? (pushed items ++ [.marker] ++ stack) = some (items, stack) := by
    rw [List.append_assoc]
    exact frame?_pushed items stack
  have hcount : ∀ stack, Line.run (.op .frm) (pushed items ++ [.marker] ++ stack) =
      some (.term (.number items.length) :: (pushed items ++ [.marker]) ++ stack) := by
    intro stack
    show (frame? (pushed items ++ [.marker] ++ stack) >>= _) = _
    rw [hframe]
    rfl
  have hvector : ∀ stack, Line.run (.op .makeVector)
      (.term (.number items.length) :: (pushed items ++ [.marker]) ++ stack) =
        some ([.term (.vector items), .marker] ++ stack) := by
    intro stack
    show ((Term.number items.length).number? >>= fun n =>
      popTerms? n (pushed items ++ [.marker] ++ stack) >>= _) = _
    rw [Term.number?_number, List.append_assoc]
    show (popTerms? items.length (pushed items ++ _) >>= _) = _
    rw [popTerms?_pushed]
    rfl
  have hpull : Runs [.op .pull] [.term (.call name (.vector items)), .marker]
      [.term (.call name (.vector items))] :=
    .cons (fun _ => rfl) (.nil _)
  exact .cons hcount (.cons hvector ((runs_invoke name rfl [.marker]).append hpull))

/-- The lines behind the parameters of a call leave the call. -/
theorem runs_mapCall (name : String) {params : List Term}
    (hparams : ∀ param ∈ params, param.isParam = true) :
    Runs [.push (Text.decimal params.length), .op .makeParamMap, .push "1",
        .operand .invokeR name]
      (pushed params) [.term (.call name (.map params))] := by
  have hmap : ∀ stack, Line.run (.op .makeParamMap)
      (.term (.number params.length) :: pushed params ++ stack) =
        some ([.term (.map params)] ++ stack) := by
    intro stack
    show ((Term.number params.length).number? >>= fun n =>
      popTerms? n (pushed params ++ stack) >>= _) = _
    rw [Term.number?_number]
    show (popTerms? params.length (pushed params ++ stack) >>= _) = _
    rw [popTerms?_pushed]
    exact if_pos (List.all_eq_true.2 hparams)
  exact (runs_push _ _).append (.cons hmap (runs_invoke name rfl []))

theorem runs_param (key : String) (value : Term) :
    Runs [.push (quoteString key), .op .makeParam] [.term value]
      [.term (.param (quoteString key) value)] := by
  have hparam (stack : List Slot) : Line.run (.op .makeParam)
      ([Slot.term (.constant (quoteString key)), .term value] ++ stack) =
        some ([Slot.term (.param (quoteString key) value)] ++ stack) := rfl
  exact (runs_push _ _).append (.cons hparam (.nil _))

/-! ## Code -/

/-- The code has no fault and turns the one top of the stack into the other. -/
def Emission.Runs (emission : Emission) (before after : List Slot) : Prop :=
  emission.fault = none ∧ Document.Runs emission.lines before after

theorem Emission.runs_ofLines {lines : List Line} {before after : List Slot}
    (hruns : Document.Runs lines before after) : (Emission.ofLines lines).Runs before after :=
  ⟨rfl, hruns⟩

theorem Emission.Runs.andThen {first second : Emission} {before between after : List Slot}
    (hfirst : first.Runs before between) (hsecond : second.Runs between after) :
    (first.andThen second).Runs before after := by
  obtain ⟨hfault, hlines⟩ := hfirst
  obtain ⟨hfault', hlines'⟩ := hsecond
  simp only [Emission.andThen, hfault]
  exact ⟨hfault', hlines.append hlines'⟩

theorem Emission.Runs.beneath {emission : Emission} {before after : List Slot}
    (hruns : emission.Runs before after) (slots : List Slot) :
    emission.Runs (before ++ slots) (after ++ slots) :=
  ⟨hruns.1, hruns.2.beneath slots⟩

theorem Param.isParam_of_mem_terms {params : List Param}
    (hcomplete : Param.AllComplete params) : ∀ term ∈ Param.terms params, term.isParam = true := by
  induction params with
  | nil => simp [Param.terms]
  | cons param params ih =>
    simp only [Param.AllComplete] at hcomplete
    rw [Param.terms, List.forall_mem_cons]
    refine ⟨?_, ih hcomplete.2⟩
    cases param with
    | pending key => simp [Param.Complete] at hcomplete
    | bound key value => simp [Param.term, Term.isParam]

theorem Param.length_terms (params : List Param) :
    (Param.terms params).length = params.length := by
  induction params with
  | nil => simp [Param.terms]
  | cons param params ih => simp [Param.terms, ih]

mutual

theorem Value.emit_runs : (value : Value) → value.Complete → value.Solid →
    value.emit.Runs [] [.term value.term]
  | .constant constant, _, _ => by
    simp only [Value.emit, Value.term]
    exact Emission.runs_ofLines (runs_push _ [])
  | .call call, hcomplete, hsolid => by
    simp only [Value.Complete, Value.Solid] at hcomplete hsolid
    simp only [Value.emit, Value.term]
    have hruns := Call.emit_runs call hcomplete hsolid.2
    rwa [hsolid.1] at hruns

/-- The code of a call pushes the call.  Only that of an empty paragraph pushes nothing. -/
theorem Call.emit_runs : (call : Call) → call.Complete → call.Solid →
    call.emit.Runs [] (if call.isEmptyParagraph then [] else [.term call.term])
  | .vector name entry args, hcomplete, hsolid => by
    simp only [Call.Complete, Call.Solid] at hcomplete hsolid
    have hroot : (Call.vector name entry args).isEmptyParagraph = Call.isVacuous name args := rfl
    rw [Call.emit, Call.term, hroot]
    by_cases hempty : Call.isVacuous name args = true
    · rw [if_pos hempty, if_pos hempty]
      exact Emission.runs_ofLines (runs_comment _)
    · rw [if_neg hempty, if_neg hempty]
      -- the arguments are pushed behind the marker of the frame
      have hargs := (Value.emitAll_runs args hcomplete hsolid).beneath [.marker]
      exact ((Emission.runs_ofLines runs_esba).andThen hargs).andThen
        (Emission.runs_ofLines (runs_vectorCall name _))
  | .map name entry params, hcomplete, hsolid => by
    simp only [Call.Complete, Call.Solid] at hcomplete hsolid
    simp only [Call.emit, Call.term, Call.isEmptyParagraph,
      Call.isComplete_of_allComplete hcomplete, Bool.not_true, Bool.false_eq_true, if_false]
    have hcall := runs_mapCall name (Param.isParam_of_mem_terms hcomplete)
    rw [Param.length_terms] at hcall
    exact (Param.emitAll_runs params hcomplete hsolid).andThen (Emission.runs_ofLines hcall)

theorem Param.emit_runs : (param : Param) → param.Complete → param.Solid →
    param.emit.Runs [] [.term param.term]
  | .pending _, hcomplete, _ => by simp [Param.Complete] at hcomplete
  | .bound key value, hcomplete, hsolid => by
    simp only [Param.Complete, Param.Solid] at hcomplete hsolid
    simp only [Param.emit, Param.term]
    exact (Value.emit_runs value hcomplete hsolid).andThen
      (Emission.runs_ofLines (runs_param key _))

theorem Value.emitAll_runs : (values : List Value) → Value.AllComplete values →
    Value.AllSolid values → (Value.emitAll values).Runs [] (pushed (Value.terms values))
  | [], _, _ => by
    simp only [Value.emitAll, Value.terms]
    exact Emission.runs_ofLines (.nil [])
  | value :: rest, hcomplete, hsolid => by
    simp only [Value.AllComplete, Value.AllSolid] at hcomplete hsolid
    simp only [Value.emitAll, Value.terms, pushed_cons]
    exact (Value.emit_runs value hcomplete.1 hsolid.1).andThen
      ((Value.emitAll_runs rest hcomplete.2 hsolid.2).beneath [.term value.term])

theorem Param.emitAll_runs : (params : List Param) → Param.AllComplete params →
    Param.AllSolid params → (Param.emitAll params).Runs [] (pushed (Param.terms params))
  | [], _, _ => by
    simp only [Param.emitAll, Param.terms]
    exact Emission.runs_ofLines (.nil [])
  | param :: rest, hcomplete, hsolid => by
    simp only [Param.AllComplete, Param.AllSolid] at hcomplete hsolid
    simp only [Param.emitAll, Param.terms, pushed_cons]
    exact (Param.emit_runs param hcomplete.1 hsolid.1).andThen
      ((Param.emitAll_runs rest hcomplete.2 hsolid.2).beneath [.term param.term])

end

end Docpress.Document
