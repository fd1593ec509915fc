import Docpress.Proofs.StackMachine

/-!
# Reading generated code

Code that was generated for a tree says which tree it was: running the code yields the tree's
term, and the term determines methods, arguments and their order, keys and values.  Only the
catalogue entries and the texts from which constants were read are forgotten (`Call.core`).

That a value can be told from its spelling is a consequence of the assembler reading it back
(`Payload.exists_symbols`).
-/

namespace Docpress.Document

open Assembly

/-! ## Spellings -/

/-- A text stands for one sequence of symbols. -/
theorem StandsFor.unique {text : List Char} {first second : List Symbol}
    (hfirst : StandsFor text first) (hsecond : StandsFor text second) : first = second := by
  obtain ⟨-, hitems⟩ := Scans.unique hfirst.readsAs hsecond.readsAs
  have hsymbols := List.append_cancel_right hitems
  exact List.map_injective_iff.2 (fun _ _ heq => by cases heq; rfl) hsymbols

/-- Symbols are read as one constant. -/
theorem IsConstant.unique {symbols : List Symbol} {first second : Object}
    (hfirst : Parser.IsConstant symbols first) (hsecond : Parser.IsConstant symbols second) :
    first = second := by
  cases hfirst with
  | plain _ hliteral hconstant =>
    cases hsecond with
    | plain _ _ hother =>
      rw [hconstant] at hother
      cases hother
      rfl
    | string text => exact absurd rfl hliteral
  | string text =>
    cases hsecond with
    | plain _ hliteral _ => exact absurd rfl hliteral
    | string _ => rfl
  | tagged htag hobject =>
    cases hsecond with
    | tagged htag' hobject' =>
      rw [htag] at htag'
      cases htag'
      rw [hobject] at hobject'
      cases hobject'
      rfl

theorem Payload.object_injective {first second : Payload} (heq : first.object = second.object) :
    first = second := by
  cases first <;> cases second <;> simp_all [Payload.object]

/-- Constants that can be written down are spelled differently. -/
theorem Payload.spelling_injective {first second : Payload} (hfirst : first.Writable)
    (hsecond : second.Writable) (heq : first.spelling = second.spelling) : first = second := by
  obtain ⟨symbols, hstands, hconstant⟩ := first.exists_symbols hfirst
  obtain ⟨symbols', hstands', hconstant'⟩ := second.exists_symbols hsecond
  rw [heq] at hstands
  obtain rfl := StandsFor.unique hstands hstands'
  exact Payload.object_injective (IsConstant.unique hconstant hconstant')

theorem quoteString_injective {first second : String}
    (heq : quoteString first = quoteString second) : first = second := by
  have hpayload : Payload.string first = .string second :=
    Payload.spelling_injective trivial trivial heq
  cases hpayload
  rfl

/-! ## Terms -/

mutual

/-- The value without catalogue entries and texts that it was read from. -/
def Value.core : Value → Value
  | .constant constant => .constant ⟨"", constant.payload⟩
  | .call call => .call call.core

/-- The call without catalogue entries and texts that its constants were read from. -/
def Call.core : Call → Call
  | .vector name _ args => .vector name none (Value.cores args)
  | .map name _ params => .map name none (Param.cores params)

def Param.core : Param → Param
  | .pending key => .pending key
  | .bound key value => .bound key value.core

def Value.cores : List Value → List Value
  | [] => []
  | value :: rest => value.core :: Value.cores rest

def Param.cores : List Param → List Param
  | [] => []
  | param :: rest => param.core :: Param.cores rest

end

/-- Every constant in the call can be written down. -/
def Call.Spellable (call : Call) : Prop := call.Everywhere (fun _ => True) Payload.Writable

section

variable {names : String → Prop}

mutual

theorem Value.core_eq_of_term_eq : (first second : Value) →
    first.Everywhere names Payload.Writable → second.Everywhere names Payload.Writable →
    first.term = second.term → first.core = second.core
  | .constant first, .constant second, hfirst, hsecond, hterm => by
    simp only [Value.term, Term.constant.injEq] at hterm
    simp only [Value.Everywhere] at hfirst hsecond
    rw [Value.core, Value.core, Payload.spelling_injective hfirst hsecond hterm]
  | .constant _, .call second, _, _, hterm => by
    cases second <;> simp [Value.term, Call.term] at hterm
  | .call first, .constant _, _, _, hterm => by
    cases first <;> simp [Value.term, Call.term] at hterm
  | .call first, .call second, hfirst, hsecond, hterm => by
    simp only [Value.Everywhere] at hfirst hsecond
    simp only [Value.term] at hterm
    rw [Value.core, Value.core, Call.core_eq_of_term_eq first second hfirst hsecond hterm]

/-- Calls with the same term differ only in entries and in texts that were read. -/
theorem Call.core_eq_of_term_eq : (first second : Call) →
    first.Everywhere names Payload.Writable → second.Everywhere names Payload.Writable →
    first.term = second.term → first.core = second.core
  | .vector _ _ args, .vector _ _ others, hfirst, hsecond, hterm => by
    simp only [Call.Everywhere] at hfirst hsecond
    simp only [Call.term, Term.call.injEq, Term.vector.injEq] at hterm
    obtain ⟨rfl, hargs⟩ := hterm
    rw [Call.core, Call.core, Value.cores_eq_of_terms_eq args others hfirst.2 hsecond.2 hargs]
  | .vector _ _ _, .map _ _ _, _, _, hterm => by simp [Call.term] at hterm
  | .map _ _ _, .vector _ _ _, _, _, hterm => by simp [Call.term] at hterm
  | .map _ _ params, .map _ _ others, hfirst, hsecond, hterm => by
    simp only [Call.Everywhere] at hfirst hsecond
    simp only [Call.term, Term.call.injEq, Term.map.injEq] at hterm
    obtain ⟨rfl, hparams⟩ := hterm
    rw [Call.core, Call.core, Param.cores_eq_of_terms_eq params others hfirst.2 hsecond.2 hparams]

theorem Param.core_eq_of_term_eq : (first second : Param) →
    first.Everywhere names Payload.Writable → second.Everywhere names Payload.Writable →
    first.term = second.term → first.core = second.core
  | .pending _, .pending _, _, _, hterm => by
    simp only [Param.term, Term.constant.injEq] at hterm
    rw [quoteString_injective hterm]
  | .pending _, .bound _ _, _, _, hterm => by simp [Param.term] at hterm
  | .bound _ _, .pending _, _, _, hterm => by simp [Param.term] at hterm
  | .bound _ value, .bound _ other, hfirst, hsecond, hterm => by
    simp only [Param.Everywhere] at hfirst hsecond
    simp only [Param.term, Term.param.injEq] at hterm
    rw [Param.core, Param.core, quoteString_injective hterm.1,
      Value.core_eq_of_term_eq value other hfirst hsecond hterm.2]

theorem Value.cores_eq_of_terms_eq : (first second : List Value) →
    Value.AllEverywhere names Payload.Writable first →
    Value.AllEverywhere names Payload.Writable second →
    Value.terms first = Value.terms second → Value.cores first = Value.cores second
  | [], [], _, _, _ => rfl
  | [], _ :: _, _, _, hterms => by simp [Value.terms] at hterms
  | _ :: _, [], _, _, hterms => by simp [Value.terms] at hterms
  | value :: first, other :: second, hfirst, hsecond, hterms => by
    simp only [Value.AllEverywhere] at hfirst hsecond
    simp only [Value.terms, List.cons.injEq] at hterms
    rw [Value.cores, Value.cores,
      Value.core_eq_of_term_eq value other hfirst.1 hsecond.1 hterms.1,
      Value.cores_eq_of_terms_eq first second hfirst.2 hsecond.2 hterms.2]

theorem Param.cores_eq_of_terms_eq : (first second : List Param) →
    Param.AllEverywhere names Payload.Writable first →
    Param.AllEverywhere names Payload.Writable second →
    Param.terms first = Param.terms second → Param.cores first = Param.cores second
  | [], [], _, _, _ => rfl
  | [], _ :: _, _, _, hterms => by simp [Param.terms] at hterms
  | _ :: _, [], _, _, hterms => by simp [Param.terms] at hterms
  | param :: first, other :: second, hfirst, hsecond, hterms => by
    simp only [Param.AllEverywhere] at hfirst hsecond
    simp only [Param.terms, List.cons.injEq] at hterms
    rw [Param.cores, Param.cores,
      Param.core_eq_of_term_eq param other hfirst.1 hsecond.1 hterms.1,
      Param.cores_eq_of_terms_eq first second hfirst.2 hsecond.2 hterms.2]

end

end

/-! ## Code -/

/-- Empty paragraphs have the same term. -/
theorem Call.term_of_isEmptyParagraph {call : Call} (hempty : call.isEmptyParagraph = true) :
    call.term = .call paragraph (.vector []) := by
  cases call with
  | map name entry params => cases hempty
  | vector name entry args =>
    have hvacuous : Call.isVacuous name args = true := hempty
    rw [Call.isVacuous, Bool.and_eq_true, decide_eq_true_iff] at hvacuous
    obtain ⟨rfl, hargs⟩ := hvacuous
    obtain rfl := List.isEmpty_iff.1 hargs
    rw [Call.term, Value.terms]

/-- The code determines the term, also that of an empty paragraph. -/
theorem Call.term_eq_of_lines_eq {first second : Call} (hfirst : first.Complete)
    (hsolid : first.Solid) (hsecond : second.Complete) (hsolid' : second.Solid)
    (hlines : first.emit.lines = second.emit.lines) : first.term = second.term := by
  have hruns := (Call.emit_runs first hfirst hsolid).2.runLines []
  have hruns' := (Call.emit_runs second hsecond hsolid').2.runLines []
  rw [hlines, hruns'] at hruns
  by_cases hempty : first.isEmptyParagraph = true
  · by_cases hempty' : second.isEmptyParagraph = true
    · rw [Call.term_of_isEmptyParagraph hempty, Call.term_of_isEmptyParagraph hempty']
    · simp [hempty, hempty'] at hruns
  · by_cases hempty' : second.isEmptyParagraph = true
    · simp [hempty, hempty'] at hruns
    · simpa [hempty, hempty', eq_comm] using hruns

/-- The code of a complete call in which no argument and no value is an empty paragraph runs to
its end on every stack, leaves that stack beneath at every line, and pushes the term of the call,
unless the call is an empty paragraph itself, which pushes nothing.  Other calls with the same
code have the same term, and are the same calls up to entries and texts that were read. -/
theorem Call.emit_balanced (call : Call) (hcomplete : call.Complete) (hsolid : call.Solid) :
    call.emit.fault = none ∧
    (∀ first, first <+: call.emit.lines →
      ∃ above, ∀ stack, runLines first stack = some (above ++ stack)) ∧
    (∀ stack, runLines call.emit.lines stack =
      some (if call.isEmptyParagraph then stack else .term call.term :: stack)) ∧
    ∀ other : Call, other.Complete → other.Solid → other.emit.lines = call.emit.lines →
      other.term = call.term ∧ (other.Spellable → call.Spellable → other.core = call.core) := by
  obtain ⟨hfault, hruns⟩ := Call.emit_runs call hcomplete hsolid
  refine ⟨hfault, fun first hfirst => hruns.exists_of_prefix hfirst, fun stack => ?_, ?_⟩
  · have hstack := hruns.runLines stack
    rw [List.nil_append] at hstack
    rw [hstack]
    split <;> rfl
  · intro other hother hsolid' hlines
    have hterm := Call.term_eq_of_lines_eq hother hsolid' hcomplete hsolid hlines
    exact ⟨hterm, fun hspellable hspellable' =>
      Call.core_eq_of_term_eq other call hspellable hspellable' hterm⟩

/-- A link whose title holds a quoted word, inside a section. -/
def sampleSection : Call :=
  .vector "section" none
    [.constant ⟨"", .string "a"⟩,
      .call (.map "link" none
        [.bound "title" (.call (.vector "quote" none [.constant ⟨"", .unsigned 1⟩])),
          .bound "seen" (.constant ⟨"", .bool true⟩)]),
      .call (.vector "bold" none [])]

theorem sampleSection_emit_balanced :
    sampleSection.Complete ∧ sampleSection.Solid ∧ sampleSection.emit.fault = none ∧
      runLines sampleSection.emit.lines [.marker] = some [.term sampleSection.term, .marker] := by
  have hcomplete : sampleSection.Complete := by
    simp [sampleSection, Call.Complete, Param.AllComplete, Param.Complete, Value.AllComplete,
      Value.Complete]
  have hsolid : sampleSection.Solid := by
    simp [sampleSection, Call.Solid, Param.AllSolid, Param.Solid, Value.AllSolid, Value.Solid,
      Call.isEmptyParagraph, Call.isVacuous, paragraph]
  have hbalanced := sampleSection.emit_balanced hcomplete hsolid
  have hroot : sampleSection.isEmptyParagraph = false := rfl
  refine ⟨hcomplete, hsolid, hbalanced.1, ?_⟩
  rw [hbalanced.2.2.1, hroot]
  rfl

/-- The code of an empty paragraph pushes nothing. -/
theorem emptyParagraph_pushes_nothing :
    ∃ call : Call, call.Complete ∧ call.Solid ∧ runLines call.emit.lines [] = some [] ∧
      runLines call.emit.lines [] ≠ some [.term call.term] := by
  have hlines : (Call.vector paragraph none []).emit.lines = [.comment "empty paragraph"] := by
    simp [Call.emit, Call.isVacuous, Emission.ofLines, paragraph]
  refine ⟨.vector paragraph none [], ?_, ?_, ?_, ?_⟩
  · simp [Call.Complete, Value.AllComplete]
  · simp [Call.Solid, Value.AllSolid]
  · rw [hlines]
    rfl
  · rw [hlines]
    intro heq
    cases heq

end Docpress.Document
