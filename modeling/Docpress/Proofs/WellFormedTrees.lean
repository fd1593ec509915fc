import Docpress.Proofs.Grammar
import Docpress.Proofs.Requests

/-!
# Well-formed trees

What the rest of the library may rely on in a declared tree, however the parser was used and
whether or not it ever saw the end of the document.  The tree is a call of a block method, and
every call in it (`Call.nodes`) is `Regular`: it is made as the catalogue says, the parameters
have values, none of which is a quote, and every punctuation mark is joined with what stands
before it.

A call that is still open need not be regular.  It is `Tended`: what it holds so far is, and
closing it joins the marks and fills the parameters.  Only a call that opens on an empty stack
can be declared, and block methods alone are opened there (`Rooted`).
-/

namespace Docpress.Document

/-! ## Definitions -/

mutual

/-- The calls in the value. -/
def Value.nodes : Value → List Call
  | .constant _ => []
  | .call call => call.nodes

/-- The call and the calls in it. -/
def Call.nodes : Call → List Call
  | .vector name entry args => .vector name entry args :: Value.allNodes args
  | .map name entry params => .map name entry params :: Param.allNodes params

/-- The calls in the value of the parameter. -/
def Param.nodes : Param → List Call
  | .pending _ => []
  | .bound _ value => value.nodes

def Value.allNodes : List Value → List Call
  | [] => []
  | value :: rest => value.nodes ++ Value.allNodes rest

def Param.allNodes : List Param → List Call
  | [] => []
  | param :: rest => param.nodes ++ Param.allNodes rest

end

theorem Value.allNodes_eq (values : List Value) : allNodes values = values.flatMap nodes := by
  induction values with
  | nil => rfl
  | cons value values ih => rw [allNodes, ih, List.flatMap_cons]

theorem Param.allNodes_eq (params : List Param) : allNodes params = params.flatMap nodes := by
  induction params with
  | nil => rfl
  | cons param params ih => rw [allNodes, ih, List.flatMap_cons]

/-- Whether the value is a quote. -/
def Value.isQuote : Value → Bool
  | .call (.vector name _ _) => decide (name = quote)
  | _ => false

/-- Whether the value of the parameter is a quote. -/
def Param.isQuote : Param → Bool
  | .pending _ => false
  | .bound _ value => value.isQuote

/-- The value is a constant text that is a punctuation mark. -/
def Value.IsMark (value : Value) : Prop :=
  ∃ literal, ∃ mark ∈ [".", ",", ";", "?", "!"], value = .constant ⟨literal, .string mark⟩

namespace Call

/-- The call is made as the catalogue says: it has the entry of its method, and named parameters
just if the method takes them. -/
def Listed : Call → Prop
  | .vector name entry _ => entry = lookup? name ∧ isOfStyle .map name = false
  | .map name entry _ => entry = lookup? name ∧ isOfStyle .map name = true

/-- All parameters of the call have values, and none is a quote. -/
def Settled : Call → Prop
  | .vector _ _ _ => True
  | .map _ _ params => ∀ param ∈ params, param.isBound = true ∧ param.isQuote = false

/-- No punctuation mark follows an argument of the call, unless the call is what joins the two. -/
def Joined : Call → Prop
  | .vector name _ args =>
    name = cat ∧ args.length = 2 ∨ ∀ arg ∈ args.tail, ¬ arg.IsMark
  | .map _ _ _ => True

/-- What holds of every call in a declared tree. -/
structure Regular (call : Call) : Prop where
  listed : call.Listed
  settled : call.Settled
  joined : call.Joined

/-- The call is made as the catalogue says, and what it holds so far is regular. -/
def Tended (call : Call) : Prop :=
  call.Listed ∧
    match call with
    | .vector _ _ args => ∀ arg ∈ args, ∀ node ∈ arg.nodes, node.Regular
    | .map _ _ params =>
      ∀ param ∈ params, param.isQuote = false ∧ ∀ node ∈ param.nodes, node.Regular

end Call

/-! ## Values -/

theorem Value.isPunctuation_iff (value : Value) : value.isPunctuation = true ↔ value.IsMark := by
  constructor
  · intro hmark
    cases value with
    | call call => cases hmark
    | constant constant =>
      obtain ⟨literal, payload⟩ := constant
      cases payload with
      | string text => exact ⟨literal, text, List.contains_iff_mem.1 hmark, rfl⟩
      | _ => cases hmark
  · rintro ⟨literal, mark, hmem, rfl⟩
    exact List.contains_iff_mem.2 hmem

theorem Value.isPunctuation_eq_false_iff (value : Value) :
    value.isPunctuation = false ↔ ¬ value.IsMark := by
  rw [← isPunctuation_iff, Bool.not_eq_true]

/-- As the value of a parameter a quote becomes a range. -/
theorem Value.isQuote_asParameter (value : Value) : value.asParameter.isQuote = false := by
  fun_cases asParameter value with
  | case1 => rfl
  | case2 => simp [isQuote, range, quote]
  | case3 name entry args hname => simpa [isQuote] using hname
  | case4 => rfl

theorem Call.regular_range {entry : Option Entry} {args : List Value}
    (hregular : (Call.vector quote entry args).Regular) :
    (Call.vector range (lookup? range) args).Regular := by
  refine ⟨⟨rfl, by decide⟩, trivial, .inr ?_⟩
  rcases hregular.joined with ⟨hname, _⟩ | hmarks
  · exact absurd hname (by decide)
  · exact hmarks

theorem Value.regular_asParameter {value : Value} (hvalue : ∀ node ∈ value.nodes, node.Regular) :
    ∀ node ∈ value.asParameter.nodes, node.Regular := by
  fun_cases asParameter value with
  | case1 => simp [nodes]
  | case2 =>
    simp only [nodes, Call.nodes, List.forall_mem_cons] at hvalue ⊢
    exact ⟨Call.regular_range hvalue.1, hvalue.2⟩
  | case3 => exact hvalue
  | case4 => exact hvalue

theorem Value.regular_join {left right : Value} (hleft : ∀ node ∈ left.nodes, node.Regular)
    (hright : ∀ node ∈ right.nodes, node.Regular) :
    ∀ node ∈ (left.join right).nodes, node.Regular := by
  simp only [join, nodes, Call.nodes, allNodes, List.append_nil, List.forall_mem_cons,
    List.forall_mem_append]
  exact ⟨⟨⟨rfl, by decide⟩, trivial, .inl ⟨rfl, rfl⟩⟩, hleft, hright⟩

theorem Value.regular_coalesceAfter {current : Value} {args : List Value}
    (hcurrent : ∀ node ∈ current.nodes, node.Regular)
    (hargs : ∀ arg ∈ args, ∀ node ∈ arg.nodes, node.Regular) :
    ∀ arg ∈ coalesceAfter current args, ∀ node ∈ arg.nodes, node.Regular := by
  induction args generalizing current with
  | nil => simpa [coalesceAfter] using hcurrent
  | cons arg args ih =>
    rw [List.forall_mem_cons] at hargs
    rw [coalesceAfter]
    split
    · exact ih (regular_join hcurrent hargs.1) hargs.2
    · exact List.forall_mem_cons.2 ⟨hcurrent, ih hargs.1 hargs.2⟩

/-- After an argument that is no mark there are no marks. -/
theorem Value.noMarks_coalesceAfter {current : Value} (args : List Value)
    (hcurrent : current.isPunctuation = false) :
    ∀ arg ∈ coalesceAfter current args, arg.isPunctuation = false := by
  induction args generalizing current with
  | nil => simpa [coalesceAfter] using hcurrent
  | cons arg args ih =>
    rw [coalesceAfter]
    split
    · -- what was joined is a call
      exact ih rfl
    · rename_i harg
      exact List.forall_mem_cons.2 ⟨hcurrent, ih (by simpa using harg)⟩

/-- Only the first argument may be a mark. -/
theorem Value.noMarks_coalesce (args : List Value) :
    ∀ arg ∈ (coalesce args).tail, ¬ arg.IsMark := by
  cases args with
  | nil => simp [coalesce]
  | cons first rest =>
    rw [coalesce]
    induction rest generalizing first with
    | nil => simp [coalesceAfter]
    | cons arg rest ih =>
      rw [coalesceAfter]
      split
      · exact ih _
      · rename_i harg
        exact fun other hmem => other.isPunctuation_eq_false_iff.1
          (noMarks_coalesceAfter rest (by simpa using harg) other hmem)

/-! ## Calls -/

namespace Call

/-- A method that takes no parameters is called with arguments. -/
theorem ofName_of_not_map {name : String} (hstyle : isOfStyle .map name = false) :
    Call.ofName name = .vector name (lookup? name) [] := by
  unfold ofName start
  split
  · rename_i hlookup
    simp [isOfStyle, hlookup] at hstyle
  · rfl

theorem tended_ofName (name : String) : (Call.ofName name).Tended := by
  cases hstyle : isOfStyle .map name with
  | true =>
    rw [ofName_of_map hstyle]
    exact ⟨⟨rfl, hstyle⟩, by simp⟩
  | false =>
    rw [ofName_of_not_map hstyle]
    exact ⟨⟨rfl, hstyle⟩, by simp⟩

theorem tended_append {call next : Call} {value : Value} (hcall : call.Tended)
    (hvalue : ∀ node ∈ value.nodes, node.Regular) (happend : call.append value = .ok next) :
    next.Tended := by
  obtain ⟨hlisted, hheld⟩ := hcall
  rcases append_cases happend with
    ⟨name, entry, args, rfl, rfl⟩ | ⟨name, entry, params, key, rfl, rfl⟩
  · refine ⟨hlisted, List.forall_mem_append.2 ⟨hheld, ?_⟩⟩
    simpa using hvalue
  · refine ⟨hlisted, List.forall_mem_append.2 ⟨(List.forall_mem_append.1 hheld).1, ?_⟩⟩
    rw [List.forall_mem_singleton]
    exact ⟨value.isQuote_asParameter, Value.regular_asParameter hvalue⟩

theorem tended_name {name key : String} {entry : Option Entry} {params : List Param}
    (hcall : (Call.map name entry params).Tended) :
    (Call.map name entry (params ++ [Param.pending key])).Tended := by
  refine ⟨hcall.1, List.forall_mem_append.2 ⟨hcall.2, ?_⟩⟩
  simp [Param.isQuote, Param.nodes]

/-- A parameter that was filled has a value, and no quote. -/
theorem settled_filled {param : Param} (hquote : param.isQuote = false) :
    param.filled.isBound = true ∧ param.filled.isQuote = false := by
  cases param with
  | pending key => exact ⟨rfl, rfl⟩
  | bound key value => exact ⟨rfl, hquote⟩

theorem nodes_filled (param : Param) : param.filled.nodes = param.nodes := by
  cases param <;> rfl

/-- Closing a call makes it regular. -/
theorem regular_closed {call : Call} (hcall : call.Tended) :
    ∀ node ∈ call.closed.nodes, node.Regular := by
  obtain ⟨hlisted, hheld⟩ := hcall
  cases call with
  | vector name entry args =>
    rw [closed, nodes, List.forall_mem_cons, Value.allNodes_eq]
    refine ⟨⟨hlisted, trivial, .inr (Value.noMarks_coalesce args)⟩, ?_⟩
    rw [List.forall_mem_flatMap]
    cases args with
    | nil => simp [Value.coalesce]
    | cons first rest =>
      obtain ⟨hfirst, hrest⟩ := List.forall_mem_cons.1 hheld
      exact Value.regular_coalesceAfter hfirst hrest
  | map name entry params =>
    rw [closed, nodes, List.forall_mem_cons, Param.allNodes_eq, fillEmpty]
    refine ⟨⟨hlisted, ?_, trivial⟩, ?_⟩
    · rw [Settled, List.forall_mem_map]
      exact fun param hmem => settled_filled (hheld param hmem).1
    · rw [List.forall_mem_flatMap, List.forall_mem_map]
      intro param hmem
      rw [nodes_filled]
      exact (hheld param hmem).2

end Call

theorem growth_regular (symbol : Symbol) :
    Growth symbol (fun call => ∀ node ∈ call.nodes, node.Regular) Call.Tended
      (fun value => ∀ node ∈ value.nodes, node.Regular) where
  paragraph := Call.tended_ofName _
  quote := Call.tended_ofName _
  directive _ := Call.tended_ofName _
  constant := by simp [Value.nodes]
  name := Call.tended_name
  append := Call.tended_append
  close := Call.regular_closed
  call hcall := by simpa only [Value.nodes] using hcall

/-! ## Roots -/

theorem Call.name_ofName (name : String) : (Call.ofName name).name = name := by
  unfold ofName start
  split <;> rfl

theorem Call.name_append {call next : Call} {value : Value}
    (happend : call.append value = .ok next) : next.name = call.name := by
  rcases append_cases happend with ⟨name, entry, args, rfl, rfl⟩ | ⟨_, _, _, _, rfl, rfl⟩ <;> rfl

theorem Call.name_closed (call : Call) : call.closed.name = call.name := by
  cases call <;> rfl

/-- The declarations are calls of block methods, and so is the outermost open call. -/
structure Rooted (draft : Draft Call) : Prop where
  decls : ∀ decl ∈ draft.decls, isBlock decl.node.name = true
  root : ∀ node ∈ draft.stack.getLast?, isBlock node.1.name = true

namespace Rooted

variable {draft : Draft Call} {call next : Call} {position : Position}
  {below : List (Call × Position)}

/-- On an empty stack the call of a block method may be opened. -/
theorem push_block (hrooted : Rooted draft) (hstack : draft.stack = [])
    (hblock : isBlock call.name = true) : Rooted (draft.push call position) := by
  refine ⟨hrooted.decls, ?_⟩
  simpa [Draft.push, hstack] using hblock

/-- In another call every call may be opened. -/
theorem push_inner (hrooted : Rooted draft) (hstack : draft.stack ≠ []) :
    Rooted (draft.push call position) := by
  refine ⟨hrooted.decls, ?_⟩
  obtain ⟨outer, rest, hstack⟩ := List.exists_cons_of_ne_nil hstack
  have hroot := hrooted.root
  rw [hstack] at hroot
  rwa [Draft.push, hstack, List.getLast?_cons_cons]

/-- An open call may be exchanged for one of the same method. -/
theorem exchange (hrooted : Rooted draft) (above : List (Call × Position))
    (hstack : draft.stack = above ++ (call, position) :: below) (hname : next.name = call.name) :
    Rooted { draft with stack := (next, position) :: below } := by
  refine ⟨hrooted.decls, ?_⟩
  have hroot := hrooted.root
  rw [hstack, List.getLast?_append, List.getLast?_cons, Option.some_or, ← List.getLast?_cons]
    at hroot
  cases below with
  | nil => simpa [hname] using hroot
  | cons outer rest => rwa [List.getLast?_cons_cons] at hroot ⊢

theorem declare (hrooted : Rooted draft) (hstack : draft.stack = [(call, position)])
    (hname : next.name = call.name) :
    Rooted { decls := draft.decls.push ⟨next, position⟩, stack := [] } := by
  refine ⟨fun decl hmem => ?_, by simp⟩
  rcases Array.mem_push.1 hmem with hmem | rfl
  · exact hrooted.decls decl hmem
  · rw [hname]
    exact hrooted.root (call, position) (by simp [hstack])

end Rooted

namespace Parser

/-- Where the stacks fit, blocks are opened on an empty stack only, and other calls in a call. -/
theorem Move.rooted {symbol : Symbol} {parser next : Parser} {taken : Bool}
    (hsteady : Steady parser) (hrooted : Rooted parser.draft)
    (hmove : Move symbol parser taken next) : Rooted next.draft := by
  cases hmove with
  | paragraph hstates =>
    refine hrooted.push_block (hstates ▸ hsteady.fits).of_list.2 ?_
    rw [Call.name_ofName]
    decide
  | block hstates _ hblock =>
    refine hrooted.push_block (hstates ▸ hsteady.fits).of_list.2 ?_
    rwa [Call.name_ofName]
  | call hstates =>
    obtain ⟨_, _, _, _, hstack, _⟩ := (hstates ▸ hsteady.fits).of_value
    exact hrooted.push_inner (by simp [hstack])
  | quote hstates =>
    obtain ⟨_, _, _, _, hstack, _⟩ := (hstates ▸ hsteady.fits).of_value
    exact hrooted.push_inner (by simp [hstack])
  | constant _ _ _ hstack happend =>
    exact hrooted.exchange [] hstack (Call.name_append happend)
  | name _ _ hstack => exact hrooted.exchange [] hstack rfl
  | declare _ hstack => exact hrooted.declare hstack (Call.name_closed _)
  | @attach _ call _ _ position _ _ _ hstack happend =>
    exact hrooted.exchange [(call, position)] hstack (Call.name_append happend)
  | _ => exact hrooted

/-- Whatever is asked of the parser, in whatever order, the trees that it has declared by then
are calls of block methods in which every call is regular. -/
theorem declared_trees_regular (requests : List Request) (file : String) (retryLimit : Nat) :
    ∃ taken parser decls diagnostics,
      service.answerAll (.start file retryLimit) requests = .ok (taken, parser) ∧
      parser.finish = .ok (decls, diagnostics) ∧
      ∀ decl ∈ decls, isBlock decl.node.name = true ∧ ∀ node ∈ decl.node.nodes, node.Regular := by
  have hreliable := reliable
    (fun parser => Rooted parser.draft ∧
      DraftOf (fun call => ∀ node ∈ call.nodes, node.Regular) Call.Tended parser.draft)
    (fun hsteady hinv hmove =>
      ⟨hmove.rooted hsteady hinv.1, hmove.draftOf (growth_regular _) hinv.2⟩) id
  obtain ⟨taken, parser, hanswer, ⟨hsteady, hrooted, hregular⟩, _⟩ :=
    hreliable.answerAll requests
      ⟨steady_start file retryLimit, ⟨by simp [start], by simp [start]⟩,
        ⟨by simp [start], by simp [start]⟩⟩
  refine ⟨taken, parser, _, _, hanswer, finish_of_steady hsteady, fun decl hmem => ?_⟩
  have hdecl : decl ∈ parser.draft.decls := Array.mem_toList_iff.1 hmem
  exact ⟨hrooted.decls decl hdecl, hregular.decls decl hdecl⟩

end Parser
end Docpress.Document
