import Docpress.Document.Parser
import Docpress.Proofs.Draft
import Docpress.Proofs.Offer

/-!
# Moves of the document parser

The parser of documents keeps two stacks: the states that wait for symbols, and the calls that
are open.  `Fits` says how the two belong together.  Every open call owns a segment of the
states, ending with the `reduce` that closes it; beneath the segment of the innermost call lie
those of the calls around it, each of which is ready to take one more value.

`Move` lists what one offer of a symbol can do, with the condition for each.  `put_moves` is
the one place where the steps of the parser are taken apart: from stacks that fit, an offer
never fails, is one of the moves, and leaves stacks that fit.  All that is shown about runs of
the parser is shown about moves.
-/

namespace Docpress

/-- Only symbols of the kind are punctuation marks. -/
theorem Symbol.isPunct_of_kind {symbol : Symbol} {c : Char} (hkind : symbol.kind ≠ .punct) :
    symbol.isPunct c = false := by
  apply decide_eq_false
  rintro rfl
  exact hkind rfl

end Docpress

namespace Docpress.Document

/-! ## Closing calls -/

namespace Call

/-- The call as it is when it is closed: marks joined, parameters filled. -/
def closed : Call → Call
  | .vector name entry args => .vector name entry (Value.coalesce args)
  | .map name entry params => .map name entry (fillEmpty params)

/-- What is reported when the call is closed. -/
def closingCauses : Call → List Cause
  | .vector _ _ _ => []
  | .map name entry params =>
    (missing entry params).map (.missingParameter name) ++
      (pendingKeys params).map (.emptyParameter name)

/-- Only the last parameter decides whether a value is taken. -/
theorem bindLast?_concat (params : List Param) (last : Param) (value : Value) :
    bindLast? (params ++ [last]) value = (bindLast? [last] value).map (params ++ ·) := by
  induction params with
  | nil => simp
  | cons param params ih =>
    have hcons : bindLast? (param :: (params ++ [last])) value =
        (bindLast? (params ++ [last]) value).map (param :: ·) := by
      rw [bindLast?]
      all_goals simp
    rw [List.cons_append, hcons, ih, Option.map_map]
    rfl

theorem append_map (name : String) (entry : Option Entry) (params : List Param) (key : String)
    (value : Value) :
    (Call.map name entry (params ++ [Param.pending key])).append value =
      .ok (.map name entry (params ++ [Param.bound key value.asParameter])) := by
  rw [append, bindLast?_concat]
  rfl

theorem bindLast?_eq_some {params next : List Param} {value : Value}
    (hbind : bindLast? params value = some next) :
    ∃ before key, params = before ++ [Param.pending key] ∧
      next = before ++ [Param.bound key value] := by
  rcases List.eq_nil_or_concat params with rfl | ⟨before, last, rfl⟩
  · cases hbind
  · rw [List.concat_eq_append] at hbind ⊢
    cases last with
    | pending key =>
      rw [bindLast?_concat] at hbind
      cases hbind
      exact ⟨before, key, rfl, rfl⟩
    | bound key old =>
      rw [bindLast?_concat] at hbind
      cases hbind

/-- A call takes a value as its last argument, or for its last parameter. -/
theorem append_cases {call next : Call} {value : Value} (happend : call.append value = .ok next) :
    (∃ name entry args, call = .vector name entry args ∧
      next = .vector name entry (args ++ [value])) ∨
    (∃ name entry params key, call = .map name entry (params ++ [Param.pending key]) ∧
      next = .map name entry (params ++ [Param.bound key value.asParameter])) := by
  cases call with
  | vector name entry args =>
    cases happend
    exact .inl ⟨name, entry, args, rfl, rfl⟩
  | map name entry params =>
    rw [append] at happend
    split at happend
    · rename_i hbind
      cases happend
      obtain ⟨before, key, rfl, rfl⟩ := bindLast?_eq_some hbind
      exact .inr ⟨name, entry, before, key, rfl, rfl⟩
    · cases happend

end Call

/-! ## Stacks that fit -/

/-- The states close a call and leave those beneath it. -/
inductive Closes : List State → List State → Prop where
  | reduce (below : List State) : Closes (.reduce :: below) below
  | exactly (c : Char) (below : List State) :
      Closes (.exactly (.punct c) :: .reduce :: below) below

/-- The states complete a call that is about to get one more value. -/
inductive Hosts : Call → List State → List State → Prop where
  | vector {name : String} {entry : Option Entry} {args : List Value} {states below : List State}
      (hcloses : Closes states below) : Hosts (.vector name entry args) states below
  | vectorMore {name : String} {entry : Option Entry} {args : List Value}
      {states below : List State} (enclosure : Enclosure) (hcloses : Closes states below) :
      Hosts (.vector name entry args) (.vector enclosure :: states) below
  | map {name : String} {entry : Option Entry} {params : List Param} {key : String}
      {states below : List State} (hcloses : Closes states below) :
      Hosts (.map name entry (params ++ [.pending key])) (.tail :: states) below

/-- The states complete a call. -/
inductive Completes : Call → List State → List State → Prop where
  | params (call : Call) (below : List State) : Completes call (.params :: below) below
  | closing {states below : List State} (call : Call) (hcloses : Closes states below) :
      Completes call states below
  | vector {name : String} {entry : Option Entry} {args : List Value} {states below : List State}
      (enclosure : Enclosure) (hcloses : Closes states below) :
      Completes (.vector name entry args) (.vector enclosure :: states) below
  | value {call : Call} {states below : List State} (hhosts : Hosts call states below) :
      Completes call (.value :: states) below
  | named {call : Call} {states below : List State} (c : Char)
      (hhosts : Hosts call states below) :
      Completes call (.exactly (.punct c) :: .value :: states) below
  | map {name : String} {entry : Option Entry} {params : List Param} {states below : List State}
      (hcloses : Closes states below) : Completes (.map name entry params) (.map :: states) below
  | tail {name : String} {entry : Option Entry} {params : List Param} {states below : List State}
      (hcloses : Closes states below) : Completes (.map name entry params) (.tail :: states) below

/-- The states beneath the segment of a call fit the calls around it. -/
inductive Surrounds : List State → List (Call × Position) → Prop where
  | document : Surrounds [.list, .body] []
  | call {call : Call} {position : Position} {states below : List State}
      {stack : List (Call × Position)} (hhosts : Hosts call states below)
      (hbelow : Surrounds below stack) : Surrounds states ((call, position) :: stack)

/-- The states fit the open calls. -/
inductive Fits : List State → List (Call × Position) → Prop where
  | done : Fits [] []
  | body : Fits [.body] []
  | list : Fits [.list, .body] []
  | call {call : Call} {position : Position} {states below : List State}
      {stack : List (Call × Position)} (hcompletes : Completes call states below)
      (hbelow : Surrounds below stack) : Fits states ((call, position) :: stack)

/-- A call that has got its value needs no other one. -/
theorem Hosts.completes {call : Call} {states below : List State}
    (hhosts : Hosts call states below) : Completes call states below := by
  cases hhosts with
  | vector hcloses => exact .closing _ hcloses
  | vectorMore enclosure hcloses => exact .vector enclosure hcloses
  | map hcloses => exact .tail hcloses

/-- A call that waits for a value takes any. -/
theorem Hosts.append {call : Call} {states below : List State} (hhosts : Hosts call states below)
    (value : Value) : ∃ next, call.append value = .ok next ∧ Completes next states below := by
  cases hhosts with
  | vector hcloses => exact ⟨_, rfl, .closing _ hcloses⟩
  | vectorMore enclosure hcloses => exact ⟨_, rfl, .vector enclosure hcloses⟩
  | map hcloses => exact ⟨_, Call.append_map _ _ _ _ value, .tail hcloses⟩

/-! ### What lies beneath a state -/

section

variable {rest : List State} {stack : List (Call × Position)}

theorem Fits.of_body (hfits : Fits (.body :: rest) stack) : rest = [] ∧ stack = [] := by
  cases hfits with
  | body => exact ⟨rfl, rfl⟩
  | call hcompletes _ =>
    cases hcompletes with
    | closing _ hcloses => cases hcloses

theorem Fits.of_list (hfits : Fits (.list :: rest) stack) : rest = [.body] ∧ stack = [] := by
  cases hfits with
  | list => exact ⟨rfl, rfl⟩
  | call hcompletes _ =>
    cases hcompletes with
    | closing _ hcloses => cases hcloses

theorem Fits.of_params (hfits : Fits (.params :: rest) stack) :
    ∃ call position around, stack = (call, position) :: around ∧ Surrounds rest around := by
  cases hfits with
  | call hcompletes hbelow =>
    cases hcompletes with
    | params => exact ⟨_, _, _, rfl, hbelow⟩
    | closing _ hcloses => cases hcloses

theorem Fits.of_vector {enclosure : Enclosure} (hfits : Fits (.vector enclosure :: rest) stack) :
    ∃ name entry args position around below,
      stack = (.vector name entry args, position) :: around ∧
      Closes rest below ∧ Surrounds below around := by
  cases hfits with
  | call hcompletes hbelow =>
    cases hcompletes with
    | vector _ hcloses => exact ⟨_, _, _, _, _, _, rfl, hcloses, hbelow⟩
    | closing _ hcloses => cases hcloses

theorem Fits.of_value (hfits : Fits (.value :: rest) stack) :
    ∃ call position around below, stack = (call, position) :: around ∧
      Hosts call rest below ∧ Surrounds below around := by
  cases hfits with
  | call hcompletes hbelow =>
    cases hcompletes with
    | value hhosts => exact ⟨_, _, _, _, rfl, hhosts, hbelow⟩
    | closing _ hcloses => cases hcloses

theorem Fits.of_map (hfits : Fits (.map :: rest) stack) :
    ∃ name entry params position around below,
      stack = (.map name entry params, position) :: around ∧
      Closes rest below ∧ Surrounds below around := by
  cases hfits with
  | call hcompletes hbelow =>
    cases hcompletes with
    | map hcloses => exact ⟨_, _, _, _, _, _, rfl, hcloses, hbelow⟩
    | closing _ hcloses => cases hcloses

theorem Fits.of_tail (hfits : Fits (.tail :: rest) stack) :
    ∃ name entry params position around below,
      stack = (.map name entry params, position) :: around ∧
      Closes rest below ∧ Surrounds below around := by
  cases hfits with
  | call hcompletes hbelow =>
    cases hcompletes with
    | tail hcloses => exact ⟨_, _, _, _, _, _, rfl, hcloses, hbelow⟩
    | closing _ hcloses => cases hcloses

theorem Fits.of_exactly {expected : Symbol} (hfits : Fits (.exactly expected :: rest) stack) :
    (∃ c, expected = .punct c) ∧ Fits rest stack := by
  cases hfits with
  | call hcompletes hbelow =>
    cases hcompletes with
    | closing _ hcloses =>
      cases hcloses with
      | exactly c => exact ⟨⟨c, rfl⟩, .call (.closing _ (.reduce _)) hbelow⟩
    | named c hhosts => exact ⟨⟨c, rfl⟩, .call (.value hhosts) hbelow⟩

theorem Fits.of_reduce (hfits : Fits (.reduce :: rest) stack) :
    ∃ call position around, stack = (call, position) :: around ∧ Surrounds rest around := by
  cases hfits with
  | call hcompletes hbelow =>
    cases hcompletes with
    | closing _ hcloses =>
      cases hcloses with
      | reduce => exact ⟨_, _, _, rfl, hbelow⟩

theorem Closes.ne_nil {states below : List State} (hcloses : Closes states below) :
    states ≠ [] := by
  cases hcloses <;> simp

theorem Hosts.ne_nil {call : Call} {states below : List State}
    (hhosts : Hosts call states below) : states ≠ [] := by
  cases hhosts with
  | vector hcloses => exact hcloses.ne_nil
  | vectorMore => simp
  | map => simp

theorem Surrounds.ne_nil {states : List State} (hsurrounds : Surrounds states stack) :
    states ≠ [] := by
  cases hsurrounds with
  | document => simp
  | call hhosts _ => exact hhosts.ne_nil

/-- The state for the end of the data is the lowest one. -/
theorem Fits.rest_ne_nil {state : State} (hfits : Fits (state :: rest) stack)
    (hstate : state ≠ .body) : rest ≠ [] := by
  cases hfits with
  | body => exact absurd rfl hstate
  | list => simp
  | call hcompletes hbelow =>
    cases hcompletes with
    | params => exact hbelow.ne_nil
    | closing _ hcloses =>
      cases hcloses with
      | reduce => exact hbelow.ne_nil
      | exactly => simp
    | vector _ hcloses => exact hcloses.ne_nil
    | value hhosts => exact hhosts.ne_nil
    | named => simp
    | map hcloses => exact hcloses.ne_nil
    | tail hcloses => exact hcloses.ne_nil

end

/-! ## Moves -/

namespace Parser

/-- The parser with other stacks, after reporting the causes. -/
def moved (parser : Parser) (causes : List Cause) (states : List State) (draft : Draft Call) :
    Parser :=
  { parser.reportAll causes with states, draft }

theorem reportAll_eq (parser : Parser) (causes : List Cause) :
    parser.reportAll causes =
      { parser with
        diagnostics := parser.diagnostics ++ (causes.map (Diagnostic.mk parser.position)).toArray } := by
  induction causes generalizing parser with
  | nil => simp [reportAll]
  | cons cause causes ih =>
    rw [reportAll, List.foldl_cons, ← reportAll, ih]
    simp [report]

section

variable (parser : Parser) (causes : List Cause) (states : List State) (draft : Draft Call)

/-- The states before a move do not matter. -/
theorem moved_of_states (before : List State) :
    ({ parser with states := before } : Parser).moved causes states draft =
      parser.moved causes states draft := by
  simp [moved, reportAll_eq]

@[simp] theorem moved_states : (parser.moved causes states draft).states = states := rfl

@[simp] theorem moved_draft : (parser.moved causes states draft).draft = draft := rfl

@[simp] theorem moved_position :
    (parser.moved causes states draft).position = parser.position := by
  simp [moved, reportAll_eq]

@[simp] theorem moved_retryLimit :
    (parser.moved causes states draft).retryLimit = parser.retryLimit := by
  simp [moved, reportAll_eq]

@[simp] theorem moved_finished :
    (parser.moved causes states draft).finished = parser.finished := by
  simp [moved, reportAll_eq]

@[simp] theorem moved_abandoned :
    (parser.moved causes states draft).abandoned = parser.abandoned := by
  simp [moved, reportAll_eq]

@[simp] theorem moved_diagnostics :
    (parser.moved causes states draft).diagnostics =
      parser.diagnostics ++ (causes.map (Diagnostic.mk parser.position)).toArray := by
  simp [moved, reportAll_eq]

end

/-- The causes that opening a call of the method reports. -/
def unknownCauses (name : String) : List Cause :=
  if (lookup? name).isNone then [.unknownMethod name] else []

/-- The states for the arguments of a call in parentheses, which `first` reads. -/
def inParens (first : State) (below : List State) : List State :=
  first :: .exactly (.punct ')') :: .reduce :: below

end Parser

/-- Whether symbols of the kind are constants. -/
def isContent : SymbolKind → Bool
  | .text | .literal | .punct | .number | .signed | .float | .timestamp | .color | .bool => true
  | _ => false

/-- Whether the symbol shows that the value of a parameter is left out. -/
def isOmission (symbol : Symbol) : Bool :=
  symbol.isPunct ')' || symbol.isPunct ','

namespace Parser

/-- What an offer of the symbol can do to the parser, and whether the symbol is taken. -/
inductive Move (symbol : Symbol) : Parser → Bool → Parser → Prop where
  | fileMark {parser : Parser} (hkind : symbol.kind = .fileMark) :
      Move symbol parser true { parser with position.file := symbol.text }
  | lineMark {parser : Parser} {line : Nat} (hkind : symbol.kind = .lineMark)
      (hline : line = ((Text.readUInt64? symbol.text).map UInt64.toNat).getD parser.position.line) :
      Move symbol parser true { parser with position.line := line }
  | pastEnd {parser : Parser} (hstates : parser.states = []) :
      Move symbol parser true
        (parser.moved (if symbol.kind = .endOfData then [] else [.afterEnd symbol]) []
          parser.draft)
  -- the document
  | finish {parser : Parser} {rest : List State} (hstates : parser.states = .body :: rest)
      (hkind : symbol.kind = .endOfData) :
      Move symbol parser true { parser with states := rest, finished := true }
  | blocks {parser : Parser} {rest : List State} (hstates : parser.states = .body :: rest)
      (hkind : symbol.kind ≠ .endOfData) :
      Move symbol parser false (parser.moved [] (.list :: .body :: rest) parser.draft)
  | noBlock {parser : Parser} {rest : List State} (hstates : parser.states = .list :: rest)
      (hkind : symbol.kind = .endOfData) :
      Move symbol parser false (parser.moved [] rest parser.draft)
  | paragraph {parser : Parser} {rest : List State} {taken : Bool}
      (hstates : parser.states = .list :: rest) (hend : symbol.kind ≠ .endOfData)
      (hblock : symbol.kind = .directive → isBlock symbol.text = false)
      (htaken : taken = decide (symbol.kind = .newline)) :
      Move symbol parser taken
        (parser.moved [] (.vector .paragraph :: .reduce :: .list :: rest)
          (parser.draft.push (.ofName Document.paragraph) parser.position))
  | block {parser : Parser} {rest : List State} (hstates : parser.states = .list :: rest)
      (hkind : symbol.kind = .directive) (hblock : isBlock symbol.text = true) :
      Move symbol parser true
        (parser.moved (unknownCauses symbol.text) (.params :: .list :: rest)
          (parser.draft.push (.ofName symbol.text) parser.position))
  -- the arguments of a call
  | openMap {parser : Parser} {rest : List State} {name : String} {entry : Option Entry}
      {params : List Param} {position : Position} {below : List (Call × Position)}
      (hstates : parser.states = .params :: rest)
      (hstack : parser.draft.stack = (.map name entry params, position) :: below)
      (hopens : symbol.isPunct '(' = true) :
      Move symbol parser true (parser.moved [] (inParens .map rest) parser.draft)
  | noParameters {parser : Parser} {rest : List State} {name : String} {entry : Option Entry}
      {params : List Param} {position : Position} {below : List (Call × Position)}
      (hstates : parser.states = .params :: rest)
      (hstack : parser.draft.stack = (.map name entry params, position) :: below)
      (hopens : symbol.isPunct '(' = false) :
      Move symbol parser false
        (parser.moved [.expectedParameterList name] (.reduce :: rest) parser.draft)
  | openVector {parser : Parser} {rest : List State} {name : String} {entry : Option Entry}
      {args : List Value} {position : Position} {below : List (Call × Position)}
      (hstates : parser.states = .params :: rest)
      (hstack : parser.draft.stack = (.vector name entry args, position) :: below)
      (hopens : symbol.isPunct '(' = true) :
      Move symbol parser true (parser.moved [] (inParens (.vector .paren) rest) parser.draft)
  | oneArgument {parser : Parser} {rest : List State} {name : String} {entry : Option Entry}
      {args : List Value} {position : Position} {below : List (Call × Position)}
      (hstates : parser.states = .params :: rest)
      (hstack : parser.draft.stack = (.vector name entry args, position) :: below)
      (hopens : symbol.isPunct '(' = false) (hstarts : startsValue symbol = true) :
      Move symbol parser false (parser.moved [] (.value :: .reduce :: rest) parser.draft)
  | noArgument {parser : Parser} {rest : List State} {name : String} {entry : Option Entry}
      {args : List Value} {position : Position} {below : List (Call × Position)}
      (hstates : parser.states = .params :: rest)
      (hstack : parser.draft.stack = (.vector name entry args, position) :: below)
      (hopens : symbol.isPunct '(' = false) (hstarts : startsValue symbol = false) :
      Move symbol parser false (parser.moved [] (.reduce :: rest) parser.draft)
  | closeVector {parser : Parser} {rest : List State} {enclosure : Enclosure}
      (hstates : parser.states = .vector enclosure :: rest)
      (hcloses : closes enclosure symbol = true) :
      Move symbol parser false (parser.moved [] rest parser.draft)
  | blank {parser : Parser} {rest : List State} {enclosure : Enclosure}
      (hstates : parser.states = .vector enclosure :: rest)
      (hcloses : closes enclosure symbol = false) (hkind : symbol.kind = .newline) :
      Move symbol parser true (parser.moved [] (.vector enclosure :: rest) parser.draft)
  | argument {parser : Parser} {rest : List State} {enclosure : Enclosure}
      (hstates : parser.states = .vector enclosure :: rest)
      (hcloses : closes enclosure symbol = false) (hkind : symbol.kind ≠ .newline) :
      Move symbol parser false (parser.moved [] (.value :: .vector enclosure :: rest) parser.draft)
  -- a value
  | omitted {parser : Parser} {rest : List State} {name : String} {entry : Option Entry}
      {params : List Param} {position : Position} {below : List (Call × Position)}
      (hstates : parser.states = .value :: rest)
      (hstack : parser.draft.stack = (.map name entry params, position) :: below)
      (homission : isOmission symbol = true) :
      Move symbol parser false (parser.moved [] rest parser.draft)
  | call {parser : Parser} {rest : List State} (hstates : parser.states = .value :: rest)
      (hkind : symbol.kind = .directive) :
      Move symbol parser true
        (parser.moved (unknownCauses symbol.text) (.params :: rest)
          (parser.draft.push (.ofName symbol.text) parser.position))
  | quote {parser : Parser} {rest : List State} (hstates : parser.states = .value :: rest)
      (hquote : symbol.isPunct '"' = true) :
      Move symbol parser true
        (parser.moved [] (.vector .quote :: .exactly (.punct '"') :: .reduce :: rest)
          (parser.draft.push (.ofName Document.quote) parser.position))
  | constant {parser : Parser} {rest : List State} {call next : Call} {position : Position}
      {below : List (Call × Position)} (hstates : parser.states = .value :: rest)
      (hcontent : isContent symbol.kind = true) (hquote : symbol.isPunct '"' = false)
      (hstack : parser.draft.stack = (call, position) :: below)
      (happend : call.append (.constant (.ofSymbol symbol)) = .ok next) :
      Move symbol parser true
        (parser.moved [] rest { parser.draft with stack := (next, position) :: below })
  | noValue {parser : Parser} {rest : List State} (hstates : parser.states = .value :: rest)
      (hcontent : isContent symbol.kind = false) (hkind : symbol.kind ≠ .directive) :
      Move symbol parser false (parser.moved [.mismatch .value symbol] rest parser.draft)
  -- parameters
  | name {parser : Parser} {rest : List State} {name : String} {entry : Option Entry}
      {params : List Param} {position : Position} {below : List (Call × Position)}
      (hstates : parser.states = .map :: rest) (hkind : symbol.kind = .text)
      (hstack : parser.draft.stack = (.map name entry params, position) :: below) :
      Move symbol parser true
        (parser.moved [] (.exactly (.punct ':') :: .value :: .tail :: rest)
          { parser.draft with
            stack := (.map name entry (params ++ [.pending symbol.text]), position) :: below })
  | noName {parser : Parser} {rest : List State} (hstates : parser.states = .map :: rest)
      (hkind : symbol.kind = .endOfData ∨ symbol.isPunct ')' = true) :
      Move symbol parser false (parser.moved [] rest parser.draft)
  | skip {parser : Parser} {rest : List State} (hstates : parser.states = .map :: rest)
      (htext : symbol.kind ≠ .text) (hend : symbol.kind ≠ .endOfData)
      (hparen : symbol.isPunct ')' = false) :
      Move symbol parser true
        (parser.moved [.mismatch .parameterName symbol] (.map :: rest) parser.draft)
  | comma {parser : Parser} {rest : List State} (hstates : parser.states = .tail :: rest)
      (hcomma : symbol.isPunct ',' = true) :
      Move symbol parser true (parser.moved [] (.map :: rest) parser.draft)
  | noComma {parser : Parser} {rest : List State} (hstates : parser.states = .tail :: rest)
      (hcomma : symbol.isPunct ',' = false) :
      Move symbol parser false (parser.moved [] rest parser.draft)
  -- the end of a call
  | expected {parser : Parser} {rest : List State} {expected : Symbol}
      (hstates : parser.states = .exactly expected :: rest) (hsymbol : symbol = expected) :
      Move symbol parser true (parser.moved [] rest parser.draft)
  | unexpected {parser : Parser} {rest : List State} {expected : Symbol}
      (hstates : parser.states = .exactly expected :: rest) (hsymbol : symbol ≠ expected) :
      Move symbol parser false
        (parser.moved [.mismatch (.symbol expected) symbol] rest parser.draft)
  | declare {parser : Parser} {rest : List State} {call : Call} {position : Position}
      (hstates : parser.states = .reduce :: rest)
      (hstack : parser.draft.stack = [(call, position)]) :
      Move symbol parser false
        (parser.moved call.closingCauses rest
          { decls := parser.draft.decls.push ⟨call.closed, position⟩, stack := [] })
  | attach {parser : Parser} {rest : List State} {call parent next : Call}
      {position place : Position} {below : List (Call × Position)}
      (hstates : parser.states = .reduce :: rest)
      (hstack : parser.draft.stack = (call, position) :: (parent, place) :: below)
      (happend : parent.append (.call call.closed) = .ok next) :
      Move symbol parser false
        (parser.moved call.closingCauses rest
          { parser.draft with stack := (next, place) :: below })

/-! ## The steps are moves -/

/-- The step succeeds with a move that leaves stacks that fit. -/
def Moves (symbol : Symbol) (parser : Parser) (result : Except Fault (Bool × Parser)) : Prop :=
  ∃ taken next, result = .ok (taken, next) ∧ Move symbol parser taken next ∧
    Fits next.states next.draft.stack

section

variable {symbol : Symbol} {parser : Parser} {rest : List State}

theorem Moves.intro {taken : Bool} {next : Parser} {result : Except Fault (Bool × Parser)}
    (hmove : Move symbol parser taken next) (hresult : result = .ok (taken, next))
    (hfits : Fits next.states next.draft.stack) : Moves symbol parser result :=
  ⟨taken, next, hresult, hmove, hfits⟩

/-! Each lemma below is about a parser from which the topmost state was taken. -/

theorem stepBody_moves (hstates : parser.states = .body :: rest)
    (hfits : Fits (.body :: rest) parser.draft.stack) :
    Moves symbol parser (stepBody { parser with states := rest } symbol) := by
  obtain ⟨rfl, hstack⟩ := hfits.of_body
  unfold stepBody
  split
  · rename_i hkind
    refine .intro (.finish hstates hkind) rfl ?_
    exact hstack ▸ .done
  · rename_i hkind
    refine .intro (.blocks hstates hkind) rfl ?_
    exact hstack ▸ .list

/-- Opening a call of a method is a move of the draft. -/
theorem openMethod_push (parser : Parser) (name : String) (states : List State) :
    (parser.openMethod name).push states =
      parser.moved (unknownCauses name) (states ++ parser.states)
        (parser.draft.push (.ofName name) parser.position) := by
  unfold unknownCauses
  by_cases hnone : (lookup? name).isNone = true
  · simp only [openMethod, hnone, if_true]
    rfl
  · simp only [openMethod, hnone]
    rfl

theorem stepList_moves (hstates : parser.states = .list :: rest)
    (hfits : Fits (.list :: rest) parser.draft.stack) :
    Moves symbol parser (stepList { parser with states := rest } symbol) := by
  obtain ⟨rfl, hstack⟩ := hfits.of_list
  have hparagraph : Fits [.vector .paragraph, .reduce, .list, .body]
      ((.ofName Document.paragraph, parser.position) :: parser.draft.stack) :=
    .call (.vector .paragraph (.reduce _)) (hstack ▸ .document)
  unfold stepList
  split
  · rename_i hkind
    refine .intro (.noBlock hstates hkind) rfl ?_
    exact hstack ▸ .body
  · rename_i hkind
    refine .intro (.paragraph hstates ?_ ?_ ?_) rfl hparagraph <;> simp [hkind]
  · rename_i hkind
    split
    · rename_i hblock
      refine .intro (.block hstates hkind hblock) (by rw [openMethod_push, moved_of_states]; rfl) ?_
      exact .call (.params _ _) (hstack ▸ .document)
    · rename_i hblock
      refine .intro (.paragraph hstates ?_ (fun _ => ?_) ?_) rfl hparagraph
      · simp [hkind]
      · simpa using hblock
      · simp [hkind]
  · rename_i hend hnewline hdirective
    refine .intro (.paragraph hstates hend (fun hkind => ?_) ?_) rfl hparagraph
    · exact absurd hkind hdirective
    · exact (decide_eq_false hnewline).symm

theorem stepParams_moves (hstates : parser.states = .params :: rest)
    (hfits : Fits (.params :: rest) parser.draft.stack) :
    Moves symbol parser (stepParams { parser with states := rest } symbol) := by
  obtain ⟨call, position, around, hstack, hbelow⟩ := hfits.of_params
  unfold stepParams
  rw [Draft.top_of_stack hstack, ok_bind]
  cases call with
  | map name entry params =>
    dsimp only
    split
    · rename_i hopens
      refine .intro (.openMap hstates hstack hopens) rfl ?_
      exact hstack ▸ .call (.map (.exactly _ _)) hbelow
    · rename_i hopens
      refine .intro (.noParameters hstates hstack (by simpa using hopens)) rfl ?_
      exact hstack ▸ .call (.closing _ (.reduce _)) hbelow
  | vector name entry args =>
    dsimp only
    split
    · rename_i hopens
      refine .intro (.openVector hstates hstack hopens) rfl ?_
      exact hstack ▸ .call (.vector _ (.exactly _ _)) hbelow
    · rename_i hopens
      split
      · rename_i hstarts
        refine .intro (.oneArgument hstates hstack (by simpa using hopens) hstarts) rfl ?_
        exact hstack ▸ .call (.value (.vector (.reduce _))) hbelow
      · rename_i hstarts
        refine .intro
          (.noArgument hstates hstack (by simpa using hopens) (by simpa using hstarts)) rfl ?_
        exact hstack ▸ .call (.closing _ (.reduce _)) hbelow

theorem stepVector_moves {enclosure : Enclosure}
    (hstates : parser.states = .vector enclosure :: rest)
    (hfits : Fits (.vector enclosure :: rest) parser.draft.stack) :
    Moves symbol parser (stepVector { parser with states := rest } enclosure symbol) := by
  obtain ⟨name, entry, args, position, around, below, hstack, hcloses, hbelow⟩ := hfits.of_vector
  unfold stepVector
  split
  · rename_i hends
    refine .intro (.closeVector hstates hends) rfl ?_
    exact hstack ▸ .call (.closing _ hcloses) hbelow
  · rename_i hends
    split
    · rename_i hkind
      refine .intro (.blank hstates (by simpa using hends) hkind) rfl ?_
      exact hstack ▸ .call (.vector enclosure hcloses) hbelow
    · rename_i hkind
      refine .intro (.argument hstates (by simpa using hends) hkind) rfl ?_
      exact hstack ▸ .call (.value (.vectorMore enclosure hcloses)) hbelow

theorem append_moves {call : Call} {position : Position} {below : List State}
    {around : List (Call × Position)} (hstates : parser.states = .value :: rest)
    (hstack : parser.draft.stack = (call, position) :: around) (hhosts : Hosts call rest below)
    (hbelow : Surrounds below around) (hcontent : isContent symbol.kind = true)
    (hquote : symbol.isPunct '"' = false) :
    Moves symbol parser (do
      let next ← append { parser with states := rest } (.constant (.ofSymbol symbol))
      return (true, next)) := by
  obtain ⟨next, happend, hcompletes⟩ := hhosts.append (.constant (.ofSymbol symbol))
  refine .intro (.constant hstates hcontent hquote hstack happend) ?_ (.call hcompletes hbelow)
  rw [append, Draft.top_of_stack hstack, ok_bind, happend, ok_bind,
    Draft.setTop_of_stack hstack]
  rfl

theorem stepPresentValue_moves (hstates : parser.states = .value :: rest)
    (hfits : Fits (.value :: rest) parser.draft.stack) :
    Moves symbol parser (stepPresentValue { parser with states := rest } symbol) := by
  obtain ⟨call, position, around, below, hstack, hhosts, hbelow⟩ := hfits.of_value
  have hsurrounds : Surrounds rest parser.draft.stack := hstack ▸ .call hhosts hbelow
  unfold stepPresentValue
  split
  · rename_i hkind
    refine .intro (.call hstates hkind) (by rw [openMethod_push, moved_of_states]; rfl) ?_
    exact .call (.params _ _) hsurrounds
  · rename_i hkind
    split
    · rename_i hquote
      refine .intro (.quote hstates hquote) rfl ?_
      exact .call (.vector _ (.exactly _ _)) hsurrounds
    · rename_i hquote
      exact append_moves hstates hstack hhosts hbelow (by simp [hkind, isContent])
        (by simpa using hquote)
  all_goals try
    rename_i hkind
    exact append_moves hstates hstack hhosts hbelow (by simp [hkind, isContent])
      (Symbol.isPunct_of_kind (by simp [hkind]))
  rename_i hdirective hpunct htext hliteral hnumber hsigned hfloat htimestamp hcolor hbool
  refine .intro (.noValue hstates ?_ hdirective) rfl ?_
  · unfold isContent
    split <;> simp_all
  · exact hstack ▸ .call hhosts.completes hbelow

theorem inMap_of_stack {call : Call} {position : Position} {around : List (Call × Position)}
    (hstack : parser.draft.stack = (call, position) :: around) :
    inMap { parser with states := rest } =
      .ok (match call with
        | .map _ _ _ => true
        | .vector _ _ _ => false) := by
  rw [inMap, Draft.top_of_stack hstack, ok_bind]
  cases call <;> rfl

theorem stepValue_moves (hstates : parser.states = .value :: rest)
    (hfits : Fits (.value :: rest) parser.draft.stack) :
    Moves symbol parser (stepValue { parser with states := rest } symbol) := by
  obtain ⟨call, position, around, below, hstack, hhosts, hbelow⟩ := hfits.of_value
  have hpresent : Moves symbol parser _ := stepPresentValue_moves hstates hfits
  unfold stepValue
  split
  · rename_i homission
    rw [inMap_of_stack hstack, ok_bind]
    cases call with
    | vector name entry args => exact hpresent
    | map name entry params =>
      refine .intro (.omitted hstates hstack homission) rfl ?_
      exact hstack ▸ .call hhosts.completes hbelow
  · exact hpresent

theorem stepMap_moves (hstates : parser.states = .map :: rest)
    (hfits : Fits (.map :: rest) parser.draft.stack) :
    Moves symbol parser (stepMap { parser with states := rest } symbol) := by
  obtain ⟨name, entry, params, position, around, below, hstack, hcloses, hbelow⟩ := hfits.of_map
  have hclosing : Fits rest parser.draft.stack := hstack ▸ .call (.closing _ hcloses) hbelow
  unfold stepMap
  split
  · rename_i hkind
    rw [Draft.top_of_stack hstack, ok_bind]
    refine .intro (.name hstates hkind hstack) ?_ ?_
    · dsimp only
      rw [Draft.setTop_of_stack hstack]
      rfl
    · exact .call (.named _ (.map hcloses)) hbelow
  · rename_i hkind
    exact .intro (.noName hstates (.inl hkind)) rfl hclosing
  · rename_i htext hend
    split
    · rename_i hparen
      exact .intro (.noName hstates (.inr hparen)) rfl hclosing
    · rename_i hparen
      refine .intro (.skip hstates htext hend (by simpa using hparen)) rfl ?_
      exact hstack ▸ .call (.map hcloses) hbelow

theorem stepTail_moves (hstates : parser.states = .tail :: rest)
    (hfits : Fits (.tail :: rest) parser.draft.stack) :
    Moves symbol parser (stepTail { parser with states := rest } symbol) := by
  obtain ⟨name, entry, params, position, around, below, hstack, hcloses, hbelow⟩ := hfits.of_tail
  unfold stepTail
  split
  · rename_i hcomma
    refine .intro (.comma hstates hcomma) rfl ?_
    exact hstack ▸ .call (.map hcloses) hbelow
  · rename_i hcomma
    refine .intro (.noComma hstates (by simpa using hcomma)) rfl ?_
    exact hstack ▸ .call (.closing _ hcloses) hbelow

theorem stepExactly_moves {expected : Symbol}
    (hstates : parser.states = .exactly expected :: rest)
    (hfits : Fits (.exactly expected :: rest) parser.draft.stack) :
    Moves symbol parser (stepExactly { parser with states := rest } expected symbol) := by
  unfold stepExactly
  split
  · rename_i hsymbol
    exact .intro (.expected hstates hsymbol) rfl hfits.of_exactly.2
  · rename_i hsymbol
    exact .intro (.unexpected hstates hsymbol) rfl hfits.of_exactly.2

/-- Closing a call takes it off the stack, with its marks joined or its parameters filled. -/
theorem stepReduce_eq {call : Call} {position : Position} {around : List (Call × Position)}
    (hstack : parser.draft.stack = (call, position) :: around) :
    stepReduce { parser with states := rest } = (do
      let draft ← Draft.merged { parser.draft with stack := (call.closed, position) :: around }
      return (false, parser.moved call.closingCauses rest draft)) := by
  rw [stepReduce, Draft.top_of_stack hstack, ok_bind]
  cases call with
  | vector name entry args =>
    dsimp only
    rw [Draft.setTop_of_stack hstack, pure_bind]
    rfl
  | map name entry params =>
    simp only [reportAll_eq, moved, pure_bind, Call.closed, Call.closingCauses,
      Draft.setTop_of_stack hstack, List.map_append, ← List.append_toArray, Array.append_assoc]

theorem stepReduce_moves (hstates : parser.states = .reduce :: rest)
    (hfits : Fits (.reduce :: rest) parser.draft.stack) :
    Moves symbol parser (stepReduce { parser with states := rest }) := by
  obtain ⟨call, position, around, hstack, hbelow⟩ := hfits.of_reduce
  rw [stepReduce_eq hstack]
  cases hbelow with
  | document =>
    rw [Draft.merged_of_single rfl, ok_bind]
    exact .intro (.declare hstates hstack) rfl .list
  | call hhosts hbelow =>
    obtain ⟨next, happend, hcompletes⟩ := hhosts.append (.call call.closed)
    rw [Draft.merged_of_attach rfl happend, ok_bind]
    exact .intro (.attach hstates hstack happend) rfl (.call hcompletes hbelow)

/-- From stacks that fit, an offer is one of the moves. -/
theorem put_moves (hfits : Fits parser.states parser.draft.stack) :
    Moves symbol parser (put symbol parser) := by
  unfold put
  split
  · rename_i hkind
    exact .intro (.fileMark hkind) rfl hfits
  · rename_i hkind
    split
    · rename_i line hline
      exact .intro (.lineMark hkind (by rw [hline]; rfl)) rfl hfits
    · rename_i hline
      exact .intro (.lineMark hkind (by rw [hline]; rfl)) rfl hfits
  · split
    · rename_i hstates
      have hfits' : Fits [] parser.draft.stack := hstates ▸ hfits
      refine .intro (.pastEnd hstates) ?_ hfits'
      split
      · rw [← hstates]
        rfl
      · rw [← hstates]
        rfl
    · rename_i state rest hstates
      rw [hstates] at hfits
      cases state with
      | body => exact stepBody_moves hstates hfits
      | list => exact stepList_moves hstates hfits
      | params => exact stepParams_moves hstates hfits
      | vector enclosure => exact stepVector_moves hstates hfits
      | value => exact stepValue_moves hstates hfits
      | map => exact stepMap_moves hstates hfits
      | tail => exact stepTail_moves hstates hfits
      | exactly expected => exact stepExactly_moves hstates hfits
      | reduce => exact stepReduce_moves hstates hfits

end

/-- A mark is taken at once and moves the position. -/
theorem put_mark {symbol : Symbol}
    (hkind : symbol.kind = .fileMark ∨ symbol.kind = .lineMark) (parser : Parser) :
    ∃ position, put symbol parser = .ok (true, { parser with position }) := by
  unfold put
  rcases hkind with hkind | hkind
  · rw [hkind]
    exact ⟨_, rfl⟩
  · rw [hkind]
    dsimp only
    split
    · exact ⟨_, rfl⟩
    · exact ⟨_, rfl⟩

/-! ## Declarations and diagnostics -/

/-- The declarations and the diagnostics so far. -/
def outcome (parser : Parser) : List (Decl Call) × List Diagnostic :=
  (parser.draft.decls.toList, parser.diagnostics.toList)

theorem grows_moved {parser : Parser} {causes : List Cause} (states : List State)
    {draft : Draft Call} (hdecls : parser.draft.decls.toList <+: draft.decls.toList)
    (hcauses : ∀ cause ∈ causes, cause.isMistake = true) :
    Grows parser.outcome (parser.moved causes states draft).outcome := by
  refine ⟨hdecls, causes.map (Diagnostic.mk parser.position), by simp [outcome], ?_⟩
  rw [List.forall_mem_map]
  exact hcauses

theorem isMistake_unknownCauses (name : String) :
    ∀ cause ∈ unknownCauses name, cause.isMistake = true := by
  unfold unknownCauses
  split <;> simp [Cause.isMistake]

theorem isMistake_closingCauses (call : Call) :
    ∀ cause ∈ call.closingCauses, cause.isMistake = true := by
  cases call with
  | vector name entry args => simp [Call.closingCauses]
  | map name entry params =>
    simp only [Call.closingCauses, List.forall_mem_append, List.forall_mem_map]
    exact ⟨fun _ _ => rfl, fun _ _ => rfl⟩

/-- No move withdraws a declaration or a diagnostic, and what it reports are mistakes. -/
theorem Move.grows {symbol : Symbol} {parser next : Parser} {taken : Bool}
    (hmove : Move symbol parser taken next) : Grows parser.outcome next.outcome := by
  cases hmove with
  | fileMark => exact .refl _
  | lineMark => exact .refl _
  | finish => exact .refl _
  | pastEnd =>
    refine grows_moved _ (List.prefix_refl _) ?_
    split <;> simp [Cause.isMistake]
  | block => exact grows_moved _ (List.prefix_refl _) (isMistake_unknownCauses _)
  | call => exact grows_moved _ (List.prefix_refl _) (isMistake_unknownCauses _)
  | declare => exact grows_moved _ (by simp) (isMistake_closingCauses _)
  | attach => exact grows_moved _ (List.prefix_refl _) (isMistake_closingCauses _)
  | _ => exact grows_moved _ (List.prefix_refl _) (by simp [Cause.isMistake])

/-! ## Series of moves -/

/-- The stacks fit, and no state is left just when the end of the data was taken. -/
structure Steady (parser : Parser) : Prop where
  fits : Fits parser.states parser.draft.stack
  finished : parser.finished = true ↔ parser.states = []

theorem steady_start (file : String) (retryLimit : Nat) : Steady (start file retryLimit) :=
  ⟨.list, by simp [start]⟩

/-- Only the move that ends the document finishes it. -/
theorem Move.steady {symbol : Symbol} {parser next : Parser} {taken : Bool}
    (hmove : Move symbol parser taken next) (hsteady : Steady parser)
    (hfits : Fits next.states next.draft.stack) : Steady next := by
  refine ⟨hfits, ?_⟩
  cases hmove with
  | fileMark => exact hsteady.finished
  | lineMark => exact hsteady.finished
  | pastEnd hstates => simpa [hstates] using hsteady.finished
  | finish hstates => simp [(hstates ▸ hsteady.fits).of_body.1]
  | _ hstates =>
    -- the other moves need a state other than the lowest, and leave the ones beneath it
    have hrest := hstates ▸ hsteady.fits
    have hopen := hsteady.finished
    simp_all [inParens, Fits.rest_ne_nil hrest]

/-- The parser that has been given up on. -/
def giveUp (parser : Parser) : Parser :=
  { parser.report (.retryLimit parser.retryLimit) with abandoned := true }

/-- A series of offers of the same symbol, which ends when the symbol is taken or the parser is
not asked again. -/
inductive Series (symbol : Symbol) : Parser → Bool → Parser → Prop where
  | taken {parser next : Parser} (hmove : Move symbol parser true next) (hsteady : Steady next) :
      Series symbol parser true next
  | stopped (parser : Parser) : Series symbol parser false parser
  | declined {parser between last : Parser} {taken : Bool}
      (hmove : Move symbol parser false between) (hsteady : Steady between)
      (hrest : Series symbol between taken last) : Series symbol parser taken last

theorem offerTimes_series (symbol : Symbol) (attempts : Nat) {parser : Parser}
    (hsteady : Steady parser) :
    ∃ taken last, offerTimes (put symbol) attempts parser = .ok (taken, last) ∧
      Series symbol parser taken last ∧ Steady last := by
  induction attempts generalizing parser with
  | zero => exact ⟨false, parser, rfl, .stopped parser, hsteady⟩
  | succ attempts ih =>
    obtain ⟨taken, next, hput, hmove, hfits⟩ : Moves symbol parser _ := put_moves hsteady.fits
    have hnext := hmove.steady hsteady hfits
    cases taken with
    | true => exact ⟨true, next, offerTimes_succ_of_taken attempts hput, .taken hmove hnext, hnext⟩
    | false =>
      obtain ⟨taken, last, hoffer, hseries, hlast⟩ := ih hnext
      refine ⟨taken, last, ?_, .declined hmove hnext hseries, hlast⟩
      rw [offerTimes_succ_of_declined attempts hput, hoffer]

theorem steady_giveUp {parser : Parser} (hsteady : Steady parser) : Steady parser.giveUp :=
  ⟨hsteady.fits, hsteady.finished⟩

/-- Feeding a symbol never fails.  It is a series of offers, after which a parser that has not
taken the symbol is given up on. -/
theorem feed_series (symbol : Symbol) {parser : Parser} (hsteady : Steady parser)
    (habandoned : parser.abandoned = false) :
    ∃ taken last, feed symbol parser = .ok (if taken then last else last.giveUp) ∧
      Series symbol parser taken last ∧ Steady last := by
  obtain ⟨taken, last, hoffer, hseries, hlast⟩ :=
    offerTimes_series symbol (max parser.retryLimit 1) hsteady
  refine ⟨taken, last, ?_, hseries, hlast⟩
  rw [feed, if_neg (by simp [habandoned]), offer, hoffer, ok_bind]
  cases taken <;> rfl

/-- What every move preserves, a series of offers preserves. -/
theorem Series.preserves {symbol : Symbol} (Inv : Parser → Prop)
    (hmoves : ∀ {parser taken next}, Inv parser → Move symbol parser taken next → Inv next)
    {parser last : Parser} {taken : Bool} (hseries : Series symbol parser taken last)
    (hinv : Inv parser) : Inv last := by
  induction hseries with
  | taken hmove _ => exact hmoves hinv hmove
  | stopped => exact hinv
  | declined hmove _ _ ih => exact ih (hmoves hinv hmove)

theorem feed_of_abandoned {symbol : Symbol} {parser : Parser}
    (habandoned : parser.abandoned = true) : feed symbol parser = .ok parser := by
  rw [feed, if_pos habandoned]
  rfl

/-- A symbol that is taken at once needs no second offer. -/
theorem feed_of_taken {symbol : Symbol} {parser next : Parser}
    (habandoned : parser.abandoned = false) (htaken : put symbol parser = .ok (true, next)) :
    feed symbol parser = .ok next := by
  rw [feed, if_neg (by simp [habandoned]), offer_of_taken _ htaken, ok_bind]
  rfl

/-- What every move and giving up preserve, feeding a symbol preserves without failing. -/
theorem feed_preserves (Inv : Parser → Prop) (symbol : Symbol)
    (hmoves : ∀ {parser taken next}, Inv parser → Move symbol parser taken next → Inv next)
    (hgiveUp : ∀ {parser}, Inv parser → Inv parser.giveUp) {parser : Parser}
    (hsteady : Steady parser) (hinv : Inv parser) :
    ∃ next, feed symbol parser = .ok next ∧ Steady next ∧ Inv next := by
  cases habandoned : parser.abandoned with
  | true => exact ⟨parser, feed_of_abandoned habandoned, hsteady, hinv⟩
  | false =>
    obtain ⟨taken, last, hfeed, hseries, hlast⟩ := feed_series symbol hsteady habandoned
    have hinv' := hseries.preserves Inv hmoves hinv
    cases taken with
    | true => exact ⟨last, hfeed, hlast, hinv'⟩
    | false => exact ⟨last.giveUp, hfeed, steady_giveUp hlast, hgiveUp hinv'⟩

end Parser
end Docpress.Document
