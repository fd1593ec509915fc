import Docpress.Proofs.Completeness
import Docpress.Proofs.Grammar

/-!
# Parsing rendered documents

Feeding the symbols of a document to the parser gives back the document, without diagnostics.

The parser closes a call only when it is offered the next symbol, so between two symbols it may
lag behind: `Lags` says that at most one offer of whatever comes next has to be declined before
the parser is where the grammar would have it.  The induction over the document is on this
relation.  An inline where a value is expected adds its value to the innermost call
(`Inline.Fed`), inlines in an enclosure add theirs (`Inline.AllFed`), fields add parameters
(`Field.AllFed`), and each block is declared.
-/

namespace Docpress.Document

namespace Parser

/-! ## Where the parser is -/

/-- A parser without diagnostics, in the given place of a document. -/
def view (file : String) (limit : Nat) (states : List State) (stack : List (Call × Position))
    (decls : Array (Decl Call)) : Parser :=
  { states, draft := ⟨decls, stack⟩, position := .start file, retryLimit := limit }

/-- The symbol is no mark that moves the position. -/
def IsPlain (symbol : Symbol) : Prop :=
  symbol.kind ≠ .fileMark ∧ symbol.kind ≠ .lineMark

/-- Feeding the symbols leads from one parser to the other. -/
def Feeds (parser : Parser) (symbols : List Symbol) (last : Parser) : Prop :=
  symbols.foldlM (fun parser symbol => feed symbol parser) parser = .ok last

theorem Feeds.nil (parser : Parser) : Feeds parser [] parser := rfl

theorem Feeds.append {first second : List Symbol} {parser between last : Parser}
    (hfirst : Feeds parser first between) (hsecond : Feeds between second last) :
    Feeds parser (first ++ second) last := by
  rw [Feeds, List.foldlM_append, hfirst, ok_bind, hsecond]

theorem Feeds.cons {symbol : Symbol} {symbols : List Symbol} {parser between last : Parser}
    (hfeed : feed symbol parser = .ok between) (hrest : Feeds between symbols last) :
    Feeds parser (symbol :: symbols) last := by
  rw [Feeds, List.foldlM_cons, hfeed, ok_bind, hrest]

section

variable {file : String} {limit : Nat} {symbol : Symbol} {rest : List State}
  {stack below : List (Call × Position)} {decls : Array (Decl Call)}
  {position place : Position}

/-- A symbol that is taken after a few offers is taken by feeding it. -/
theorem feed_of_declined {parser between last : Parser} {count : Nat}
    (hlimit : parser.retryLimit = limit) (habandoned : parser.abandoned = false)
    (hdeclined : Declined (put symbol) count parser between)
    (htaken : put symbol between = .ok (true, last)) (hcount : count < limit) :
    feed symbol parser = .ok last := by
  rw [feed, if_neg (by simp [habandoned]), hlimit, offer_of_declined hdeclined htaken hcount]
  rfl

/-- A symbol that is taken at once is taken by feeding it. -/
theorem feed_view {states : List State} {last : Parser}
    (htaken : put symbol (view file limit states stack decls) = .ok (true, last))
    (hlimit : 16 ≤ limit) : feed symbol (view file limit states stack decls) = .ok last :=
  feed_of_declined rfl rfl (.none _) htaken (by show 0 < limit; omega)

/-- At most one offer is declined before the parser is where it is said to be. -/
structure Lags (parser : Parser) (limit : Nat) (place : Parser) : Prop where
  retryLimit : parser.retryLimit = limit
  abandoned : parser.abandoned = false
  declined : ∃ count ≤ 1, ∀ symbol, IsPlain symbol → Declined (put symbol) count parser place

theorem Lags.none (states : List State) :
    Lags (view file limit states stack decls) limit (view file limit states stack decls) :=
  ⟨rfl, rfl, 0, by omega, fun _ _ => .none _⟩

/-- From where it lags, the parser takes a symbol that it takes after a few more offers. -/
theorem Lags.feed {parser target between last : Parser} {count : Nat}
    (hlags : Lags parser limit target) (hplain : IsPlain symbol)
    (hdeclined : Declined (put symbol) count target between)
    (htaken : put symbol between = .ok (true, last)) (hcount : count + 1 < limit) :
    feed symbol parser = .ok last := by
  obtain ⟨hlimit, habandoned, lag, hlag, hfirst⟩ := hlags
  exact feed_of_declined hlimit habandoned ((hfirst symbol hplain).trans hdeclined) htaken
    (by omega)

/-! ## Single offers -/

/-- The topmost state is offered every symbol but the marks. -/
theorem put_plain {parser : Parser} {state : State} (hplain : IsPlain symbol)
    (hstates : parser.states = state :: rest) :
    put symbol parser = step { parser with states := rest } state symbol := by
  obtain ⟨hfile, hline⟩ := hplain
  unfold put
  split
  · exact absurd ‹_› hfile
  · exact absurd ‹_› hline
  · rw [hstates]

theorem put_view (hplain : IsPlain symbol) (state : State) :
    put symbol (view file limit (state :: rest) stack decls) =
      step (view file limit rest stack decls) state symbol :=
  put_plain hplain rfl

theorem put_argument {enclosure : Enclosure} (hplain : IsPlain symbol)
    (hcloses : closes enclosure symbol = false) (hkind : symbol.kind ≠ .newline) :
    put symbol (view file limit (.vector enclosure :: rest) stack decls) =
      .ok (false, view file limit (.value :: .vector enclosure :: rest) stack decls) := by
  rw [put_view hplain, step, stepVector, if_neg (by simp [hcloses]), if_neg hkind]
  rfl

theorem put_closeVector {enclosure : Enclosure} (hplain : IsPlain symbol)
    (hcloses : closes enclosure symbol = true) :
    put symbol (view file limit (.vector enclosure :: rest) stack decls) =
      .ok (false, view file limit rest stack decls) := by
  rw [put_view hplain, step, stepVector, if_pos hcloses]

theorem put_expected (hplain : IsPlain symbol) :
    put symbol (view file limit (.exactly symbol :: rest) stack decls) =
      .ok (true, view file limit rest stack decls) := by
  rw [put_view hplain, step, stepExactly, if_pos rfl]

/-- Closing a call takes it off the stack. -/
theorem put_reduce {call : Call} (hplain : IsPlain symbol) (hcauses : call.closingCauses = []) :
    put symbol (view file limit (.reduce :: rest) ((call, position) :: below) decls) = (do
      let draft ← Draft.merged ⟨decls, (call.closed, position) :: below⟩
      return (false, view file limit rest draft.stack draft.decls)) := by
  rw [put_view hplain, step]
  have hreduce : stepReduce (view file limit rest ((call, position) :: below) decls) = _ :=
    @stepReduce_eq (view file limit rest ((call, position) :: below) decls) rest _ _ _ rfl
  rw [hreduce, hcauses]
  rfl

/-- Closing a call attaches it to the one around it. -/
theorem put_attach {call parent next : Call} (hplain : IsPlain symbol)
    (hcauses : call.closingCauses = []) (happend : parent.append (.call call.closed) = .ok next) :
    put symbol
        (view file limit (.reduce :: rest) ((call, position) :: (parent, place) :: below) decls) =
      .ok (false, view file limit rest ((next, place) :: below) decls) := by
  rw [put_reduce hplain hcauses, Draft.merged_of_attach rfl happend]
  rfl

/-- Closing the outermost call declares it. -/
theorem put_declare {call : Call} (hplain : IsPlain symbol) (hcauses : call.closingCauses = []) :
    put symbol (view file limit (.reduce :: rest) [(call, position)] decls) =
      .ok (false, view file limit rest [] (decls.push ⟨call.closed, position⟩)) := by
  rw [put_reduce hplain hcauses, Draft.merged_of_single rfl]
  rfl

theorem isPlain_punct (c : Char) : IsPlain (.punct c) :=
  ⟨by simp [Symbol.punct], by simp [Symbol.punct]⟩

/-- Opening a call of a method of the catalogue. -/
theorem openMethod_view {name : String} {entry : Entry} (hlookup : lookup? name = some entry)
    (states : List State) :
    ((view file limit rest stack decls).openMethod name).push states =
      view file limit (states ++ rest) ((.ofName name, .start file) :: stack) decls := by
  rw [openMethod_push, unknownCauses, hlookup]
  rfl

/-- A value is left out only in a map call, where a parenthesis or a comma stands. -/
theorem stepValue_of_present {parser : Parser} {call : Call} {around : List (Call × Position)}
    (hstack : parser.draft.stack = (call, position) :: around)
    (hpresent : isOmission symbol = false ∨ ∃ name entry args, call = .vector name entry args) :
    stepValue parser symbol = stepPresentValue parser symbol := by
  unfold stepValue
  split
  · rename_i homission
    rcases hpresent with hpresent | ⟨name, entry, args, rfl⟩
    · rw [isOmission] at hpresent
      rw [hpresent] at homission
      cases homission
    · rw [inMap, Draft.top_of_stack hstack]
      rfl
  · rfl

theorem isOmission_of_kind (hkind : symbol.kind ≠ .punct) : isOmission symbol = false := by
  rw [isOmission, Symbol.isPunct_of_kind hkind, Symbol.isPunct_of_kind hkind]
  rfl

theorem put_call {name : String} {entry : Entry} {host : Call}
    (hlookup : lookup? name = some entry) :
    put ⟨.directive, name⟩ (view file limit (.value :: rest) ((host, position) :: below) decls) =
      .ok (true, view file limit (.params :: rest)
        ((.ofName name, .start file) :: (host, position) :: below) decls) := by
  rw [put_view ⟨by simp, by simp⟩, step,
    stepValue_of_present rfl (.inl (isOmission_of_kind (by simp))), stepPresentValue]
  simp only [openMethod_view hlookup]
  rfl

theorem put_quote {host : Call} :
    put (.punct '"') (view file limit (.value :: rest) ((host, position) :: below) decls) =
      .ok (true, view file limit (.vector .quote :: .exactly (.punct '"') :: .reduce :: rest)
        ((.ofName Document.quote, .start file) :: (host, position) :: below) decls) := by
  rw [put_view (isPlain_punct _), step, stepValue_of_present rfl (.inl (by decide))]
  rfl

/-- The marks that structure a document are no constants. -/
theorem isPunct_of_isConstant {c : Char} (hconstant : isConstant symbol = true)
    (hmark : [".", ",", ";", ":", "?", "!"].contains (String.singleton c) = false) :
    symbol.isPunct c = false := by
  apply decide_eq_false
  rintro rfl
  simp only [isConstant, Symbol.punct, hmark] at hconstant
  simp [isContent] at hconstant

theorem isContent_of_isConstant (hconstant : isConstant symbol = true) :
    isContent symbol.kind = true :=
  (Bool.and_eq_true_iff.1 hconstant).1

theorem isPlain_of_isContent (hcontent : isContent symbol.kind = true) : IsPlain symbol := by
  constructor <;> intro hkind <;> rw [hkind] at hcontent <;> cases hcontent

/-- A constant is added to the innermost call. -/
theorem put_constant {host next : Call} (hconstant : isConstant symbol = true)
    (hpresent : symbol.kind ≠ .punct ∨ ∃ name entry args, host = .vector name entry args)
    (happend : host.append (.constant (.ofSymbol symbol)) = .ok next) :
    put symbol (view file limit (.value :: rest) ((host, position) :: below) decls) =
      .ok (true, view file limit rest ((next, position) :: below) decls) := by
  have hcontent := isContent_of_isConstant hconstant
  have hquote : symbol.isPunct '"' = false := isPunct_of_isConstant hconstant (by decide)
  have hadded : (do
      let next ← append (view file limit rest ((host, position) :: below) decls)
        (.constant (.ofSymbol symbol))
      return (true, next)) =
      (.ok (true, view file limit rest ((next, position) :: below) decls) : Except Fault _) := by
    rw [append, Draft.top_of_stack rfl, ok_bind, happend, ok_bind]
    rfl
  rw [put_view (isPlain_of_isContent hcontent), step,
    stepValue_of_present rfl (hpresent.imp_left isOmission_of_kind), stepPresentValue]
  split
  · rename_i hkind
    rw [hkind] at hcontent
    cases hcontent
  · rw [hquote]
    exact hadded
  all_goals try exact hadded
  rename_i hdirective hpunct htext hliteral hnumber hsigned hfloat htimestamp hcolor hbool
  unfold isContent at hcontent
  split at hcontent <;> simp_all

/-! ### Arguments and parameters -/

theorem put_openVector {name : String} {entry : Option Entry} {args : List Value} :
    put (.punct '(')
        (view file limit (.params :: rest) ((.vector name entry args, position) :: below) decls) =
      .ok (true, view file limit (inParens (.vector .paren) rest)
        ((.vector name entry args, position) :: below) decls) := rfl

theorem put_openMap {name : String} {entry : Option Entry} {params : List Param} :
    put (.punct '(')
        (view file limit (.params :: rest) ((.map name entry params, position) :: below) decls) =
      .ok (true, view file limit (inParens .map rest)
        ((.map name entry params, position) :: below) decls) := rfl

theorem put_name {name key : String} {entry : Option Entry} {params : List Param} :
    put ⟨.text, key⟩
        (view file limit (.map :: rest) ((.map name entry params, position) :: below) decls) =
      .ok (true, view file limit (.exactly (.punct ':') :: .value :: .tail :: rest)
        ((.map name entry (params ++ [Param.pending key]), position) :: below) decls) := rfl

theorem put_noName :
    put (.punct ')') (view file limit (.map :: rest) stack decls) =
      .ok (false, view file limit rest stack decls) := rfl

theorem put_comma :
    put (.punct ',') (view file limit (.tail :: rest) stack decls) =
      .ok (true, view file limit (.map :: rest) stack decls) := rfl

theorem put_noComma :
    put (.punct ')') (view file limit (.tail :: rest) stack decls) =
      .ok (false, view file limit rest stack decls) := rfl

/-! ### The end of a call -/

/-- After its last symbol a call is closed by the next offer. -/
theorem lags_of_reduce {call host next : Call} (hcauses : call.closingCauses = [])
    (happend : host.append (.call call.closed) = .ok next) :
    Lags (view file limit (.reduce :: rest) ((call, position) :: (host, place) :: below) decls)
      limit (view file limit rest ((next, place) :: below) decls) :=
  ⟨rfl, rfl, 1, by omega, fun _ hplain => .more (put_attach hplain hcauses happend) (.none _)⟩

/-- The symbol that ends a call is taken. -/
theorem feed_end {parser : Parser} {count : Nat} {c : Char} {states : List State}
    (hlimit : parser.retryLimit = limit) (habandoned : parser.abandoned = false)
    (hdeclined : Declined (put (.punct c)) count parser
      (view file limit (.exactly (.punct c) :: states) stack decls))
    (hcount : count < limit) :
    feed (.punct c) parser = .ok (view file limit states stack decls) :=
  feed_of_declined hlimit habandoned hdeclined (put_expected (isPlain_punct c)) hcount

/-- The symbol that ends the arguments of a call is taken. -/
theorem Lags.feed_end {parser : Parser} {enclosure : Enclosure} {c : Char} {states : List State}
    (hlags : Lags parser limit
      (view file limit (.vector enclosure :: .exactly (.punct c) :: states) stack decls))
    (hcloses : closes enclosure (.punct c) = true) (hlimit : 16 ≤ limit) :
    Parser.feed (.punct c) parser = .ok (view file limit states stack decls) :=
  hlags.feed (isPlain_punct c) (.more (put_closeVector (isPlain_punct c) hcloses) (.none _))
    (put_expected (isPlain_punct c)) (by omega)

end

end Parser

/-! ## Inlines and fields -/

open Docpress.Document.Parser

/-- The first symbol of the inline. -/
def Inline.first : Inline → Symbol
  | .constant symbol => symbol
  | .quote _ => .punct '"'
  | .vector name _ => ⟨.directive, name⟩
  | .map name _ => ⟨.directive, name⟩

/-- Whether the inline may stand in the enclosure. -/
def Inline.fitsIn (enclosure : Enclosure) (inline : Inline) : Bool :=
  match enclosure with
  | .paragraph => !inline.endsParagraph
  | .paren => true
  | .quote => !inline.isQuote

/-- Where a value is expected, the symbols of the inline add its value to the innermost call. -/
def Inline.Fed (file : String) (limit : Nat) (inline : Inline) : Prop :=
  ∀ (parser : Parser) (count : Nat) (rest : List State) (host next : Call) (position : Position)
    (below : List (Call × Position)) (decls : Array (Decl Call)),
    parser.retryLimit = limit → parser.abandoned = false →
    Declined (put inline.first) count parser
      (view file limit (.value :: rest) ((host, position) :: below) decls) →
    count ≤ 2 → (inline.isMark = false ∨ ∃ name entry args, host = .vector name entry args) →
    host.append inline.value = .ok next →
    ∃ last, Feeds parser inline.symbols last ∧
      Lags last limit (view file limit rest ((next, position) :: below) decls)

/-- In an enclosure, the symbols of the inlines add their values to the innermost call. -/
def Inline.AllFed (file : String) (limit : Nat) (inner : List Inline) : Prop :=
  ∀ (enclosure : Enclosure), (∀ inline ∈ inner, inline.fitsIn enclosure = true) →
    ∀ (parser : Parser) (name : String) (entry : Option Entry) (args : List Value)
      (rest : List State) (position : Position) (below : List (Call × Position))
      (decls : Array (Decl Call)),
      Lags parser limit (view file limit (.vector enclosure :: rest)
        ((.vector name entry args, position) :: below) decls) →
      ∃ last, Feeds parser (Inline.allSymbols inner) last ∧
        Lags last limit (view file limit (.vector enclosure :: rest)
          ((.vector name entry (args ++ Inline.values inner), position) :: below) decls)

/-- The symbols of the field add its parameter to the innermost call. -/
def Field.Fed (file : String) (limit : Nat) (field : Field) : Prop :=
  ∀ (name : String) (entry : Option Entry) (params : List Param) (rest : List State)
    (position : Position) (below : List (Call × Position)) (decls : Array (Decl Call)),
    ∃ last, Feeds (view file limit (.map :: rest)
        ((.map name entry params, position) :: below) decls) field.symbols last ∧
      Lags last limit (view file limit (.tail :: rest)
        ((.map name entry (params ++ [field.param]), position) :: below) decls)

/-- After a parameter, the symbols of the fields add theirs to the innermost call. -/
def Field.AllFed (file : String) (limit : Nat) (fields : List Field) : Prop :=
  ∀ (parser : Parser) (name : String) (entry : Option Entry) (params : List Param)
    (rest : List State) (position : Position) (below : List (Call × Position))
    (decls : Array (Decl Call)),
    Lags parser limit (view file limit (.tail :: rest)
      ((.map name entry params, position) :: below) decls) →
    ∃ last, Feeds parser (Field.moreSymbols fields) last ∧
      Lags last limit (view file limit (.tail :: rest)
        ((.map name entry (params ++ Field.params fields), position) :: below) decls)

section

variable {file : String} {limit : Nat}

theorem Inline.fed_constant {symbol : Symbol} (hlimit : 16 ≤ limit)
    (hconstant : isConstant symbol = true) : Inline.Fed file limit (.constant symbol) := by
  intro parser count rest host next position below decls hretry habandoned hdeclined hcount
    hpresent happend
  have hput : put symbol (view file limit (.value :: rest) ((host, position) :: below) decls) = _ :=
    put_constant hconstant (hpresent.imp_left fun hmark => by simpa [Inline.isMark] using hmark)
      happend
  have hfeed := feed_of_declined hretry habandoned hdeclined hput (by omega)
  exact ⟨_, .cons hfeed (.nil _), .none rest⟩

/-- Arguments up to the symbol that ends them make a call complete. -/
theorem feeds_arguments (enclosure : Enclosure) (c : Char) {parser : Parser} {inner : List Inline}
    {name : String} {entry : Option Entry} {rest : List State} {host next : Call}
    {position place : Position} {below : List (Call × Position)} {decls : Array (Decl Call)}
    (hlimit : 16 ≤ limit) (hinner : Inline.AllFed file limit inner)
    (hfits : ∀ inline ∈ inner, inline.fitsIn enclosure = true)
    (hlags : Lags parser limit
      (view file limit (.vector enclosure :: .exactly (.punct c) :: .reduce :: rest)
        ((.vector name entry [], position) :: (host, place) :: below) decls))
    (hcloses : closes enclosure (.punct c) = true)
    (happend : host.append (.call (.vector name entry (joinMarks (Inline.values inner)))) =
      .ok next) :
    ∃ last, Feeds parser (Inline.allSymbols inner ++ [.punct c]) last ∧
      Lags last limit (view file limit rest ((next, place) :: below) decls) := by
  obtain ⟨between, hfeeds, hbetween⟩ := hinner enclosure hfits _ _ _ _ _ _ _ _ hlags
  rw [List.nil_append] at hbetween
  have hfeed := hbetween.feed_end hcloses hlimit
  refine ⟨_, hfeeds.append (.cons hfeed (.nil _)), ?_⟩
  rw [joinMarks_eq_coalesce] at happend
  exact lags_of_reduce rfl happend

theorem Inline.fed_quote {inner : List Inline} (hlimit : 16 ≤ limit)
    (hquotes : ∀ inline ∈ inner, inline.isQuote = false)
    (hinner : Inline.AllFed file limit inner) : Inline.Fed file limit (.quote inner) := by
  intro parser count rest host next position below decls hretry habandoned hdeclined hcount
    _ happend
  have hfeed := feed_of_declined hretry habandoned hdeclined put_quote (by omega)
  have hfits : ∀ inline ∈ inner, inline.fitsIn .quote = true := fun inline hmem => by
    simp [Inline.fitsIn, hquotes inline hmem]
  obtain ⟨last, hfeeds, hlast⟩ :=
    feeds_arguments .quote '"' hlimit hinner hfits (.none _) (by decide) happend
  exact ⟨last, .cons hfeed hfeeds, hlast⟩

theorem Inline.fed_vector {name : String} {inner : List Inline} (hlimit : 16 ≤ limit)
    (hstyle : isOfStyle .vector name = true) (hinner : Inline.AllFed file limit inner) :
    Inline.Fed file limit (.vector name inner) := by
  intro parser count rest host next position below decls hretry habandoned hdeclined hcount
    _ happend
  obtain ⟨entry, hlookup, _⟩ := isOfStyle_eq_true hstyle
  have hname := feed_of_declined hretry habandoned hdeclined (put_call hlookup)
    (Nat.lt_of_le_of_lt hcount (by omega))
  rw [ofName_of_vector hstyle] at hname
  obtain ⟨last, hfeeds, hlast⟩ :=
    feeds_arguments .paren ')' hlimit hinner (fun _ _ => rfl) (.none _) (by decide) happend
  exact ⟨last, .cons hname (.cons (feed_view put_openVector hlimit) hfeeds), hlast⟩

/-- Parameters up to the closing parenthesis are added to the innermost call. -/
theorem feeds_fields {fields : List Field} {name : String} {entry : Option Entry}
    {rest : List State} {position : Position} {below : List (Call × Position)}
    {decls : Array (Decl Call)} (hlimit : 16 ≤ limit)
    (hfirst : ∀ field ∈ fields.head?, Field.Fed file limit field)
    (hmore : Field.AllFed file limit fields.tail) :
    Feeds (view file limit (inParens .map rest) ((.map name entry [], position) :: below) decls)
      (Field.allSymbols fields ++ [.punct ')'])
      (view file limit (.reduce :: rest)
        ((.map name entry (Field.params fields), position) :: below) decls) := by
  cases fields with
  | nil =>
    exact .cons (feed_end rfl rfl (.more put_noName (.none _)) (by show 1 < limit; omega)) (.nil _)
  | cons field fields =>
    obtain ⟨between, hfield, hbetween⟩ := hfirst field rfl name entry []
      (.exactly (.punct ')') :: .reduce :: rest) position below decls
    obtain ⟨last, hrest, hlast⟩ := hmore _ _ _ _ _ _ _ _ hbetween
    have hclose := hlast.feed (isPlain_punct ')') (.more put_noComma (.none _))
      (put_expected (isPlain_punct ')')) (by omega)
    exact (hfield.append hrest).append (.cons hclose (.nil _))

theorem Inline.fed_map {name : String} {fields : List Field} (hlimit : 16 ≤ limit)
    (hstyle : isOfStyle .map name = true) (hrequired : givesRequired name fields = true)
    (hfirst : ∀ field ∈ fields.head?, Field.Fed file limit field)
    (hmore : Field.AllFed file limit fields.tail) :
    Inline.Fed file limit (.map name fields) := by
  intro parser count rest host next position below decls hretry habandoned hdeclined hcount
    _ happend
  obtain ⟨entry, hlookup, _⟩ := isOfStyle_eq_true hstyle
  have hname := feed_of_declined hretry habandoned hdeclined (put_call hlookup)
    (Nat.lt_of_le_of_lt hcount (by omega))
  rw [ofName_of_map hstyle] at hname
  obtain ⟨hcauses, hclosed⟩ := closed_params hrequired
  refine ⟨_, .cons hname (.cons (feed_view put_openMap hlimit)
    (feeds_fields hlimit hfirst hmore)), ?_⟩
  exact lags_of_reduce hcauses (by rw [hclosed]; exact happend)

theorem Field.fed_mk {key : String} {value : Inline} (hlimit : 16 ≤ limit)
    (hmark : value.isMark = false) (hvalue : value.Fed file limit) :
    Field.Fed file limit (.mk key value) := by
  intro name entry params rest position below decls
  have hname : feed ⟨.text, key⟩ (view file limit (.map :: rest)
      ((.map name entry params, position) :: below) decls) = _ := feed_view put_name hlimit
  have hcolon : feed (.punct ':') (view file limit (.exactly (.punct ':') :: .value :: .tail :: rest)
      ((.map name entry (params ++ [Param.pending key]), position) :: below) decls) = _ :=
    feed_view (put_expected (isPlain_punct ':')) hlimit
  have happend := Call.append_map name entry params key value.value
  rw [asParameter_value] at happend
  obtain ⟨last, hfeeds, hlast⟩ :=
    hvalue _ 0 _ _ _ _ _ _ rfl rfl (.none _) (by omega) (.inl hmark) happend
  exact ⟨last, .cons hname (.cons hcolon hfeeds), hlast⟩

theorem Field.allFed_nil : Field.AllFed file limit [] := by
  intro parser name entry params rest position below decls hlags
  refine ⟨parser, .nil parser, ?_⟩
  rwa [Field.params, List.append_nil]

theorem Field.allFed_cons {field : Field} {fields : List Field} (hlimit : 16 ≤ limit)
    (hfield : field.Fed file limit) (hfields : Field.AllFed file limit fields) :
    Field.AllFed file limit (field :: fields) := by
  intro parser name entry params rest position below decls hlags
  have hcomma := hlags.feed (isPlain_punct ',') (.none _) put_comma (by omega)
  obtain ⟨between, hfirst, hbetween⟩ := hfield name entry params rest position below decls
  obtain ⟨last, hrest, hlast⟩ := hfields _ _ _ _ _ _ _ _ hbetween
  refine ⟨last, .cons hcomma (hfirst.append hrest), ?_⟩
  rwa [List.append_assoc] at hlast

theorem Inline.allFed_nil : Inline.AllFed file limit [] := by
  intro enclosure _ parser name entry args rest position below decls hlags
  refine ⟨parser, .nil parser, ?_⟩
  rwa [Inline.values, List.append_nil]

theorem closes_of_isConstant {symbol : Symbol} (hconstant : isConstant symbol = true)
    (enclosure : Enclosure) : closes enclosure symbol = false := by
  have hcontent := isContent_of_isConstant hconstant
  have hparen : symbol.isPunct ')' = false := isPunct_of_isConstant hconstant (by decide)
  have hquote : symbol.isPunct '"' = false := isPunct_of_isConstant hconstant (by decide)
  unfold closes
  split <;> simp_all [isContent]

theorem closes_directive {enclosure : Enclosure} {name : String}
    (hblock : enclosure = .paragraph → isBlock name = false) :
    closes enclosure ⟨.directive, name⟩ = false := by
  cases enclosure with
  | paragraph => exact hblock rfl
  | paren => exact Symbol.isPunct_of_kind (by simp)
  | quote => exact Symbol.isPunct_of_kind (by simp)

/-- The first symbol of an inline that may stand in an enclosure does not end it. -/
theorem Inline.first_stays {inline : Inline} {enclosure : Enclosure}
    (hallowed : inline.allowed = true) (hfits : inline.fitsIn enclosure = true) :
    IsPlain inline.first ∧ closes enclosure inline.first = false ∧
      inline.first.kind ≠ .newline := by
  cases inline with
  | constant symbol =>
    have hcontent := isContent_of_isConstant hallowed
    refine ⟨isPlain_of_isContent hcontent, closes_of_isConstant hallowed enclosure, ?_⟩
    intro hkind
    rw [Inline.first] at hkind
    rw [hkind] at hcontent
    cases hcontent
  | quote inner =>
    refine ⟨isPlain_punct _, ?_, by simp [Inline.first, Symbol.punct]⟩
    cases enclosure with
    | paragraph => rfl
    | paren => rfl
    | quote => cases hfits
  | vector name inner =>
    refine ⟨⟨by simp [Inline.first], by simp [Inline.first]⟩, closes_directive ?_,
      by simp [Inline.first]⟩
    rintro rfl
    simpa [Inline.fitsIn, Inline.endsParagraph] using hfits
  | map name fields =>
    refine ⟨⟨by simp [Inline.first], by simp [Inline.first]⟩, closes_directive ?_,
      by simp [Inline.first]⟩
    rintro rfl
    simpa [Inline.fitsIn, Inline.endsParagraph] using hfits

theorem Inline.allFed_cons {inline : Inline} {inner : List Inline}
    (hallowed : inline.allowed = true) (hinline : inline.Fed file limit)
    (hinner : Inline.AllFed file limit inner) : Inline.AllFed file limit (inline :: inner) := by
  intro enclosure hfits parser name entry args rest position below decls hlags
  obtain ⟨hplain, hcloses, hnewline⟩ := first_stays hallowed (hfits inline List.mem_cons_self)
  obtain ⟨count, hcount, hdeclined⟩ := hlags.declined
  have hvalue := (hdeclined _ hplain).concat (put_argument hplain hcloses hnewline)
  obtain ⟨between, hfirst, hbetween⟩ := hinline _ _ _ _ _ _ _ _ hlags.retryLimit hlags.abandoned
    hvalue (by omega) (.inr ⟨name, entry, args, rfl⟩) rfl
  obtain ⟨last, hrest, hlast⟩ := hinner enclosure
    (fun inline hmem => hfits inline (List.mem_cons_of_mem _ hmem)) _ _ _ _ _ _ _ _ hbetween
  refine ⟨last, hfirst.append hrest, ?_⟩
  rwa [List.append_assoc] at hlast

end

mutual

theorem Inline.fed {file : String} {limit : Nat} (hlimit : 16 ≤ limit) :
    (inline : Inline) → inline.allowed = true → inline.Fed file limit
  | .constant symbol, hallowed => Inline.fed_constant hlimit hallowed
  | .quote inner, hallowed => by
    obtain ⟨hquotes, hinner⟩ := Bool.and_eq_true_iff.1 hallowed
    exact Inline.fed_quote hlimit (by simpa using hquotes) (Inline.allFed hlimit inner hinner)
  | .vector name inner, hallowed => by
    obtain ⟨hstyle, hinner⟩ := Bool.and_eq_true_iff.1 hallowed
    exact Inline.fed_vector hlimit hstyle (Inline.allFed hlimit inner hinner)
  | .map name [], hallowed => by
    obtain ⟨hmethod, _⟩ := Bool.and_eq_true_iff.1 hallowed
    obtain ⟨hstyle, hrequired⟩ := Bool.and_eq_true_iff.1 hmethod
    exact Inline.fed_map hlimit hstyle hrequired (by simp) Field.allFed_nil
  | .map name (field :: fields), hallowed => by
    obtain ⟨hmethod, hfields⟩ := Bool.and_eq_true_iff.1 hallowed
    obtain ⟨hstyle, hrequired⟩ := Bool.and_eq_true_iff.1 hmethod
    obtain ⟨hfield, hfields⟩ := Bool.and_eq_true_iff.1 hfields
    have hfirst : field.Fed file limit := Field.fed hlimit field hfield
    exact Inline.fed_map hlimit hstyle hrequired (by simpa using hfirst)
      (Field.allFed hlimit fields hfields)

theorem Field.fed {file : String} {limit : Nat} (hlimit : 16 ≤ limit) :
    (field : Field) → field.allowed = true → field.Fed file limit
  | .mk key value, hallowed => by
    obtain ⟨hmark, hvalue⟩ := Bool.and_eq_true_iff.1 hallowed
    exact Field.fed_mk hlimit (by simpa using hmark) (Inline.fed hlimit value hvalue)

theorem Inline.allFed {file : String} {limit : Nat} (hlimit : 16 ≤ limit) :
    (inner : List Inline) → Inline.allAllowed inner = true → Inline.AllFed file limit inner
  | [], _ => Inline.allFed_nil
  | inline :: inner, hallowed => by
    obtain ⟨hinline, hinner⟩ := Bool.and_eq_true_iff.1 hallowed
    exact Inline.allFed_cons hinline (Inline.fed hlimit inline hinline)
      (Inline.allFed hlimit inner hinner)

theorem Field.allFed {file : String} {limit : Nat} (hlimit : 16 ≤ limit) :
    (fields : List Field) → Field.allAllowed fields = true → Field.AllFed file limit fields
  | [], _ => Field.allFed_nil
  | field :: fields, hallowed => by
    obtain ⟨hfield, hfields⟩ := Bool.and_eq_true_iff.1 hallowed
    exact Field.allFed_cons hlimit (Field.fed hlimit field hfield) (Field.allFed hlimit fields hfields)

end

theorem Field.fed_head_tail {file : String} {limit : Nat} (hlimit : 16 ≤ limit)
    (fields : List Field) (hallowed : Field.allAllowed fields = true) :
    (∀ field ∈ fields.head?, field.Fed file limit) ∧ Field.AllFed file limit fields.tail := by
  cases fields with
  | nil => exact ⟨by simp, Field.allFed_nil⟩
  | cons field fields =>
    obtain ⟨hfield, hfields⟩ := Bool.and_eq_true_iff.1 hallowed
    exact ⟨by simpa using Field.fed hlimit field hfield, Field.allFed hlimit fields hfields⟩

/-! ## Blocks -/

/-- Symbols that start a block, or end the document, are offered to the list of blocks after a
few declined offers. -/
structure Ready (file : String) (limit : Nat) (decls : Array (Decl Call)) (parser : Parser) :
    Prop where
  retryLimit : parser.retryLimit = limit
  abandoned : parser.abandoned = false
  declined : ∀ symbol, closes .paragraph symbol = true →
    ∃ count ≤ 3, Declined (put symbol) count parser (view file limit [.list, .body] [] decls)

section

variable {file : String} {limit : Nat} {decls : Array (Decl Call)}

theorem ready_start : Ready file limit #[] (start file limit) :=
  ⟨rfl, rfl, fun _ _ => ⟨0, by omega, .none _⟩⟩

theorem isPlain_of_closes {symbol : Symbol} (hcloses : closes .paragraph symbol = true) :
    IsPlain symbol := by
  constructor <;> intro hkind <;> simp [closes, hkind] at hcloses

theorem Ready.feed {parser last : Parser} {symbol : Symbol} (hready : Ready file limit decls parser)
    (hlimit : 16 ≤ limit) (hcloses : closes .paragraph symbol = true)
    (htaken : put symbol (view file limit [.list, .body] [] decls) = .ok (true, last)) :
    Parser.feed symbol parser = .ok last := by
  obtain ⟨count, hcount, hdeclined⟩ := hready.declined symbol hcloses
  exact feed_of_declined hready.retryLimit hready.abandoned hdeclined htaken (by omega)

/-- After its last symbol a block call is declared by the next offer. -/
theorem ready_of_reduce {call : Call} {position : Position} (hcauses : call.closingCauses = []) :
    Ready file limit (decls.push ⟨call.closed, position⟩)
      (view file limit [.reduce, .list, .body] [(call, position)] decls) :=
  ⟨rfl, rfl, fun _ hcloses =>
    ⟨1, by omega, .more (put_declare (isPlain_of_closes hcloses) hcauses) (.none _)⟩⟩

/-- A paragraph is declared when the next block starts. -/
theorem Parser.Lags.ready {parser : Parser} {name : String} {entry : Option Entry}
    {args : List Value} {position : Position}
    (hlags : Lags parser limit (view file limit [.vector .paragraph, .reduce, .list, .body]
      [(.vector name entry args, position)] decls)) :
    Ready file limit (decls.push ⟨.vector name entry (Value.coalesce args), position⟩) parser := by
  refine ⟨hlags.retryLimit, hlags.abandoned, fun symbol hcloses => ?_⟩
  have hplain := isPlain_of_closes hcloses
  obtain ⟨count, hcount, hdeclined⟩ := hlags.declined
  refine ⟨count + 1 + 1, by omega, ?_⟩
  exact ((hdeclined symbol hplain).concat (put_closeVector hplain hcloses)).concat
    (put_declare hplain rfl)

theorem put_block {name : String} (hblock : isBlock name = true) {entry : Entry}
    (hlookup : lookup? name = some entry) :
    put ⟨.directive, name⟩ (view file limit [.list, .body] [] decls) =
      .ok (true, view file limit [.params, .list, .body] [(.ofName name, .start file)] decls) := by
  rw [put_view ⟨by simp, by simp⟩, step, stepList]
  simp only [hblock, if_true, openMethod_view hlookup]
  rfl

theorem closes_block {name : String} (hblock : isBlock name = true) :
    closes .paragraph ⟨.directive, name⟩ = true := hblock

/-- The symbols of a block declare the call that it stands for. -/
theorem Block.fed {block : Block} {parser : Parser} (hlimit : 16 ≤ limit)
    (hallowed : block.allowed = true) (hready : Ready file limit decls parser) :
    ∃ last, Feeds parser block.symbols last ∧
      Ready file limit (decls.push ⟨block.call, .start file⟩) last := by
  cases block with
  | paragraph inner =>
    obtain ⟨hcalls, hinner⟩ := Bool.and_eq_true_iff.1 hallowed
    have hnewline : feed .newline parser = .ok (view file limit
        [.vector .paragraph, .reduce, .list, .body]
        [(.vector Document.paragraph (lookup? Document.paragraph) [], .start file)] decls) :=
      hready.feed hlimit rfl rfl
    obtain ⟨last, hfeeds, hlast⟩ := Inline.allFed hlimit inner hinner .paragraph
      (by simpa [Inline.fitsIn] using hcalls) _ _ _ _ _ _ _ _ (.none _)
    refine ⟨last, .cons hnewline hfeeds, ?_⟩
    rw [Block.call, joinMarks_eq_coalesce]
    exact hlast.ready
  | vector name inner =>
    obtain ⟨hblock, hcall⟩ := Bool.and_eq_true_iff.1 hallowed
    obtain ⟨hstyle, hinner⟩ := Bool.and_eq_true_iff.1 hcall
    obtain ⟨entry, hlookup, _⟩ := isOfStyle_eq_true hstyle
    have hname := hready.feed hlimit (closes_block hblock) (put_block hblock hlookup)
    rw [ofName_of_vector hstyle] at hname
    obtain ⟨between, hfeeds, hbetween⟩ := Inline.allFed hlimit inner hinner .paren
      (fun _ _ => rfl) _ _ _ _ _ _ _ _ (.none (inParens (.vector .paren) [.list, .body]))
    have hclose : feed (.punct ')') between =
        .ok (view file limit [.reduce, .list, .body] _ decls) := hbetween.feed_end rfl hlimit
    refine ⟨_, .cons hname (.cons (feed_view put_openVector hlimit)
      (hfeeds.append (.cons hclose (.nil _)))), ?_⟩
    have hcauses : (Call.vector name (lookup? name) (Inline.values inner)).closingCauses = [] := rfl
    rw [Block.call, joinMarks_eq_coalesce]
    exact ready_of_reduce hcauses
  | map name fields =>
    obtain ⟨hblock, hcall⟩ := Bool.and_eq_true_iff.1 hallowed
    obtain ⟨hmethod, hfields⟩ := Bool.and_eq_true_iff.1 hcall
    obtain ⟨hstyle, hrequired⟩ := Bool.and_eq_true_iff.1 hmethod
    obtain ⟨entry, hlookup, _⟩ := isOfStyle_eq_true hstyle
    have hname := hready.feed hlimit (closes_block hblock) (put_block hblock hlookup)
    rw [ofName_of_map hstyle] at hname
    obtain ⟨hfirst, hmore⟩ := Field.fed_head_tail hlimit fields hfields
    obtain ⟨hcauses, hclosed⟩ := closed_params hrequired
    refine ⟨_, .cons hname (.cons (feed_view put_openMap hlimit)
      (feeds_fields hlimit hfirst hmore)), ?_⟩
    have hdeclared : Ready file limit (decls.push ⟨_, .start file⟩) _ := ready_of_reduce hcauses
    rw [hclosed] at hdeclared
    exact hdeclared

theorem Block.allFed {blocks : List Block} {parser : Parser} (hlimit : 16 ≤ limit)
    (hallowed : ∀ block ∈ blocks, block.allowed = true) (hready : Ready file limit decls parser) :
    ∃ last, Feeds parser (blocks.flatMap Block.symbols) last ∧
      Ready file limit
        (decls ++ (blocks.map fun block => ⟨block.call, .start file⟩).toArray) last := by
  induction blocks generalizing parser decls with
  | nil => exact ⟨parser, .nil parser, by simpa using hready⟩
  | cons block blocks ih =>
    obtain ⟨between, hblock, hbetween⟩ :=
      Block.fed hlimit (hallowed block List.mem_cons_self) hready
    obtain ⟨last, hrest, hlast⟩ :=
      ih (fun block hmem => hallowed block (List.mem_cons_of_mem _ hmem)) hbetween
    refine ⟨last, hblock.append hrest, ?_⟩
    simpa using hlast

/-- The end of the data ends the document. -/
theorem Ready.finish {parser : Parser} (hlimit : 16 ≤ limit)
    (hready : Ready file limit decls parser) :
    ∃ last, Parser.feed .endOfData parser = .ok last ∧ last.finish = .ok (decls.toList, []) := by
  obtain ⟨count, hcount, hdeclined⟩ := hready.declined .endOfData rfl
  have hbody : put .endOfData (view file limit [.list, .body] [] decls) =
      .ok (false, view file limit [.body] [] decls) := rfl
  refine ⟨{ view file limit [] [] decls with finished := true }, ?_, rfl⟩
  exact feed_of_declined hready.retryLimit hready.abandoned (hdeclined.concat hbody) rfl (by omega)

end

/-- Parsing inverts rendering: the symbols of a document of the grammar parse without
diagnostics, into the calls that its blocks stand for. -/
theorem parse_documentSymbols (file : String) (retryLimit : Nat) (blocks : List Block)
    (hlimit : 16 ≤ retryLimit) (hallowed : ∀ block ∈ blocks, block.allowed = true) :
    ∃ last, (documentSymbols blocks).foldlM (fun parser symbol => parser.feed symbol)
        (Parser.start file retryLimit) = .ok last ∧
      last.finish = .ok (blocks.map fun block => ⟨block.call, ⟨file, 1⟩⟩, []) := by
  obtain ⟨between, hfeeds, hready⟩ := Block.allFed hlimit hallowed ready_start
  obtain ⟨last, hfeed, hfinish⟩ := hready.finish hlimit
  refine ⟨last, hfeeds.append (.cons hfeed (.nil _)), ?_⟩
  rw [hfinish]
  simp [Position.start]

/-- A paragraph with marks, a quote around a call and a link, an empty paragraph, a headline
and a header with a truth value. -/
def sampleDocument : List Block :=
  [.paragraph
      [.constant ⟨.text, "Hello"⟩, .constant (.punct ','),
        .quote [.vector "b" [.quote [.constant ⟨.number, "1"⟩]], .constant (.punct '!')],
        .map "link" [.mk "text" (.quote [.constant ⟨.text, "here"⟩]),
          .mk "url" (.vector "cat" [.constant ⟨.literal, "u"⟩])]],
    .paragraph [],
    .vector "h1" [.constant (.punct '.'), .map "header" [.mk "title" (.constant ⟨.text, "true"⟩),
      .mk "level" (.constant ⟨.number, "2"⟩), .mk "tag" (.constant ⟨.text, "t"⟩)]],
    .map "meta" []]

/-- What the blocks of the sample stand for.  Marks are joined to what stands before them, the quote
that is the value of a parameter has become a range, and words have the values they are read as. -/
def sampleTrees : List Call :=
  [.vector "paragraph" (lookup? "paragraph")
      [.call (.vector "cat" (lookup? "cat")
          [.constant ⟨"Hello", .string "Hello"⟩, .constant ⟨",", .string ","⟩]),
        .call (.vector "quote" (lookup? "quote")
          [.call (.vector "cat" (lookup? "cat")
            [.call (.vector "b" (lookup? "b")
                [.call (.vector "quote" (lookup? "quote") [.constant ⟨"1", .unsigned 1⟩])]),
              .constant ⟨"!", .string "!"⟩])]),
        .call (.map "link" (lookup? "link")
          [.bound "text" (.call (.vector "range" (lookup? "range")
              [.constant ⟨"here", .string "here"⟩])),
            .bound "url" (.call (.vector "cat" (lookup? "cat")
              [.constant ⟨"u", .string "u"⟩]))])],
    .vector "paragraph" (lookup? "paragraph") [],
    .vector "h1" (lookup? "h1")
      [.constant ⟨".", .string "."⟩,
        .call (.map "header" (lookup? "header")
          [.bound "title" (.constant ⟨"true", .bool true⟩),
            .bound "level" (.constant ⟨"2", .unsigned 2⟩),
            .bound "tag" (.constant ⟨"t", .string "t"⟩)])],
    .map "meta" (lookup? "meta") []]

theorem parse_sampleDocument :
    16 ≤ 16 ∧ (∀ block ∈ sampleDocument, block.allowed = true) ∧
    ∃ last, (documentSymbols sampleDocument).foldlM (fun parser symbol => parser.feed symbol)
        (Parser.start "d" 16) = .ok last ∧
      last.finish = .ok (sampleTrees.map (⟨·, ⟨"d", 1⟩⟩), []) :=
  ⟨by decide, by decide, parse_documentSymbols "d" 16 sampleDocument (by decide) (by decide)⟩

end Docpress.Document
