import Docpress.Proofs.DocumentMoves

/-!
# The grammar of documents

Documents as an author means them, before they are symbols: blocks, which are paragraphs or
block calls, made of inlines, which are constants, quotes and calls.

* `allowed` says which of them the grammar has.
* `symbols` writes them down, with all parentheses.
* `value` and `call` are the trees that they stand for: in arguments a punctuation mark is
  joined with what stands before it, and as the value of a parameter a quote is a range and the
  words `true` and `false` are truth values.
-/

namespace Docpress.Document

mutual

/-- What can stand in a paragraph or in a call. -/
inductive Inline where
  | constant (symbol : Symbol)
  | quote (inner : List Inline)
  | vector (name : String) (inner : List Inline)
  | map (name : String) (fields : List Field)

/-- A parameter and its value. -/
inductive Field where
  | mk (key : String) (value : Inline)

end

/-- A paragraph, or a call that stands for itself. -/
inductive Block where
  | paragraph (inner : List Inline)
  | vector (name : String) (inner : List Inline)
  | map (name : String) (fields : List Field)

/-! ## What is allowed -/

/-- Whether the symbol is a constant.  Of the punctuation marks those that structure a document
are none. -/
def isConstant (symbol : Symbol) : Bool :=
  isContent symbol.kind &&
    (decide (symbol.kind ≠ .punct) || [".", ",", ";", ":", "?", "!"].contains symbol.text)

/-- Whether the catalogue has the method with the given style. -/
def isOfStyle (style : Style) (name : String) : Bool :=
  (lookup? name).any fun entry => decide (entry.style = style)

/-- The name of the parameter. -/
def Field.key : Field → String
  | .mk key _ => key

/-- Whether the parameters that the method requires are among the fields. -/
def givesRequired (name : String) (fields : List Field) : Bool :=
  (lookup? name).all fun entry => entry.required.all fun key => fields.any (·.key = key)

namespace Inline

def isQuote : Inline → Bool
  | .quote _ => true
  | _ => false

/-- Whether the inline is a single punctuation mark. -/
def isMark : Inline → Bool
  | .constant symbol => decide (symbol.kind = .punct)
  | _ => false

/-- Whether the inline is a call that would end a paragraph. -/
def endsParagraph : Inline → Bool
  | .vector name _ => isBlock name
  | .map name _ => isBlock name
  | _ => false

end Inline

mutual

/-- Whether the grammar has the inline. -/
def Inline.allowed : Inline → Bool
  | .constant symbol => isConstant symbol
  | .quote inner => inner.all (!·.isQuote) && Inline.allAllowed inner
  | .vector name inner => isOfStyle .vector name && Inline.allAllowed inner
  | .map name fields => isOfStyle .map name && givesRequired name fields && Field.allAllowed fields

/-- Whether the grammar has the parameter.  A mark is no value. -/
def Field.allowed : Field → Bool
  | .mk _ value => !value.isMark && value.allowed

def Inline.allAllowed : List Inline → Bool
  | [] => true
  | inline :: rest => inline.allowed && Inline.allAllowed rest

def Field.allAllowed : List Field → Bool
  | [] => true
  | field :: rest => field.allowed && Field.allAllowed rest

end

/-- Whether the grammar has the block. -/
def Block.allowed : Block → Bool
  | .paragraph inner => inner.all (!·.endsParagraph) && Inline.allAllowed inner
  | .vector name inner => isBlock name && Inline.allowed (.vector name inner)
  | .map name fields => isBlock name && Inline.allowed (.map name fields)

/-! ## How it is written -/

/-- A call with the symbols of its arguments. -/
def callSymbols (name : String) (arguments : List Symbol) : List Symbol :=
  ⟨.directive, name⟩ :: .punct '(' :: (arguments ++ [.punct ')'])

mutual

/-- The inline in symbols. -/
def Inline.symbols : Inline → List Symbol
  | .constant symbol => [symbol]
  | .quote inner => .punct '"' :: (Inline.allSymbols inner ++ [.punct '"'])
  | .vector name inner => callSymbols name (Inline.allSymbols inner)
  | .map name fields => callSymbols name (Field.allSymbols fields)

/-- The parameter in symbols. -/
def Field.symbols : Field → List Symbol
  | .mk key value => ⟨.text, key⟩ :: .punct ':' :: value.symbols

/-- The inlines in symbols, one after the other. -/
def Inline.allSymbols : List Inline → List Symbol
  | [] => []
  | inline :: rest => inline.symbols ++ Inline.allSymbols rest

/-- The parameters in symbols, with commas between them. -/
def Field.allSymbols : List Field → List Symbol
  | [] => []
  | field :: rest => field.symbols ++ Field.moreSymbols rest

/-- The parameters in symbols, with a comma before each. -/
def Field.moreSymbols : List Field → List Symbol
  | [] => []
  | field :: rest => .punct ',' :: (field.symbols ++ Field.moreSymbols rest)

end

/-- The block in symbols. -/
def Block.symbols : Block → List Symbol
  | .paragraph inner => .newline :: Inline.allSymbols inner
  | .vector name inner => callSymbols name (Inline.allSymbols inner)
  | .map name fields => callSymbols name (Field.allSymbols fields)

/-- A document in symbols. -/
def documentSymbols (blocks : List Block) : List Symbol :=
  blocks.flatMap Block.symbols ++ [.endOfData]

/-! ## What it stands for -/

/-- Adds an argument to those before it, the last of which comes first: a mark is joined with
the last one. -/
def addArgument (before : List Value) (value : Value) : List Value :=
  match before with
  | [] => [value]
  | last :: rest => if value.isPunctuation then last.join value :: rest else value :: last :: rest

/-- Arguments with their marks joined. -/
def joinMarks (values : List Value) : List Value :=
  (values.foldl addArgument []).reverse

/-- The constant that a symbol stands for as the value of a parameter. -/
def fieldConstant (symbol : Symbol) : Constant :=
  if symbol.text = "true" then ⟨"true", .bool true⟩
  else if symbol.text = "false" then ⟨"false", .bool false⟩
  else .ofSymbol symbol

mutual

/-- The argument that the inline stands for. -/
def Inline.value : Inline → Value
  | .constant symbol => .constant (.ofSymbol symbol)
  | .quote inner => .call (.vector Document.quote (lookup? Document.quote) (joinMarks (Inline.values inner)))
  | .vector name inner => .call (.vector name (lookup? name) (joinMarks (Inline.values inner)))
  | .map name fields => .call (.map name (lookup? name) (Field.params fields))

/-- What the inline stands for as the value of a parameter. -/
def Inline.fieldValue : Inline → Value
  | .constant symbol => .constant (fieldConstant symbol)
  | .quote inner => .call (.vector range (lookup? range) (joinMarks (Inline.values inner)))
  | .vector name inner =>
    let name := if name = Document.quote then range else name
    .call (.vector name (lookup? name) (joinMarks (Inline.values inner)))
  | .map name fields => .call (.map name (lookup? name) (Field.params fields))

/-- The parameter that the field stands for. -/
def Field.param : Field → Param
  | .mk key value => .bound key value.fieldValue

/-- The arguments that the inlines stand for, marks on their own. -/
def Inline.values : List Inline → List Value
  | [] => []
  | inline :: rest => inline.value :: Inline.values rest

/-- The parameters that the fields stand for. -/
def Field.params : List Field → List Param
  | [] => []
  | field :: rest => field.param :: Field.params rest

end

/-- The call that the block stands for. -/
def Block.call : Block → Call
  | .paragraph inner => .vector Document.paragraph (lookup? Document.paragraph)
    (joinMarks (Inline.values inner))
  | .vector name inner => .vector name (lookup? name) (joinMarks (Inline.values inner))
  | .map name fields => .map name (lookup? name) (Field.params fields)

/-! ## Agreement with the trees of the parser -/

theorem foldl_addArgument (before : List Value) (current : Value) (values : List Value) :
    (values.foldl addArgument (current :: before)).reverse =
      before.reverse ++ Value.coalesceAfter current values := by
  induction values generalizing before current with
  | nil => simp [Value.coalesceAfter]
  | cons value values ih =>
    rw [List.foldl_cons, addArgument, Value.coalesceAfter]
    split
    · rw [ih]
    · rw [ih, List.reverse_cons, List.append_assoc]
      rfl

/-- Joining marks one by one is the same as joining them when a call is closed. -/
theorem joinMarks_eq_coalesce (values : List Value) : joinMarks values = Value.coalesce values := by
  cases values with
  | nil => rfl
  | cons first rest => exact foldl_addArgument [] first rest

theorem asParameter_ofSymbol (symbol : Symbol) :
    (Constant.ofSymbol symbol).asParameter = fieldConstant symbol := by
  obtain ⟨kind, text⟩ := symbol
  unfold fieldConstant
  split
  · rename_i htext
    dsimp only at htext
    subst htext
    cases kind <;> decide
  · split
    · rename_i htext
      dsimp only at htext
      subst htext
      cases kind <;> decide
    · rename_i htrue hfalse
      unfold Constant.asParameter
      split
      · rename_i hliteral
        exact absurd hliteral htrue
      · rename_i hliteral
        exact absurd hliteral hfalse
      · rfl

theorem asParameter_value (inline : Inline) : inline.value.asParameter = inline.fieldValue := by
  cases inline with
  | constant symbol => simp only [Inline.value, Value.asParameter, Inline.fieldValue, asParameter_ofSymbol]
  | quote inner => simp only [Inline.value, Value.asParameter, Inline.fieldValue, if_true]
  | vector name inner =>
    simp only [Inline.value, Value.asParameter, Inline.fieldValue]
    split <;> rfl
  | map name fields => rfl

theorem isOfStyle_eq_true {style : Style} {name : String} (hstyle : isOfStyle style name = true) :
    ∃ entry, lookup? name = some entry ∧ entry.style = style := by
  cases hlookup : lookup? name with
  | none => simp [isOfStyle, hlookup] at hstyle
  | some entry => exact ⟨entry, rfl, by simpa [isOfStyle, hlookup] using hstyle⟩

/-- A vector method is called with arguments. -/
theorem ofName_of_vector {name : String} (hstyle : isOfStyle .vector name = true) :
    Call.ofName name = .vector name (lookup? name) [] := by
  obtain ⟨⟨_, style, _, _⟩, hlookup, rfl⟩ := isOfStyle_eq_true hstyle
  rw [Call.ofName, hlookup]
  rfl

/-- A map method is called with parameters. -/
theorem ofName_of_map {name : String} (hstyle : isOfStyle .map name = true) :
    Call.ofName name = .map name (lookup? name) [] := by
  obtain ⟨⟨_, style, _, _⟩, hlookup, rfl⟩ := isOfStyle_eq_true hstyle
  rw [Call.ofName, hlookup]
  rfl

theorem params_eq_map (fields : List Field) : Field.params fields = fields.map Field.param := by
  induction fields with
  | nil => rfl
  | cons field fields ih => simp [Field.params, ih]

/-- A call with all the parameters that it requires is closed as it is. -/
theorem closed_params {name : String} {fields : List Field}
    (hrequired : givesRequired name fields = true) :
    (Call.map name (lookup? name) (Field.params fields)).closingCauses = [] ∧
      (Call.map name (lookup? name) (Field.params fields)).closed =
        .map name (lookup? name) (Field.params fields) := by
  have hkey (field : Field) : field.param.key = field.key := by
    cases field
    rfl
  have hbound (field : Field) : field.param.isBound = true := by
    cases field
    rfl
  have hfilled (field : Field) : field.param.filled = field.param := by
    cases field
    rfl
  constructor
  · have hmissing : Call.missing (lookup? name) (Field.params fields) = [] := by
      unfold givesRequired at hrequired
      unfold Call.missing
      cases hlookup : lookup? name with
      | none => rfl
      | some entry =>
        rw [hlookup, Option.all_some, List.all_eq_true] at hrequired
        rw [List.filter_eq_nil_iff]
        intro key hmem
        simpa [params_eq_map, hkey] using hrequired key hmem
    have hpending : Call.pendingKeys (Field.params fields) = [] := by
      simp [Call.pendingKeys, params_eq_map, hbound]
    rw [Call.closingCauses, hmissing, hpending]
    rfl
  · simp [Call.closed, Call.fillEmpty, params_eq_map, hfilled]

end Docpress.Document
