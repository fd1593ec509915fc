import Docpress.Lexer
import Docpress.Object.Literal
import Docpress.Text.Alphanumeric

/-!
# Scanning assembly text

Lines matter: every run of line breaks is one symbol.  Words, numbers with an optional type,
timestamps behind `@`, colors, double quoted strings, single quoted literals with an optional
type tag, directives behind a dot, and comments behind a semicolon are recognised as they are
read.  What turns out not to be a literal is continued as a plain word.
-/

namespace Docpress.Assembly

/-- How far a number is read. -/
inductive NumberPart where
  | sign
  | whole
  | fraction
  | exponentMark
  | exponentSign
  | exponent
  /-- the type behind the number, which is kept apart from it -/
  | suffix (text : List Char)
deriving DecidableEq, Repr, Inhabited

/-- What is being read, with the characters read so far. -/
inductive Mode where
  | start
  | comment
  | word (text : List Char)
  | directive (name : List Char)
  | number (part : NumberPart) (text : List Char)
  | timestamp (text : List Char)
  | color (text : List Char)
  /-- a string, or a literal that may have a type tag -/
  | string (tagged : Bool) (text : List Char)
  /-- a backslash inside a string or literal -/
  | escape (tagged : Bool) (text : List Char)
deriving DecidableEq, Repr, Inhabited

/-! ## Characters -/

/-- Whether the character may be part of a word. -/
def isWordChar (c : Char) : Bool :=
  Text.isAlphanumeric c || c == '_' || c == '-' || c == '.'

/-- Whether the token ends a literal. -/
def isDelimiter : Token → Bool
  | .run c _ => Text.isBlank c || [',', ';', ':', '(', ')'].contains c
  | .endOfText => true

/-- The character that opens and closes a string or a literal. -/
def quoteMark (tagged : Bool) : Char :=
  if tagged then '\'' else '"'

/-- The character that an escape stands for. -/
def unescape? : Char → Option Char
  | 'n' => some '\n'
  | 't' => some '\t'
  | '\\' => some '\\'
  | '\'' => some '\''
  | '"' => some '"'
  | _ => none

/-! ## Answers -/

namespace Mode

/-- Takes the token. -/
def accept (next : Mode) (items : List Item) : Scan Mode := ⟨true, next, items⟩

/-- Asks for the token again in another mode. -/
def decline (next : Mode) (items : List Item) : Scan Mode := ⟨false, next, items⟩

/-- A symbol made of the characters. -/
def symbol (kind : SymbolKind) (text : List Char) : Item :=
  .symbol ⟨kind, String.ofList text⟩

/-! ## Words -/

/-- Reads a token between words. -/
def stepStart (token : Token) : Scan Mode :=
  match token with
  | .endOfText => accept .start [.symbol .endOfData]
  | .run c count =>
    if c = '\n' then accept .start [.symbol .newline]
    else if Text.isBlank c then accept .start []
    else if c = ';' then accept .comment []
    else if c = '.' ∧ count = 1 then accept (.directive []) []
    else if c = '@' ∧ count = 1 then accept (.timestamp []) []
    else if c = '#' ∧ count = 1 then accept (.color ['#']) []
    else if (c = '-' ∨ c = '+') ∧ count = 1 then accept (.number .sign [c]) []
    else if c = '"' then
      accept (if count % 2 = 1 then .string false [] else .start)
        (List.replicate (count / 2) (symbol .literal []))
    else if c = '\'' ∧ count = 1 then accept (.string true []) []
    else if c.isDigit then decline (.number .whole []) []
    else if isWordChar c then decline (.word []) []
    else accept .start (List.replicate count (.symbol (.punct c)))

/-- Skips a token of a comment, which ends with its line. -/
def stepComment (token : Token) : Scan Mode :=
  if token = .endOfText ∨ token.isRunOf '\n' then decline .start [] else accept .comment []

/-- The symbol of a word that no colon follows. -/
def wordSymbol (text : List Char) : Item :=
  let word := String.ofList text
  match Opcode.ofMnemonic? word with
  | some op => .symbol ⟨.instruction, op.mnemonic⟩
  | none =>
    if word = "true" ∨ word = "false" then .symbol ⟨.bool, word⟩ else .symbol ⟨.text, word⟩

/-- Whether the token continues a word. -/
def continuesWord : Token → Bool
  | .run c _ => isWordChar c
  | .endOfText => false

/-- Reads a token of a word.  A colon behind it makes it a label. -/
def stepWord (text : List Char) (token : Token) : Scan Mode :=
  if continuesWord token then accept (.word (text ++ token.expand)) []
  else if text.isEmpty then decline .start []
  else if token.isRunOf ':' then accept .start [symbol .label text]
  else decline .start [wordSymbol text]

/-- Whether the token continues the name of a directive. -/
def continuesDirective : Token → Bool
  | .run c _ => c.isAlphanum || c == '_'
  | .endOfText => false

/-- Reads a token of the name of a directive. -/
def stepDirective (name : List Char) (token : Token) : Scan Mode :=
  if continuesDirective token then accept (.directive (name ++ token.expand)) []
  else if name.isEmpty then decline .start [.symbol (.punct '.')]
  else decline .start [symbol .directive name]

/-! ## Numbers -/

/-- The symbol of a number with its type.  An unknown type makes it a word. -/
def numberSymbol (text suffix : List Char) : Item :=
  let kind? : Option SymbolKind :=
    if suffix.isEmpty then
      if text.any fun c => c == '.' || c == 'e' || c == 'E' then some .float
      else if text.head? = some '-' then some .signed
      else some .number
    else if suffix = "u64".toList then some .number
    else if suffix = "i64".toList then some .signed
    else if suffix = "f64".toList then some .float
    else none
  match kind?, text with
  | none, _ => symbol .text (text ++ suffix)
  | some kind, '+' :: rest => symbol kind rest
  | some kind, _ => symbol kind text

/-- Ends a number, which goes on as a word unless a delimiter follows. -/
def leaveNumber (text suffix : List Char) (token : Token) : Scan Mode :=
  if isDelimiter token then decline .start [numberSymbol text suffix]
  else decline (.word (text ++ suffix)) []

/-- Reads a run of a character in a number that has digits. -/
def stepDigits (part : NumberPart) (text : List Char) (c : Char) (count : Nat) : Scan Mode :=
  let token := Token.run c count
  if c.isDigit then accept (.number part (text ++ token.expand)) []
  else if count = 1 ∧ c = '.' ∧ part = .whole then accept (.number .fraction (text ++ [c])) []
  else if count = 1 ∧ (c = 'e' ∨ c = 'E') ∧ (part = .whole ∨ part = .fraction) then
    accept (.number .exponentMark (text ++ [c])) []
  else if count = 1 ∧ (c = 'u' ∨ c = 'i' ∨ c = 'f') then
    accept (.number (.suffix [c]) text) []
  else leaveNumber text [] token

/-- Reads a token of a number. -/
def stepNumber (part : NumberPart) (text : List Char) (token : Token) : Scan Mode :=
  match part, token with
  | .sign, .run c _ =>
    if c.isDigit then decline (.number .whole text) [] else decline .start [symbol .punct text]
  | .sign, .endOfText => decline .start [symbol .punct text]
  | .exponentMark, .run c count =>
    if c.isDigit then accept (.number .exponent (text ++ token.expand)) []
    else if count = 1 ∧ (c = '-' ∨ c = '+') then
      accept (.number .exponentSign (text ++ [c])) []
    else decline (.word text) []
  | .exponentSign, .run c _ =>
    if c.isDigit then accept (.number .exponent (text ++ token.expand)) []
    else decline (.word text) []
  | .exponentMark, .endOfText | .exponentSign, .endOfText => decline (.word text) []
  | .suffix suffix, .run c _ =>
    if c.isAlphanum then accept (.number (.suffix (suffix ++ token.expand)) text) []
    else leaveNumber text suffix token
  | .suffix suffix, .endOfText => leaveNumber text suffix token
  | part, .run c count => stepDigits part text c count
  | _, .endOfText => leaveNumber text [] token

/-! ## Timestamps and colors -/

/-- Reads a token of a timestamp, as long as the text can still become one. -/
def stepTimestamp (text : List Char) (token : Token) : Scan Mode :=
  let extended := text ++ token.expand
  if token ≠ .endOfText ∧ Timestamp.shape extended ≠ .hopeless then
    accept (.timestamp extended) []
  else if isDelimiter token && (Timestamp.readChars? text).isSome then
    decline .start [symbol .timestamp text]
  else decline (.word ('@' :: text)) []

/-- Whether the token is a run of hexadecimal digits. -/
def isHexDigits : Token → Bool
  | .run c _ => Text.isHexDigit c
  | .endOfText => false

/-- Reads a token of a color. -/
def stepColor (text : List Char) (token : Token) : Scan Mode :=
  if isHexDigits token then accept (.color (text ++ token.expand)) []
  else if isDelimiter token && (Color.readChars? text).isSome then
    decline .start [symbol .color text]
  else decline (.word text) []

/-! ## Strings and literals -/

/-- Splits a text at its first colon. -/
def splitTag? (text : List Char) : Option (List Char × List Char) :=
  match text.span (· ≠ ':') with
  | (tag, _ :: body) => some (tag, body)
  | (_, []) => none

/-- The symbols of a string or a literal.  A type tag follows its literal. -/
def stringSymbols (tagged : Bool) (text : List Char) : List Item :=
  match tagged, splitTag? text with
  | true, some (tag, body) =>
    if (TypeTag.ofName? (String.ofList tag)).isSome then
      [symbol .literal body, symbol .typeTag tag]
    else [symbol .literal text]
  | _, _ => [symbol .literal text]

/-- Reads a token of a string or a literal.  At the end of the line it turns out to be a plain
word.  Quotes beyond the closing one are read as if they stood alone. -/
def stepString (tagged : Bool) (text : List Char) (token : Token) : Scan Mode :=
  let unterminated := decline .start [symbol .text (quoteMark tagged :: text)]
  match token with
  | .endOfText => unterminated
  | .run c count =>
    if c = '\n' then unterminated
    else if c = quoteMark tagged then
      if 1 < count then
        let answer := stepStart (.run c (count - 1))
        { answer with items := stringSymbols tagged text ++ answer.items }
      else accept .start (stringSymbols tagged text)
    else if c = '\\' then
      let text := text ++ List.replicate (count / 2) '\\'
      accept (if count % 2 = 1 then .escape tagged text else .string tagged text) []
    else accept (.string tagged (text ++ token.expand)) []

/-- Reads the token after a backslash.  If nothing can be escaped by it, the text so far is a
plain word. -/
def stepEscape (tagged : Bool) (text : List Char) (token : Token) : Scan Mode :=
  let broken := decline (.word []) [symbol .text (quoteMark tagged :: text ++ ['\\'])]
  match token with
  | .endOfText => broken
  | .run c count =>
    match unescape? c with
    | none => broken
    | some escaped =>
      let text := text ++ [escaped]
      if 1 < count then stepString tagged text (.run c (count - 1))
      else accept (.string tagged text) []

/-- Reads a token. -/
def step (mode : Mode) (token : Token) : Scan Mode :=
  match mode with
  | start => stepStart token
  | comment => stepComment token
  | word text => stepWord text token
  | directive name => stepDirective name token
  | number part text => stepNumber part text token
  | timestamp text => stepTimestamp text token
  | color text => stepColor text token
  | string tagged text => stepString tagged text token
  | escape tagged text => stepEscape tagged text token

end Mode

/-- The items of assembly text. -/
def lex (text : String) : Except Fault (List Item) :=
  Docpress.lex Mode.step .start text

end Docpress.Assembly
