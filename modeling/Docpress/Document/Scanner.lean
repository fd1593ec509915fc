import Docpress.Color
import Docpress.Lexer
import Docpress.Timestamp

/-!
# Scanning documents

Words are separated by blanks and punctuation.  A blank line is a paragraph break, a single
line break is a blank.  A single dot before a lower case letter opens a directive, a doubled
dot is a dot inside a word, and two or more semicolons start a comment.  Numbers, timestamps,
colors and literals in single quotes are recognised as they are read; text that stops looking
like one is continued as a plain word.

`Mode.step` reads a token and yields symbols.  `Scanner.scan` then opens a paragraph if the
document starts with text, and drops a paragraph break that follows another one.
-/

namespace Docpress.Document

/-- What is being read, with the characters read so far. -/
inductive Mode where
  | start
  /-- a run of line breaks and other blanks, with the number of line breaks -/
  | breaks (count : Nat)
  | comment
  | word (text : List Char)
  /-- a single dot -/
  | dot
  | directive (name : List Char)
  /-- the gap between the include directive and its path -/
  | inclusion
  | path (text : List Char)
  /-- a minus sign -/
  | sign
  | number (text : List Char)
  /-- a number and a single dot, which is not part of the text -/
  | numberDot (text : List Char)
  | float (text : List Char)
  /-- the start of a timestamp; `whole` is the length of its longest part that is one -/
  | timestamp (text : List Char) (whole : Nat)
  | color (text : List Char)
  | literal (text : List Char)
  /-- a backslash inside a literal -/
  | escape (text : List Char)
deriving DecidableEq, Repr, Inhabited

/-! ## Characters -/

/-- The marks that are symbols of their own. -/
def punctuation : List Char :=
  [',', ';', ':', '?', '!', '(', ')', '"']

/-- Whether the token ends a word. -/
def isDelimiter : Token → Bool
  | .run c _ => Text.isBlank c || c == '.' || punctuation.contains c
  | .endOfText => true

/-- Whether the character is a lower case letter of ASCII. -/
def isLowercase (c : Char) : Bool :=
  c.isLower

/-- Whether the character may continue the name of a directive. -/
def continuesName (c : Char) : Bool :=
  isLowercase c || c.isDigit || c == '_'

/-- The word that a dot before a tab stands for. -/
def arrow : String := "→"

/-- The character that an escape in a literal stands for. -/
def unescape? : Char → Option Char
  | 'n' => some '\n'
  | 't' => some '\t'
  | '\\' => some '\\'
  | '\'' => some '\''
  | _ => none

/-! ## Answers -/

namespace Mode

/-- Takes the token. -/
def accept (next : Mode) (items : List Item) : Scan Mode := ⟨true, next, items⟩

/-- Asks for the token again in another mode. -/
def decline (next : Mode) (items : List Item) : Scan Mode := ⟨false, next, items⟩

/-- A symbol made of the characters. -/
def symbol (kind : SymbolKind) (text : List Char) : Item :=
  .symbol ⟨kind, String.ofList text⟩

/-- The word read so far, if there is one. -/
def flush (text : List Char) : List Item :=
  if text.isEmpty then [] else [symbol .text text]

/-- Reads a run of dots after the characters of a word.  Pairs of dots are dots of the word; an
odd dot ends the word. -/
def dots (text : List Char) (count : Nat) : Mode × List Item :=
  let text := text ++ List.replicate (count / 2) '.'
  if count % 2 = 1 then (.dot, flush text) else (.word text, [])

/-- The kind of a number without a fraction. -/
def numberKind (text : List Char) : SymbolKind :=
  if text.head? = some '-' then .signed else .number

/-! ## Steps -/

/-- Reads a token between words. -/
def stepStart (token : Token) : Scan Mode :=
  match token with
  | .endOfText => accept .start [.symbol .endOfData]
  | .run c count =>
    if c = '\n' then accept (.breaks count) []
    else if Text.isBlank c then accept .start []
    else if c = '.' then
      let (next, items) := dots [] count
      accept next items
    else if c = ';' ∧ 1 < count then accept .comment []
    else if c = '\'' ∧ count = 1 then accept (.literal []) []
    else if c = '#' ∧ count = 1 then accept (.color ['#']) []
    else if c = '-' ∧ count = 1 then accept .sign []
    else if c.isDigit then decline (.number []) []
    else if punctuation.contains c then
      accept .start (List.replicate count (.symbol (.punct c)))
    else decline (.word []) []

/-- Reads a token after line breaks.  More than one of them is a paragraph break. -/
def stepBreaks (count : Nat) (token : Token) : Scan Mode :=
  if token.isRunOf '\n' then accept (.breaks (count + token.lineFeeds)) []
  else if token.isBlank then accept (.breaks count) []
  else decline .start (if 1 < count then [.symbol .newline] else [])

/-- Skips a token of a comment, which ends with its line. -/
def stepComment (token : Token) : Scan Mode :=
  if token = .endOfText ∨ token.isRunOf '\n' then decline .start [] else accept .comment []

/-- Reads a token of a word. -/
def stepWord (text : List Char) (token : Token) : Scan Mode :=
  match token with
  | .run '.' count =>
    let (next, items) := dots text count
    accept next items
  | _ =>
    if isDelimiter token then decline .start (flush text)
    else accept (.word (text ++ token.expand)) []

/-- Reads the token after a single dot. -/
def stepDot (token : Token) : Scan Mode :=
  match token with
  | .run c _ =>
    if isLowercase c then accept (.directive token.expand) []
    else if c = '\t' then accept .start [.symbol ⟨.text, arrow⟩]
    else decline .start [.symbol (.punct '.')]
  | .endOfText => decline .start [.symbol (.punct '.')]

/-- Whether the token continues the name of a directive. -/
def continuesDirective : Token → Bool
  | .run c _ => continuesName c
  | .endOfText => false

/-- Reads a token of the name of a directive. -/
def stepDirective (name : List Char) (token : Token) : Scan Mode :=
  if continuesDirective token then accept (.directive (name ++ token.expand)) []
  else if name = "include".toList then decline .inclusion []
  else decline .start [symbol .directive name]

/-- Reads the token after an include directive, which a path in parentheses has to follow. -/
def stepInclusion (token : Token) : Scan Mode :=
  if token.isBlank && !token.isRunOf '\n' then accept .inclusion []
  else if token = .run '(' 1 then accept (.path []) []
  else decline .start [.symbol ⟨.directive, "include"⟩]

/-- Reads a token of the path of an inclusion, up to the parenthesis or the end of the line. -/
def stepPath (text : List Char) (token : Token) : Scan Mode :=
  let request := Item.inclusion (String.ofList (Text.trim text))
  if token.isRunOf ')' then accept .start [request]
  else if token = .endOfText ∨ token.isRunOf '\n' then decline .start [request]
  else accept (.path (text ++ token.expand)) []

/-- Whether the token is a run of digits. -/
def isDigits : Token → Bool
  | .run c _ => c.isDigit
  | .endOfText => false

/-- Reads the token after a minus sign. -/
def stepSign (token : Token) : Scan Mode :=
  if isDigits token then decline (.number ['-']) [] else decline (.word ['-']) []

/-- Reads a token of a number.  Four digits and a minus sign may start a timestamp. -/
def stepNumber (text : List Char) (token : Token) : Scan Mode :=
  if isDigits token then accept (.number (text ++ token.expand)) []
  else if token = .run '-' 1 ∧ text.length = 4 ∧ text.head? ≠ some '-' then
    accept (.timestamp (text ++ ['-']) 0) []
  else if token = .run '.' 1 then accept (.numberDot text) []
  else if token.isRunOf '.' || !isDelimiter token then decline (.word text) []
  else decline .start [symbol (numberKind text) text]

/-- Reads the token after a number and a single dot. -/
def stepNumberDot (text : List Char) (token : Token) : Scan Mode :=
  if isDigits token then accept (.float (text ++ '.' :: token.expand)) []
  else decline .dot [symbol (numberKind text) text]

/-- Reads a token of a number with a fraction. -/
def stepFloat (text : List Char) (token : Token) : Scan Mode :=
  if isDigits token then accept (.float (text ++ token.expand)) []
  else if !isDelimiter token then decline (.word text) []
  else decline .start [symbol .float text]

/-- Ends what looked like a timestamp.  It may be one, or one before the dot of a sentence, or
the start of a word. -/
def leaveTimestamp (text : List Char) (whole : Nat) (token : Token) : Scan Mode :=
  let stamp := text.take whole
  let rest := text.drop whole
  if isDelimiter token && (Timestamp.readChars? text).isSome then
    decline .start [symbol .timestamp text]
  else if isDelimiter token && 0 < whole && rest.all (· == '.') &&
      (Timestamp.readChars? stamp).isSome then
    let (next, items) := dots [] rest.length
    decline next (symbol .timestamp stamp :: items)
  else decline (.word text) []

/-- Reads a token of a timestamp, as long as the text can still become one. -/
def stepTimestamp (text : List Char) (whole : Nat) (token : Token) : Scan Mode :=
  let extended := text ++ token.expand
  match token, Timestamp.shape extended with
  | .run _ _, .whole => accept (.timestamp extended extended.length) []
  | .run _ _, .unfinished => accept (.timestamp extended whole) []
  | _, _ => leaveTimestamp text whole token

/-- Whether the token is a run of hexadecimal digits. -/
def isHexDigits : Token → Bool
  | .run c _ => Text.isHexDigit c
  | .endOfText => false

/-- Reads a token of a color. -/
def stepColor (text : List Char) (token : Token) : Scan Mode :=
  if isHexDigits token then accept (.color (text ++ token.expand)) []
  else if isDelimiter token && (Color.readChars? text).isSome then
    decline .start [symbol .color text]
  else decline (.word text) []

/-- Reads a token of a literal.  At the end of the line it turns out to be a plain word. -/
def stepLiteral (text : List Char) (token : Token) : Scan Mode :=
  match token with
  | .endOfText => decline (.word ('\'' :: text)) []
  | .run c count =>
    if c = '\n' then decline (.word ('\'' :: text)) []
    else if c = '\'' then
      accept (if 1 < count then .word (List.replicate (count - 1) '\'') else .start)
        [symbol .literal text]
    else if c = '\\' then
      let text := text ++ List.replicate (count / 2) '\\'
      accept (if count % 2 = 1 then .escape text else .literal text) []
    else accept (.literal (text ++ token.expand)) []

/-- Reads the token after a backslash in a literal.  If nothing can be escaped by it, the
literal so far is a plain word. -/
def stepEscape (text : List Char) (token : Token) : Scan Mode :=
  let broken := decline (.word []) [symbol .text ('\'' :: text ++ ['\\'])]
  match token with
  | .endOfText => broken
  | .run c count =>
    match unescape? c with
    | none => broken
    | some escaped =>
      let text := text ++ [escaped]
      if 1 < count then stepLiteral text (.run c (count - 1)) else accept (.literal text) []

/-- Reads a token. -/
def step (mode : Mode) (token : Token) : Scan Mode :=
  match mode with
  | start => stepStart token
  | breaks count => stepBreaks count token
  | comment => stepComment token
  | word text => stepWord text token
  | dot => stepDot token
  | directive name => stepDirective name token
  | inclusion => stepInclusion token
  | path text => stepPath text token
  | sign => stepSign token
  | number text => stepNumber text token
  | numberDot text => stepNumberDot text token
  | float text => stepFloat text token
  | timestamp text whole => stepTimestamp text whole token
  | color text => stepColor text token
  | literal text => stepLiteral text token
  | escape text => stepEscape text token

end Mode

/-! ## Paragraphs -/

/-- A scanner of documents. -/
structure Scanner where
  mode : Mode := .start
  /-- no symbol was handed on yet, and the document starts here -/
  fresh : Bool := true
  /-- the kind of the last symbol -/
  last : Option SymbolKind := none
deriving DecidableEq, Repr, Inhabited

/-- Whether a document that starts with a symbol of this kind starts with a paragraph. -/
def startsParagraph : SymbolKind → Bool
  | .text | .literal | .punct | .number | .signed | .float | .timestamp | .color | .bool => true
  | _ => false

namespace Scanner

/-- A scanner at the start of a document. -/
def initial : Scanner := {}

/-- A scanner for text that continues a document, as included text does. -/
def continuation : Scanner := { fresh := false }

/-- Hands on one item. -/
def handOn (scanner : Scanner) (item : Item) : Scanner × List Item :=
  match item with
  | .inclusion _ => (scanner, [item])
  | .symbol symbol =>
    if symbol.kind = .newline ∧ scanner.last = some .newline then (scanner, [])
    else
      let opening :=
        if scanner.fresh ∧ startsParagraph symbol.kind then [.symbol .newline] else []
      ({ scanner with fresh := false, last := some symbol.kind }, opening ++ [item])

/-- Hands on several items. -/
def handOnAll (scanner : Scanner) : List Item → Scanner × List Item
  | [] => (scanner, [])
  | item :: rest =>
    let (scanner, items) := scanner.handOn item
    let (scanner, more) := handOnAll scanner rest
    (scanner, items ++ more)

/-- Reads a token. -/
def scan (scanner : Scanner) (token : Token) : Scan Scanner :=
  let answer := scanner.mode.step token
  let (scanner, items) := scanner.handOnAll answer.items
  ⟨answer.taken, { scanner with mode := answer.next }, items⟩

end Scanner

/-- The items of a document. -/
def lex (text : String) : Except Fault (List Item) :=
  Docpress.lex Scanner.scan .initial text

/-- The items of text that continues a document. -/
def lexContinuation (text : String) : Except Fault (List Item) :=
  Docpress.lex Scanner.scan .continuation text

end Docpress.Document
