import Docpress.Text.Numeral

/-!
# Symbols

What a scanner hands to a parser.  Both languages share the kinds; labels, instructions and
type tags occur in assembly text only.
-/

namespace Docpress

/-- The kind of a symbol. -/
inductive SymbolKind where
  | endOfData
  | directive
  | text
  | literal
  | label
  | instruction
  | punct
  | timestamp
  | color
  | bool
  | number
  | signed
  | float
  | newline
  | typeTag
  /-- the file that the following symbols stand in -/
  | fileMark
  /-- the line that the following symbols stand on -/
  | lineMark
deriving DecidableEq, Repr, Inhabited

/-- The name of the kind in messages. -/
def SymbolKind.name : SymbolKind → String
  | endOfData => "END"
  | directive => "DIRECTIVE"
  | text => "TEXT"
  | literal => "LITERAL"
  | label => "LABEL"
  | instruction => "INSTRUCTION"
  | punct => "PUNCT"
  | timestamp => "TIMESTAMP"
  | color => "COLOR"
  | bool => "BOOL"
  | number => "NUMBER"
  | signed => "SIGNED"
  | float => "FLOAT"
  | newline => "NEWLINE"
  | typeTag => "TYPE_TAG"
  | fileMark => "FILE_MARK"
  | lineMark => "LINE_MARK"

/-- A symbol with the text it was made from. -/
structure Symbol where
  kind : SymbolKind
  text : String
deriving DecidableEq, Repr, Inhabited

namespace Symbol

/-- The end of the input. -/
def endOfData : Symbol := ⟨.endOfData, ""⟩

/-- A line break, or a paragraph break in documents. -/
def newline : Symbol := ⟨.newline, ""⟩

/-- A punctuation mark. -/
def punct (c : Char) : Symbol := ⟨.punct, String.singleton c⟩

/-- The mark that names a file. -/
def fileMark (name : String) : Symbol := ⟨.fileMark, name⟩

/-- The mark that gives a line number. -/
def lineMark (line : Nat) : Symbol := ⟨.lineMark, Text.decimal line⟩

/-- Whether the symbol is the given punctuation mark. -/
def isPunct (symbol : Symbol) (c : Char) : Bool :=
  symbol = punct c

/-- The form in which messages show a symbol. -/
def display (symbol : Symbol) : String :=
  match symbol.kind with
  | .endOfData => "end of data"
  | .newline => "line break"
  | .punct => s!"'{symbol.text}'"
  | kind => s!"{kind.name} '{symbol.text}'"

end Symbol
end Docpress
