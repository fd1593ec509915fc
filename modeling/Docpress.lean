import Docpress.Assembly.Layout
import Docpress.Assembly.Parser
import Docpress.Assembly.Program
import Docpress.Assembly.Scanner
import Docpress.Assembly.Statement
import Docpress.Binary64
import Docpress.Binary64.Reading
import Docpress.Binary64.Shortest
import Docpress.Build
import Docpress.Checked
import Docpress.Color
import Docpress.CommandLine.Arguments
import Docpress.CommandLine.FileTree
import Docpress.CommandLine.Path
import Docpress.CommandLine.Run
import Docpress.Decimal
import Docpress.Diagnostic
import Docpress.Document.Catalogue
import Docpress.Document.Code
import Docpress.Document.Compile
import Docpress.Document.Parser
import Docpress.Document.Scanner
import Docpress.Document.Tree
import Docpress.Draft
import Docpress.Fault
import Docpress.Identifier
import Docpress.Lexer
import Docpress.Main
import Docpress.Object
import Docpress.Object.Literal
import Docpress.Object.Stream
import Docpress.Object.Varint
import Docpress.Offer
import Docpress.Opcode
import Docpress.Symbol
import Docpress.Text.Alphanumeric
import Docpress.Text.Blank
import Docpress.Text.CodeRange
import Docpress.Text.Hidden
import Docpress.Text.Numeral
import Docpress.Text.Quoted
import Docpress.Text.Structure
import Docpress.Timestamp
import Docpress.Token
import Docpress.Proofs.Offer
import Docpress.Proofs.Runs
import Docpress.Proofs.Scanning
import Docpress.Proofs.Patience
import Docpress.Proofs.DocumentMoves
import Docpress.Proofs.Completeness
import Docpress.Proofs.AssemblyStacks
import Docpress.Proofs.NoFault
import Docpress.Proofs.Leaves
import Docpress.Proofs.KeptTexts
import Docpress.Proofs.Grammar
import Docpress.Proofs.Rendered
import Docpress.Proofs.Numerals
import Docpress.Proofs.Floats
import Docpress.Proofs.Literals
import Docpress.Proofs.AssemblyLexemes
import Docpress.Proofs.QuotedTexts
import Docpress.Proofs.AssemblyStrings
import Docpress.Proofs.AssemblyLines
import Docpress.Proofs.AssemblyText
import Docpress.Proofs.Meaning
import Docpress.Proofs.LabelOffsets
import Docpress.Proofs.Contents
import Docpress.Proofs.StackMachine
import Docpress.Proofs.Readability
import Docpress.Proofs.AssemblyOffers
import Docpress.Proofs.LineBreaks
import Docpress.Proofs.LineComposition
import Docpress.Proofs.DirectiveNames
import Docpress.Proofs.DocumentContents
import Docpress.Proofs.Reports
import Docpress.Proofs.Requests
import Docpress.Proofs.WellFormedTrees
import Docpress.Proofs.Building
import Docpress.Proofs.Acceptance
import Docpress.Proofs.Placement
import Docpress.Proofs.Positions
import Docpress.Proofs.Words
import Docpress.Proofs.Paragraphs
import Docpress.Proofs.Records
import Docpress.Proofs.SymbolForms
import Docpress.Proofs.Endings
import Docpress.Proofs.IncludePositions
import Docpress.Proofs.KeptCharacters
import Docpress.Proofs.WordKinds
import Docpress.Proofs.IncludeDirectives
import Docpress.Proofs.ParameterValues
import Docpress.Proofs.OfferBounds
import Docpress.Proofs.RaisedLimits
import Docpress.Proofs.HeldCharacters
import Docpress.Proofs.LabelReferences
import Docpress.Proofs.Deliveries
import Docpress.Proofs.CodeSizes
import Docpress.Proofs.TimestampWords
import Docpress.Proofs.DirectivesBehindWords
import Docpress.Proofs.SpelledLiterals
import Docpress.Proofs.CalendarTimes
import Docpress.Proofs.FloatOperands
import Docpress.Proofs.StatementStarts
import Docpress.Proofs.AssemblyPlacement
import Docpress.Proofs.LineNumbering
import Docpress.Proofs.LineNumbers
import Docpress.Proofs.JoinedTexts
import Docpress.Proofs.Identifiers
import Docpress.Proofs.JoinedMarks
import Docpress.Proofs.FunctionTables
import Docpress.Proofs.TimestampShapes
