import Docpress.Symbol
import Docpress.Token

/-!
# Lexing

A scanner turns tokens into items: symbols, and requests to include a file.  It takes a token
or declines it; a scanner that declines has changed its state and takes the token soon.

`Lexer` runs a scanner and puts a line mark before the first symbol of every line that has
one.  All items that a token gives rise to stand on the line where the token starts.

Lines are natural numbers as the lengths of runs are: `2 ^ 64` line feeds and more, which no text
has, are left out of account.
-/

namespace Docpress

/-- What a scanner hands on. -/
inductive Item where
  | symbol (symbol : Symbol)
  /-- the request to splice in a file -/
  | inclusion (path : String)
deriving DecidableEq, Repr, Inhabited

/-- The answer of a scanner in state `σ` to a token. -/
structure Scan (σ : Type) where
  /-- the token was taken, otherwise it has to be offered again -/
  taken : Bool
  next : σ
  items : List Item := []

/-- A scanner with the line it has reached. -/
structure Lexer (σ : Type) where
  scanner : σ
  line : Nat := 1
  /-- the line that the last line mark gave -/
  reported : Nat := 0

/-- Puts a line mark before the first symbol, unless the line is already reported.  The end of
the data needs none.  The result includes the line reported last. -/
def markLines (line : Nat) : Nat → List Item → List Item × Nat
  | reported, [] => ([], reported)
  | reported, .symbol symbol :: rest =>
    if line ≠ reported ∧ symbol.kind ≠ .endOfData then
      let (marked, reported) := markLines line line rest
      (.symbol (.lineMark line) :: .symbol symbol :: marked, reported)
    else
      let (marked, reported) := markLines line reported rest
      (.symbol symbol :: marked, reported)
  | reported, .inclusion path :: rest =>
    let (marked, reported) := markLines line reported rest
    (.inclusion path :: marked, reported)

namespace Lexer

variable {σ : Type} (scan : σ → Token → Scan σ)

/-- Offers a token once.  The result says whether it was taken, and what it gave rise to. -/
def put (token : Token) (lexer : Lexer σ) : Bool × Lexer σ × List Item :=
  let answer := scan lexer.scanner token
  let (items, reported) := markLines lexer.line lexer.reported answer.items
  let line := if answer.taken then lexer.line + token.lineFeeds else lexer.line
  (answer.taken, { scanner := answer.next, line, reported }, items)

/-- How often a token is offered before the scanner is given up on. -/
def attemptLimit : Nat := 64

/-- Offers a token until it is taken. -/
def take (lexer : Lexer σ) (token : Token) : Except Fault (Lexer σ × List Item) :=
  let attempt := fun (lexer, items) =>
    let (taken, lexer, more) := put scan token lexer
    (taken, lexer, items ++ more)
  match offer (m := Id) attemptLimit attempt (lexer, []) with
  | (true, result) => .ok result
  | (false, _) => .error (.livelock attemptLimit)

/-- The items of a sequence of tokens. -/
def takeAll (lexer : Lexer σ) : List Token → Except Fault (List Item)
  | [] => .ok []
  | token :: rest => do
    let (lexer, items) ← lexer.take scan token
    let more ← takeAll lexer rest
    return items ++ more

end Lexer

/-- The items of a text, scanned from the given state. -/
def lex {σ : Type} (scan : σ → Token → Scan σ) (start : σ) (text : String) :
    Except Fault (List Item) := do
  let tokens ← Token.ofText text.toList
  Lexer.takeAll scan { scanner := start } tokens

end Docpress
