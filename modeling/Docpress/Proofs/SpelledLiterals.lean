import Docpress.Proofs.QuotedTexts
import Docpress.Proofs.TimestampWords

/-!
# Literals of documents

Every text but the empty one can be written as a literal: with a backslash before quotes and
backslashes, and with escapes for line feeds and tabs.  Carriage returns stay as they are, for no
line feed follows them between the quotes.
-/

namespace Docpress.Document

open Mode

/-- A character as it is spelled in a literal. -/
def literalChar : Char → List Char
  | '\\' => ['\\', '\\']
  | '\'' => ['\\', '\'']
  | '\n' => ['\\', 'n']
  | '\t' => ['\\', 't']
  | c => [c]

/-- The literal that spells a text. -/
def literalText (text : String) : String :=
  String.ofList ('\'' :: (text.toList.flatMap literalChar ++ ['\'']))

/-- How literals are read. -/
def literalQuoting : Quoting Mode where
  quote := '\''
  collecting := .literal
  escaping := .escape
  closed := .start
  unescape? := unescape?
  items text := [symbol .literal text]

theorem literalQuoting_lawful : literalQuoting.Lawful step where
  quote_ne_backslash := by decide
  unescape?_quote := rfl
  unescape?_backslash := rfl
  plain text c hc count :=
    (if_neg hc.noBreak).trans ((if_neg hc.noQuote).trans (if_neg hc.noBackslash))
  backslashes _ _ := rfl
  escaped text c meant hmeant := by
    change unescape? c = some meant at hmeant
    simp only [literalQuoting, step, stepEscape, hmeant]
    rfl
  escaped_run text c meant hmeant count := by
    change unescape? c = some meant at hmeant
    simp only [literalQuoting, step, stepEscape, hmeant]
    exact if_pos (by omega)
  close _ := rfl

theorem spells_literalChar (c : Char) : literalQuoting.Spells c (literalChar c) := by
  unfold literalChar
  split
  · exact .escape rfl
  · exact .escape rfl
  · exact .escape rfl
  · exact .escape rfl
  · rename_i hbackslash hquote hbreak _
    exact .itself ⟨hbreak, hquote, hbackslash⟩

/-- A literal at the end of a document. -/
theorem scans_literalText {text : String} (hne : text ≠ "") :
    Scans step .start (Token.runs (dropReturns (literalText text).toList) ++ [Token.endOfText])
      .start [symbol .literal text.toList, Item.symbol .endOfData] := by
  have hbreak : '\n' ∉ (literalText text).toList := by
    have := Quoting.lineFeed_not_mem_spelled spells_literalChar rfl text.toList
    simp [literalText, this]
  have hchars : text.toList ≠ [] := fun hnil => hne (String.toList_eq_nil_iff.1 hnil)
  rw [dropReturns_of_noBreak hbreak, literalText, String.toList_ofList]
  exact (Quoting.scans_quoted literalQuoting_lawful spells_literalChar rfl hchars).append
    (.of_taken rfl)

/-- Every text but the empty one is what a literal stands for.  A document that consists of the
literal is a paragraph with this text. -/
theorem lex_literalText {text : String} (hne : text ≠ "") :
    ∃ items, lex (literalText text) = .ok items ∧
      unmarked items =
        [Item.symbol .newline, .symbol ⟨.literal, text⟩, .symbol .endOfData] := by
  obtain ⟨items, hlex, hitems⟩ := lex_initial_of_scans (scans_literalText hne)
  refine ⟨items, hlex, ?_⟩
  rw [hitems, symbol, String.ofList_toList]
  rfl

/-- A backslash before a line feed, an `n` behind it, a carriage return, and a quote at the end. -/
theorem lex_literalText_mixed :
    "\\\nn\r\t''" ≠ "" ∧ literalText "\\\nn\r\t''" = "'\\\\\\nn\r\\t\\'\\''" ∧
    ∃ items, lex (literalText "\\\nn\r\t''") = .ok items ∧
      unmarked items =
        [Item.symbol .newline, .symbol ⟨.literal, "\\\nn\r\t''"⟩, .symbol .endOfData] :=
  ⟨by decide, by decide, lex_literalText (by decide)⟩

end Docpress.Document
