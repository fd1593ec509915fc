import Docpress.Proofs.AssemblyLexemes
import Docpress.Proofs.QuotedTexts

/-!
# What strings of assembly text are read as

Strings are texts between quotes (`stringQuoting`), and the code of a document spells them so that
they are read as they are meant (`spells_escapedChar`).

Colors are spelled as literals with a type tag, in which nothing has to be escaped.
-/

namespace Docpress.Assembly

open Mode

/-! ## Strings -/

/-- How strings are read. -/
def stringQuoting : Quoting Mode where
  quote := '"'
  collecting := .string false
  escaping := .escape false
  closed := .start
  unescape? := unescape?
  items text := [symbol .literal text]

theorem stringQuoting_lawful : stringQuoting.Lawful step where
  quote_ne_backslash := by decide
  unescape?_quote := rfl
  unescape?_backslash := rfl
  plain text c hc count :=
    (if_neg hc.noBreak).trans ((if_neg hc.noQuote).trans (if_neg hc.noBackslash))
  backslashes _ _ := rfl
  escaped text c meant hmeant := by
    change unescape? c = some meant at hmeant
    simp only [stringQuoting, step, stepEscape, hmeant]
    rfl
  escaped_run text c meant hmeant count := by
    change unescape? c = some meant at hmeant
    simp only [stringQuoting, step, stepEscape, hmeant]
    exact if_pos (by omega)
  close _ := rfl

theorem spells_escapedChar (c : Char) : stringQuoting.Spells c (Document.escapedChar c) := by
  unfold Document.escapedChar
  split
  · exact .escape rfl
  · exact .escape rfl
  · exact .escape rfl
  · exact .escape rfl
  · rename_i hbackslash hquote hbreak _
    exact .itself ⟨hbreak, hquote, hbackslash⟩

theorem scans_string (text : List Char) :
    Scans step .start (Token.runs ('"' :: (text.flatMap Document.escapedChar ++ ['"']))) .start
      [symbol .literal text] := by
  by_cases hne : text = []
  · subst hne
    exact .of_taken rfl
  · exact Quoting.scans_quoted stringQuoting_lawful spells_escapedChar rfl hne

/-- A string at the end of a line. -/
theorem standsFor_string (text : String) :
    StandsFor (Document.quoteString text).toList [⟨.literal, text⟩] := by
  have htext : (Document.quoteString text).toList =
      '"' :: (text.toList.flatMap Document.escapedChar ++ ['"']) := String.toList_ofList
  rw [htext]
  refine ⟨?_, ?_, ⟨_, _, rfl, by decide⟩, ?_⟩
  · have hleaves : Leaves .start [] := .of_taken rfl
    apply readsAs_of_scans (scans_string text.toList) hleaves
    simp [symbol]
  · have := Quoting.lineFeed_not_mem_spelled spells_escapedChar rfl text.toList
    simp [this]
  · rw [← List.cons_append, List.getLast?_concat]
    decide

/-! ## Colors -/

theorem scans_tagged {text : List Char} (htext : ∀ c ∈ text, isGraphic c = true ∧ c ≠ '\'' ∧ c ≠ '\\')
    (hne : text ≠ []) :
    Scans step .start (Token.runs ('\'' :: (text ++ ['\'']))) .start (stringSymbols true text) := by
  have hopen : step .start (.run '\'' 1) = accept (.string true []) [] := rfl
  have hcollects (seen : List Char) (c : Char) (count : Nat)
      (hc : isGraphic c = true ∧ c ≠ '\'' ∧ c ≠ '\\') (_ : 0 < count) :
      Scans.Collects step (.string true) seen c count := by
    have hbreak : c ≠ '\n' := by
      rintro rfl
      exact absurd hc.1 (by decide)
    exact (if_neg hbreak).trans ((if_neg hc.2.1).trans (if_neg hc.2.2))
  have hscans : Scans step (.string true []) (Token.runs text) (.string true ([] ++ text)) [] :=
    Scans.accumulate_of_forall (Mode.string true) hcollects htext
  have hborder : text.getLast? ≠ some '\'' := getLast?_ne_of_forall htext (by decide)
  have hquote : Scans step (.string true ([] ++ text)) (Token.runs ['\'']) .start
      (stringSymbols true text) := .of_taken rfl
  have hclose := hscans.meet hborder hquote
  obtain ⟨first, rest, rfl⟩ := List.exists_cons_of_ne_nil hne
  exact .of_taken_char hopen (htext first List.mem_cons_self).2.1 hclose

theorem isGraphic_of_isHexDigit {c : Char} (hc : Text.isHexDigit c = true) :
    isGraphic c = true := by
  have hval : c.toNat = c.val.toNat := rfl
  have hbounds : 'a'.val.toNat = 0x61 ∧ 'f'.val.toNat = 0x66 ∧ 'A'.val.toNat = 0x41 ∧
      'F'.val.toNat = 0x46 := by decide
  simp only [Text.isHexDigit, Bool.or_eq_true, Bool.and_eq_true, decide_eq_true_eq, Char.le_def,
    UInt32.le_iff_toNat_le] at hc
  rcases hc with (hdigit | hlower) | hupper
  · exact isGraphic_of_isDigit hdigit
  · rw [isGraphic_iff]
    omega
  · rw [isGraphic_iff]
    omega

/-- A color at the end of a line. -/
theorem standsFor_color (c : Color) :
    StandsFor ("'color:" ++ c.text ++ "'").toList [⟨.literal, c.text⟩, ⟨.typeTag, "color"⟩] := by
  obtain ⟨digits, htext, hdigits⟩ := Color.toList_text c
  have hspelling : ("'color:" ++ c.text ++ "'").toList =
      '\'' :: ("color:".toList ++ c.text.toList ++ ['\'']) := by
    simp
  have hchars : ∀ d ∈ "color:".toList ++ c.text.toList,
      isGraphic d = true ∧ d ≠ '\'' ∧ d ≠ '\\' := by
    intro d hmem
    rw [htext, List.mem_append, List.mem_cons] at hmem
    rcases hmem with hmem | rfl | hmem
    · have hall : "color:".toList.all
          (fun d => isGraphic d && d != '\'' && d != '\\') = true := by decide
      simpa [and_assoc] using List.all_eq_true.1 hall d hmem
    · decide
    · have hdigit := hdigits d hmem
      refine ⟨isGraphic_of_isHexDigit hdigit, ?_, ?_⟩
      · rintro rfl
        exact absurd hdigit (by decide)
      · rintro rfl
        exact absurd hdigit (by decide)
  have hsymbols : stringSymbols true ("color:".toList ++ c.text.toList) =
      [symbol .literal c.text.toList, symbol .typeTag "color".toList] := by
    rw [htext]
    rfl
  rw [hspelling]
  refine .of_isGraphic ?_ (by simp) ?_
  · have hleaves : Leaves .start [] := .of_taken rfl
    apply readsAs_of_scans (scans_tagged hchars (by simp)) hleaves
    rw [hsymbols]
    simp [symbol]
  · intro d hmem
    simp only [List.mem_cons, List.mem_append (t := ['\'']), List.not_mem_nil, or_false] at hmem
    rcases hmem with rfl | hmem | rfl
    · decide
    · exact (hchars d hmem).1
    · decide

end Docpress.Assembly
