import Docpress.Proofs.LineBreaks
import Docpress.Proofs.SymbolForms

/-!
# How lexing ends

Every text is lexed to its end, by both scanners.  The end of the data is the last item and there
is no other one (`EndsOnce`), because only the end of the text stands for it and the scanners take
that only between words.  No scanner is given up on: in whatever state it is, it takes a token at
the fourth offer at the latest (`TakesWithin`), since every declined offer lowers a rank that is
at most three.
-/

namespace Docpress

/-! ## Offers -/

section

variable {σ : Type}

/-- In every state the scanner takes every token within that many offers. -/
def TakesWithin (limit : Nat) (scan : σ → Token → Scan σ) : Prop :=
  ∀ state token, (offer (m := Id) limit
    (fun state => ((scan state token).taken, (scan state token).next)) state).1 = true

theorem Patient.takesWithin {scan : σ → Token → Scan σ} (patient : Patient scan) {limit : Nat}
    (hrank : ∀ state token, patient.rank state token < limit) : TakesWithin limit scan := by
  intro state token
  apply offer_taken_of_rank fun state => patient.rank state token
  · exact fun state hdeclined => patient.declined_lt hdeclined
  · exact hrank state token

end

/-! ## The last item -/

/-- The end of the data is the last item, and there is no other one. -/
def EndsOnce (items : List Item) : Prop :=
  ∃ before, items = before ++ [.symbol .endOfData] ∧ ∀ item ∈ before, item.isEnd = false

/-- Line marks do not move the end of the data. -/
theorem EndsOnce.of_lineMarked {items raw : List Item} (hraw : EndsOnce raw)
    (hmarked : LineMarked items raw) : EndsOnce items := by
  obtain ⟨before, rfl, hbefore⟩ := hraw
  have hlast := hmarked.getLast?_eq
  rw [List.getLast?_concat, List.getLast?_eq_some_iff] at hlast
  obtain ⟨front, rfl⟩ := hlast
  have hfront : unmarked front = unmarked before := by
    have hitems := hmarked.unmarked_eq
    rw [unmarked_append, unmarked_append] at hitems
    exact List.append_cancel_right hitems
  exact ⟨front, rfl, isEnd_of_unmarked hfront hbefore⟩

/-! ## Documents -/

namespace Document

theorem Formed.isEnd {item : Item} (hformed : Formed item) : item.isEnd = false := by
  cases item with
  | inclusion path => rfl
  | symbol symbol =>
    apply decide_eq_false
    rcases hformed with hdirective | ⟨hkind, -⟩
    · simp [hdirective]
    · exact hkind

/-- The text of a document, or one that continues it, is lexed to its end. -/
theorem endsOnce_of_start {start : Scanner} (hstart : start.mode = .start) (text : String) :
    ∃ items, Docpress.lex Scanner.scan start text = .ok items ∧ EndsOnce items := by
  obtain ⟨items, before, hlex, hmarked, hformed⟩ := lex_eq_formed hstart text
  refine ⟨items, hlex, .of_lineMarked ⟨_, rfl, fun item hmem => ?_⟩ hmarked⟩
  rcases Scanner.mem_handOnAll hmem with rfl | hmem
  · rfl
  · exact (hformed item hmem).isEnd

end Document

/-! ## Assembly text -/

namespace Assembly

/-- What is handed on at the end of a line, before the symbol for the line end, does not end the
data. -/
theorem Ends.noEnd {mode : Mode} {items : List Item} (hends : Ends mode items) : NoEnd items := by
  have hbreak := hends _ _ (.breaks Nat.one_pos)
  rw [← Token.runs_singleton] at hbreak
  exact ((noEnd_append _ _).1 (noEnd_of_scans hbreak)).1

/-- Assembly text is lexed to its end. -/
theorem endsOnce_of_text (text : String) :
    ∃ items, lex text = .ok items ∧ EndsOnce items := by
  obtain ⟨items, last, raw, hlex, hraw, hmarked⟩ := lex_eq_lineMarked Mode.patient .start text
  obtain ⟨mode, before, after, hbefore, hafter, rfl⟩ := hraw.split
  -- the end of the text finishes what is being read as a line break does
  obtain ⟨finished, hends⟩ := mode.exists_ends
  obtain ⟨-, rfl⟩ := hafter.unique (hends _ _ .endOfText)
  refine ⟨items, hlex, .of_lineMarked ⟨before ++ finished, ?_, ?_⟩ hmarked⟩
  · rw [List.append_assoc]
  · exact (noEnd_append _ _).2 ⟨noEnd_of_scans hbefore, hends.noEnd⟩

end Assembly

/-- Every text is lexed to its end, as a document, as the continuation of one and as assembly
text, and neither scanner ever needs more than four offers to take a token. -/
theorem lex_endsOnce (text : String) :
    (∃ items, Document.lex text = .ok items ∧ EndsOnce items) ∧
    (∃ items, Document.lexContinuation text = .ok items ∧ EndsOnce items) ∧
    (∃ items, Assembly.lex text = .ok items ∧ EndsOnce items) ∧
    TakesWithin 4 Document.Scanner.scan ∧ TakesWithin 4 Assembly.Mode.step := by
  refine ⟨Document.endsOnce_of_start rfl text, Document.endsOnce_of_start rfl text,
    Assembly.endsOnce_of_text text, Document.Scanner.patient.takesWithin fun scanner token => ?_,
    Assembly.Mode.patient.takesWithin fun mode token => ?_⟩
  · exact Nat.lt_succ_of_le (Document.Mode.rank_le scanner.mode token)
  · exact Nat.lt_succ_of_le (Assembly.Mode.rank_le mode token)

end Docpress
