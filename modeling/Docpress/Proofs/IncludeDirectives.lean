import Docpress.Proofs.Placement
import Docpress.Proofs.SymbolForms

/-!
# Include directives

An include directive leaves no trace but its request.  What follows it is lexed as if it were a
text of its own, with the same line marks and the same paragraph at its start.  What follows are
not all characters behind the parenthesis that closes the path, however: a run of parentheses
closes it as a whole, so that those behind the first are lost.

* `Lexer.takeAll_append_of_inclusions`: tokens that lead to requests only, and hold no line feed,
  leave the lexer as it was.
* `Mode.scans_directive`: the tokens of a directive, of which the last is the run of parentheses.
* `Scanner.filter_handOnAll`: apart from paragraph breaks, all that is read is handed on, so that
  parentheses can be missed.
-/

namespace Docpress

/-! ## Requests -/

/-- Requests need no line mark. -/
theorem markLines_of_inclusions {items : List Item}
    (hitems : ∀ item ∈ items, ∃ path, item = .inclusion path) (line reported : Nat) :
    markLines line reported items = (items, reported) := by
  induction items with
  | nil => rfl
  | cons item items ih =>
    rw [List.forall_mem_cons] at hitems
    obtain ⟨⟨path, rfl⟩, hrest⟩ := hitems
    rw [markLines, ih hrest]

section

variable {σ : Type} {scan : σ → Token → Scan σ}

theorem Lexer.takeAll_append_of_inclusions (patient : Patient scan) {lexer : Lexer σ}
    {first second : List Token} {between : σ} {raw : List Item}
    (hscans : Scans scan lexer.scanner first between raw)
    (hraw : ∀ item ∈ raw, ∃ path, item = .inclusion path)
    (hfirst : ∀ token ∈ first, token.lineFeeds = 0) :
    lexer.takeAll scan (first ++ second) =
      (raw ++ ·) <$> ({ lexer with scanner := between } : Lexer σ).takeAll scan second := by
  induction first generalizing lexer raw with
  | nil =>
    cases hscans
    simp
  | cons token first ih =>
    rw [List.forall_mem_cons] at hfirst
    have hsplit : Scans scan lexer.scanner ([token] ++ first) between raw := hscans
    obtain ⟨next, items, more, htoken, hrest, rfl⟩ := hsplit.split
    rw [List.forall_mem_append] at hraw
    obtain ⟨next, items, htaken, htake⟩ := take_eq_markLines patient lexer token
    obtain ⟨rfl, rfl⟩ := htaken.unique htoken
    rw [markLines_of_inclusions hraw.1, hfirst.1, Nat.add_zero] at htake
    have hmore := @ih ⟨next, lexer.line, lexer.reported⟩ more hrest hraw.2 hfirst.2
    rw [List.cons_append, takeAll, htake]
    change (do
      let more ← takeAll scan ⟨next, lexer.line, lexer.reported⟩ (first ++ second)
      pure (items ++ more) : Except Fault (List Item)) = _
    rw [hmore]
    cases takeAll scan ⟨between, lexer.line, lexer.reported⟩ second with
    | error fault => rfl
    | ok rest => exact congrArg Except.ok (List.append_assoc items more rest).symm

/-- A text is lexed from its tokens. -/
theorem lex_eq_takeAll (start : σ) (text : String) :
    lex scan start text = Lexer.takeAll scan { scanner := start }
      (Token.runs (dropReturns text.toList) ++ [Token.endOfText]) := by
  rw [lex, Token.ofText_eq]
  rfl

end

namespace Document

open Token (runs)

/-! ## Directives -/

section

variable {path : List Char} (hclose : ')' ∉ path) (hline : '\n' ∉ path)
  (hopen : path.head? ≠ some '(')

include hclose hopen in
/-- The tokens of a directive with parentheses behind its path. -/
theorem runs_directive {count : Nat} (hcount : 0 < count) {rest : List Char}
    (hrest : rest.head? ≠ some ')') :
    runs (Mode.inclusionOpening ++ path ++ List.replicate count ')' ++ rest) =
      runs Mode.inclusionOpening ++ runs path ++ [Token.run ')' count] ++ runs rest := by
  have hopening : Mode.inclusionOpening.getLast? = some '(' := rfl
  have hlast : (Mode.inclusionOpening ++ path).getLast? ≠ some ')' := by
    intro hlast
    rw [List.getLast?_append, hopening] at hlast
    cases hpath : path.getLast? with
    | none => simp [hpath] at hlast
    | some c =>
      rw [hpath] at hlast
      cases hlast
      exact hclose (List.mem_of_getLast? hpath)
  have hapart : ∀ c ∈ path.head?, Mode.inclusionOpening.getLast? ≠ some c := by
    rintro c hhead hc
    rw [hopening] at hc
    cases hc
    exact hopen hhead
  rw [Token.runs_around hlast hrest hcount, Token.runs_append_of_apart hapart]
  simp

include hclose hline in
/-- A directive asks for its file, and all parentheses behind the path close it. -/
theorem Mode.scans_directive (count : Nat) :
    Scans step .start (runs inclusionOpening ++ runs path ++ [Token.run ')' count]) .start
      [.inclusion (String.ofList (Text.trim path))] := by
  have hcollects : ∀ c ∈ path, c ≠ ')' ∧ c ≠ '\n' := by
    intro c hmem
    constructor <;> rintro rfl
    · exact hclose hmem
    · exact hline hmem
  have hpath : Scans step (.path []) (runs path) (.path path) [] :=
    Scans.accumulate_of_forall Mode.path
      (fun seen c _ hc _ => collects_path_of_ne hc.1 hc.2 seen) hcollects
  have hclosing : step (.path path) (.run ')' count) =
    ⟨true, .start, [.inclusion (String.ofList (Text.trim path))]⟩ := rfl
  exact (scans_inclusionOpening.append hpath).append (.of_taken hclosing)

include hline in
/-- The directive stands on one line, and carriage returns behind it are dropped without it. -/
theorem dropReturns_directive {count : Nat} (hcount : 0 < count) (rest : List Char) :
    dropReturns (Mode.inclusionOpening ++ path ++ List.replicate count ')' ++ rest) =
      Mode.inclusionOpening ++ path ++ List.replicate count ')' ++ dropReturns rest := by
  have hbreak : '\n' ∉ Mode.inclusionOpening ++ path := by
    rw [List.mem_append, not_or]
    exact ⟨by decide, hline⟩
  have hparens : ∀ c ∈ (List.replicate count ')' ++ rest).head?, c ≠ '\r' ∧ c ≠ '\n' := by
    intro c hhead
    obtain ⟨more, rfl⟩ : ∃ more, count = more + 1 := ⟨count - 1, by omega⟩
    obtain rfl : ')' = c := by simpa [List.replicate_succ] using hhead
    decide
  rw [List.append_assoc, dropReturns_append hparens, dropReturns_of_noBreak hbreak,
    dropReturns_append_left (by simp), ← List.append_assoc]

include hline in
theorem lineFeeds_directive (count : Nat) :
    ∀ token ∈ runs Mode.inclusionOpening ++ runs path ++ [Token.run ')' count],
      token.lineFeeds = 0 := by
  have hruns {text : List Char} (htext : '\n' ∉ text) :
      ∀ token ∈ runs text, token.lineFeeds = 0 := by
    intro token hmem
    obtain ⟨c, number, rfl, -, hc⟩ := Token.exists_run_of_mem_runs hmem
    have hfeed : c ≠ '\n' := by
      rintro rfl
      exact htext hc
    exact if_neg hfeed
  simp only [List.forall_mem_append, List.forall_mem_singleton]
  exact ⟨⟨hruns (by decide), hruns hline⟩, rfl⟩

include hclose hline hopen in
/-- What stands behind a directive is lexed as if there had been none. -/
theorem lex_directive {start : Scanner} (hstart : start.mode = .start) {count : Nat}
    (hcount : 0 < count) {rest : List Char} (hrest : rest.head? ≠ some ')') :
    Docpress.lex Scanner.scan start
        (String.ofList (Mode.inclusionOpening ++ path ++ List.replicate count ')' ++ rest)) =
      (.inclusion (String.ofList (Text.trim path)) :: ·) <$>
        Docpress.lex Scanner.scan start (String.ofList rest) := by
  have hhead : (dropReturns rest).head? ≠ some ')' := head?_dropReturns_ne (by decide) hrest
  have hscans := Scanner.scans_of_mode (Mode.scans_directive hclose hline count) start hstart
  have hscanner : ({ start with mode := .start } : Scanner) = start := by
    rw [← hstart]
  have hlexed := @Lexer.takeAll_append_of_inclusions _ _ Scanner.patient { scanner := start }
    (runs Mode.inclusionOpening ++ runs path ++ [Token.run ')' count])
    (runs (dropReturns rest) ++ [Token.endOfText]) start
    [.inclusion (String.ofList (Text.trim path))] (hscanner ▸ hscans) (by simp)
    (lineFeeds_directive hline count)
  rw [lex_eq_takeAll, lex_eq_takeAll, String.toList_ofList, String.toList_ofList,
    dropReturns_directive hline hcount, runs_directive hclose hopen hcount hhead, List.append_assoc]
  exact hlexed

end

/-! ## Parentheses -/

/-- Whether the item is a paragraph break. -/
def isBreak : Item → Bool
  | .symbol symbol => symbol.kind = .newline
  | .inclusion _ => false

namespace Scanner

/-- The scanner adds and drops paragraph breaks only. -/
theorem filter_handOn (scanner : Scanner) (item : Item) :
    (scanner.handOn item).2.filter (!isBreak ·) = [item].filter (!isBreak ·) := by
  cases item with
  | inclusion path => rfl
  | symbol symbol =>
    unfold handOn
    dsimp only
    split
    · rename_i hdropped
      simp [isBreak, hdropped.1]
    · split
      · rfl
      · rfl

theorem filter_handOnAll (scanner : Scanner) (items : List Item) :
    (scanner.handOnAll items).2.filter (!isBreak ·) = items.filter (!isBreak ·) := by
  induction items generalizing scanner with
  | nil => rfl
  | cons item items ih =>
    calc (scanner.handOnAll (item :: items)).2.filter (!isBreak ·)
        = (scanner.handOn item).2.filter (!isBreak ·) ++
            ((scanner.handOn item).1.handOnAll items).2.filter (!isBreak ·) :=
          List.filter_append ..
      _ = [item].filter (!isBreak ·) ++ items.filter (!isBreak ·) := by
          rw [filter_handOn, ih]
      _ = (item :: items).filter (!isBreak ·) := (List.filter_append ..).symm

end Scanner

/-- Parentheses at the start of a text are symbols of their own. -/
theorem lex_parens_ne {start : Scanner} (hstart : start.mode = .start) {count : Nat}
    (hcount : 0 < count) {rest : List Char} (hrest : rest.head? ≠ some ')') :
    Docpress.lex Scanner.scan start (String.ofList (List.replicate count ')' ++ rest)) ≠
      Docpress.lex Scanner.scan start (String.ofList rest) := by
  intro hsame
  obtain ⟨items, raw, hlex, hmarked, hraw⟩ := lex_eq_handOnAll hstart (String.ofList rest)
  obtain ⟨items', raw', hlex', hmarked', hraw'⟩ :=
    lex_eq_handOnAll hstart (String.ofList (List.replicate count ')' ++ rest))
  rw [hlex, hlex'] at hsame
  cases hsame
  have hhanded : (start.handOnAll raw').2 = (start.handOnAll raw).2 := by
    rw [← unmarked_handOnAll hraw, ← unmarked_handOnAll hraw', ← hmarked.unmarked_eq,
      ← hmarked'.unmarked_eq]
  have hread : raw'.filter (!isBreak ·) = raw.filter (!isBreak ·) := by
    rw [← start.filter_handOnAll, hhanded, start.filter_handOnAll]
  -- but there are parentheses among the items of the one text and not of the other
  have hhead : (dropReturns rest).head? ≠ some ')' := head?_dropReturns_ne (by decide) hrest
  have hruns : runs (List.replicate count ')' ++ dropReturns rest) =
      .run ')' count :: runs (dropReturns rest) := by
    have hnone : ([] : List Char).getLast? ≠ some ')' := by simp
    exact Token.runs_around hnone hhead hcount
  have hparens : Mode.step .start (.run ')' count) =
    ⟨true, .start, List.replicate count (.symbol (.punct ')'))⟩ := rfl
  rw [String.toList_ofList] at hraw hraw'
  rw [dropReturns_append_left (by simp), hruns] at hraw'
  obtain ⟨-, rfl⟩ := hraw'.unique (.taken hparens hraw)
  have hlength := congrArg List.length hread
  simp [List.filter_append, isBreak, Symbol.punct] at hlength
  omega

/-- Behind an include directive, a text is lexed as if it stood alone, but without the parentheses
that it begins with: they close the directive too. -/
theorem lex_behind_directive {path : String} (hclose : ')' ∉ path.toList)
    (hline : '\n' ∉ path.toList) (hopen : path.toList.head? ≠ some '(') (rest : String) :
    ∃ items, lex (String.ofList (rest.toList.dropWhile (· == ')'))) = .ok items ∧
      lex (".include(" ++ path ++ ")" ++ rest) =
        .ok (.inclusion (String.ofList (Text.trim path.toList)) :: items) ∧
      (lex rest = .ok items ↔ rest.toList.head? ≠ some ')') := by
  obtain ⟨count, more, hrest, hmore⟩ := Token.exists_leading_run ')' rest.toList
  obtain ⟨items, -, hlex, -, -⟩ :=
    lex_eq_handOnAll (show Scanner.initial.mode = .start from rfl) (String.ofList more)
  have hdrop : rest.toList.dropWhile (· == ')') = more := by
    rw [hrest, List.dropWhile_append_of_pos (by simp)]
    cases more with
    | nil => rfl
    | cons c more => exact List.dropWhile_cons_of_neg (by simpa using hmore)
  have htext : ".include(" ++ path ++ ")" ++ rest = String.ofList
      (Mode.inclusionOpening ++ path.toList ++ List.replicate (count + 1) ')' ++ more) := by
    have hparen : ")".toList = [')'] := rfl
    rw [← String.toList_inj, String.toList_ofList, String.toList_append, String.toList_append,
      String.toList_append, hrest, hparen, List.replicate_succ]
    unfold Mode.inclusionOpening
    simp only [List.append_assoc, List.cons_append, List.nil_append]
  have hsame : rest = String.ofList (List.replicate count ')' ++ more) := by
    rw [← hrest, String.ofList_toList]
  refine ⟨items, by rw [hdrop]; exact hlex, ?_, ?_⟩
  · have hdirective := lex_directive hclose hline hopen
      (show Scanner.initial.mode = .start from rfl) (Nat.succ_pos count) hmore
    rw [hlex] at hdirective
    rw [htext]
    exact hdirective
  · cases count with
    | zero =>
      rw [hrest]
      exact iff_of_true (hsame ▸ hlex) hmore
    | succ count =>
      have hne := lex_parens_ne (show Scanner.initial.mode = .start from rfl)
        (Nat.succ_pos count) hmore
      rw [hlex, ← hsame] at hne
      exact iff_of_false hne (by simp [hrest, List.replicate_succ])

/-- Two parentheses too many, and blanks around the path. -/
theorem lex_behind_closedTwice :
    (')' ∉ " a/b \r".toList ∧ '\n' ∉ " a/b \r".toList ∧ " a/b \r".toList.head? ≠ some '(') ∧
    ∃ items, lex "\n\n(c" = .ok items ∧
      lex ".include( a/b \r)))\n\n(c" = .ok (.inclusion "a/b" :: items) ∧
      lex "))\n\n(c" ≠ .ok items := by
  have hclose : ')' ∉ " a/b \r".toList := by decide
  have hline : '\n' ∉ " a/b \r".toList := by decide
  have hopen : " a/b \r".toList.head? ≠ some '(' := by decide
  obtain ⟨items, halone, hbehind, hsame⟩ := lex_behind_directive hclose hline hopen "))\n\n(c"
  have hrest : String.ofList ("))\n\n(c".toList.dropWhile (· == ')')) = "\n\n(c" := by decide
  have hpath : String.ofList (Text.trim " a/b \r".toList) = "a/b" := by decide +kernel
  rw [hrest] at halone
  rw [hpath] at hbehind
  exact ⟨⟨hclose, hline, hopen⟩, items, halone, hbehind, mt hsame.1 (by decide)⟩

/-- A parenthesis behind a directive is missing from the items, although it is one of the text that
follows. -/
theorem lex_include_then_paren :
    lex ".include(a))" = .ok [.inclusion "a", .symbol .endOfData] ∧
    lex ")" = .ok [.symbol (.lineMark 1), .symbol .newline, .symbol (.punct ')'),
      .symbol .endOfData] := by
  decide +kernel

end Document
end Docpress
