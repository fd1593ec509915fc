import Docpress.Proofs.DirectiveNames
import Docpress.Proofs.Draft

/-!
# Where items come from

`place` lexes a text as `lex` does and keeps with every item the token that gave rise to it and
the text before that token.  Forgetting these leaves the items of `lex` (`map_item_place`), so
that `Placed.line`, the line on which the token starts, is a fact about every item of a text.

`Marked reported items last` says how the line marks among the items tell the lines of the
others.  A line mark gives the line of its own token.  Every other symbol, the end of the data
excepted, is on the line that was reported last, before these items (`reported`) or among them.
It holds of each token's items (`Lexer.marked_take`) and so of a text (`Document.place_marked`).
-/

namespace Docpress

/-! ## Definitions -/

/-- An item with the token that gave rise to it. -/
structure Placed where
  /-- the text before the token -/
  before : List Char
  token : Token
  item : Item
deriving DecidableEq, Repr, Inhabited

/-- The line on which the token starts. -/
def Placed.line (placed : Placed) : Nat := 1 + placed.before.count '\n'

variable {σ : Type} {scan : σ → Token → Scan σ}

/-- The items of a sequence of tokens that follows a text, with their tokens. -/
def Lexer.placeAll (scan : σ → Token → Scan σ) (lexer : Lexer σ) (before : List Char) :
    List Token → Except Fault (List Placed)
  | [] => .ok []
  | token :: rest => do
    let (lexer, items) ← lexer.take scan token
    let more ← placeAll scan lexer (before ++ token.expand) rest
    return items.map (Placed.mk before token) ++ more

/-- The items of a text with their tokens, scanned from the given state. -/
def place (scan : σ → Token → Scan σ) (start : σ) (text : String) :
    Except Fault (List Placed) := do
  let tokens ← Token.ofText text.toList
  Lexer.placeAll scan { scanner := start } [] tokens

/-- The line marks among the items tell the lines of the other ones, where `reported` was the
line reported before them and `last` is the one reported by their end. -/
inductive Marked : Nat → List Placed → Nat → Prop where
  | nil (reported : Nat) : Marked reported [] reported
  | mark {reported last : Nat} {placed : Placed} {rest : List Placed}
      (hitem : placed.item = .symbol (.lineMark placed.line))
      (hrest : Marked placed.line rest last) : Marked reported (placed :: rest) last
  | symbol {reported last : Nat} {placed : Placed} {rest : List Placed} {symbol : Symbol}
      (hitem : placed.item = .symbol symbol)
      (hplain : symbol.kind ≠ .fileMark ∧ symbol.kind ≠ .lineMark)
      (hline : symbol.kind ≠ .endOfData → placed.line = reported)
      (hrest : Marked reported rest last) : Marked reported (placed :: rest) last
  | inclusion {reported last : Nat} {placed : Placed} {rest : List Placed} {path : String}
      (hitem : placed.item = .inclusion path) (hrest : Marked reported rest last) :
      Marked reported (placed :: rest) last

/-- The items of the first token come first. -/
theorem Lexer.placeAll_cons {lexer next : Lexer σ} {token : Token} {items : List Item}
    (htake : lexer.take scan token = .ok (next, items)) (before : List Char) (tokens : List Token) :
    lexer.placeAll scan before (token :: tokens) =
      (items.map (Placed.mk before token) ++ ·) <$>
        next.placeAll scan (before ++ token.expand) tokens := by
  rw [placeAll, htake, ok_bind]
  exact bind_pure_comp _ _

/-! ## Forgetting the tokens -/

theorem Lexer.map_item_placeAll (lexer : Lexer σ) (before : List Char) (tokens : List Token) :
    List.map Placed.item <$> lexer.placeAll scan before tokens = lexer.takeAll scan tokens := by
  induction tokens generalizing lexer before with
  | nil => rfl
  | cons token tokens ih =>
    rw [placeAll, takeAll, map_bind]
    refine bind_congr fun result => ?_
    obtain ⟨next, items⟩ := result
    dsimp only
    rw [← ih next (before ++ token.expand), map_bind, bind_map_left]
    refine bind_congr fun more => ?_
    rw [map_pure, List.map_append, List.map_map]
    congr 2
    exact List.map_id items

/-- Without their tokens the items are those that lexing gives. -/
theorem map_item_place (start : σ) (text : String) :
    List.map Placed.item <$> place scan start text = lex scan start text := by
  rw [place, lex, map_bind]
  exact bind_congr fun tokens => Lexer.map_item_placeAll _ [] tokens

/-! ## The text before a token -/

/-- The tokens of a text are runs of its characters. -/
theorem Token.exists_run_of_mem_runs {text : List Char} {token : Token} (hmem : token ∈ runs text) :
    ∃ c count, token = .run c count ∧ 0 < count ∧ c ∈ text := by
  obtain ⟨c, count, hcount, rfl⟩ := exists_of_mem_runs hmem
  refine ⟨c, count, rfl, hcount, ?_⟩
  rw [← flatMap_expand_runs text]
  exact List.mem_flatMap.2 ⟨_, hmem, List.mem_replicate.2 ⟨by omega, rfl⟩⟩

theorem Token.count_expand (token : Token) : token.expand.count '\n' = token.lineFeeds := by
  cases token with
  | endOfText => rfl
  | run c count => simp [expand, lineFeeds, List.count_replicate]

theorem Lexer.before_of_placeAll {lexer : Lexer σ} {before : List Char} {tokens : List Token}
    {items : List Placed} (hplace : lexer.placeAll scan before tokens = .ok items) :
    ∀ placed ∈ items,
      placed.before ++ placed.token.expand <+: before ++ tokens.flatMap Token.expand := by
  induction tokens generalizing lexer before items with
  | nil =>
    cases hplace
    simp
  | cons token tokens ih =>
    obtain ⟨⟨next, new⟩, -, hrest⟩ := exists_of_bind_ok hplace
    obtain ⟨more, hmore, hitems⟩ := exists_of_bind_ok hrest
    cases hitems
    rw [List.forall_mem_append, List.forall_mem_map, List.flatMap_cons, ← List.append_assoc]
    exact ⟨fun _ _ => List.prefix_append _ _, ih hmore⟩

/-! ## Marks -/

theorem Marked.append {reported between last : Nat} {first second : List Placed}
    (hfirst : Marked reported first between) (hsecond : Marked between second last) :
    Marked reported (first ++ second) last := by
  induction hfirst with
  | nil => exact hsecond
  | mark hitem _ ih => exact .mark hitem (ih hsecond)
  | symbol hitem hplain hline _ ih => exact .symbol hitem hplain hline (ih hsecond)
  | inclusion hitem _ ih => exact .inclusion hitem (ih hsecond)

theorem Marked.exists_between {reported last : Nat} {first second : List Placed}
    (hmarked : Marked reported (first ++ second) last) :
    ∃ between, Marked reported first between ∧ Marked between second last := by
  induction first generalizing reported with
  | nil => exact ⟨reported, .nil _, hmarked⟩
  | cons placed first ih =>
    cases hmarked with
    | mark hitem hrest =>
      obtain ⟨between, hfirst, hsecond⟩ := ih hrest
      exact ⟨between, .mark hitem hfirst, hsecond⟩
    | symbol hitem hplain hline hrest =>
      obtain ⟨between, hfirst, hsecond⟩ := ih hrest
      exact ⟨between, .symbol hitem hplain hline hfirst, hsecond⟩
    | inclusion hitem hrest =>
      obtain ⟨between, hfirst, hsecond⟩ := ih hrest
      exact ⟨between, .inclusion hitem hfirst, hsecond⟩

/-- The item is no mark that moves positions. -/
def Item.IsPlain : Item → Prop
  | .symbol s => s.kind ≠ .fileMark ∧ s.kind ≠ .lineMark
  | .inclusion _ => True

section

variable {before : List Char} {token : Token}

theorem marked_markLines {line : Nat} (hline : line = 1 + before.count '\n') (reported : Nat)
    {items : List Item} (hitems : ∀ item ∈ items, item.IsPlain) :
    Marked reported ((markLines line reported items).1.map (Placed.mk before token))
      (markLines line reported items).2 := by
  induction items generalizing reported with
  | nil => exact .nil reported
  | cons item items ih =>
    rw [List.forall_mem_cons] at hitems
    cases item with
    | inclusion path => exact .inclusion rfl (ih reported hitems.2)
    | symbol symbol =>
      rw [markLines]
      split
      · refine .mark (by rw [hline]; rfl) (.symbol rfl hitems.1 (fun _ => rfl) ?_)
        exact hline ▸ ih line hitems.2
      · rename_i hreported
        refine .symbol rfl hitems.1 (fun hkind => ?_) (ih reported hitems.2)
        exact hline.symm.trans (by simpa [hkind] using hreported)

namespace Lexer

variable {Inv : σ → Prop}

/-- Every attempt to place the token adds items that are marked. -/
theorem marked_offerTimes
    (hplain : ∀ state, Inv state →
      Inv (scan state token).next ∧ ∀ item ∈ (scan state token).items, item.IsPlain)
    {attempts : Nat} {seen after : Lexer σ × List Item}
    (htaken : offerTimes (m := Id) (attempt scan token) attempts seen = (true, after))
    (hinv : Inv seen.1.scanner) (hline : seen.1.line = 1 + before.count '\n') :
    Inv after.1.scanner ∧ after.1.line = seen.1.line + token.lineFeeds ∧
      ∃ new, after.2 = seen.2 ++ new ∧
        Marked seen.1.reported (new.map (Placed.mk before token)) after.1.reported := by
  induction attempts generalizing seen with
  | zero => cases htaken
  | succ attempts ih =>
    obtain ⟨hnext, hitems⟩ := hplain seen.1.scanner hinv
    have hmarked : Marked _ (List.map (Placed.mk before token) _) _ :=
      marked_markLines hline seen.1.reported hitems
    rw [offerTimes_id_succ, attempt_taken] at htaken
    split at htaken
    · rename_i hscan
      cases htaken
      refine ⟨hnext, ?_, _, rfl, hmarked⟩
      show (if _ then _ else _) = _
      rw [if_pos hscan]
    · rename_i hscan
      have hkept : (attempt scan token seen).2.1.line = seen.1.line := by
        show (if _ then _ else _) = _
        rw [if_neg hscan]
      obtain ⟨hlast, hfeeds, new, hnew, hrest⟩ := ih htaken hnext (hkept.trans hline)
      refine ⟨hlast, by rw [hfeeds, hkept], _, hnew.trans (List.append_assoc _ _ _), ?_⟩
      rw [List.map_append]
      exact hmarked.append hrest

/-- The items of a token are marked. -/
theorem marked_take
    (hplain : ∀ state, Inv state →
      Inv (scan state token).next ∧ ∀ item ∈ (scan state token).items, item.IsPlain)
    {lexer next : Lexer σ} {items : List Item} (htake : lexer.take scan token = .ok (next, items))
    (hinv : Inv lexer.scanner) (hline : lexer.line = 1 + before.count '\n') :
    Inv next.scanner ∧ next.line = lexer.line + token.lineFeeds ∧
      Marked lexer.reported (items.map (Placed.mk before token)) next.reported := by
  rw [take_eq] at htake
  split at htake
  · rename_i hoffer
    cases htake
    obtain ⟨hnext, hfeeds, new, hnew, hmarked⟩ := marked_offerTimes hplain hoffer hinv hline
    obtain rfl : items = new := hnew
    exact ⟨hnext, hfeeds, hmarked⟩
  · cases htake

/-- The items of all tokens are marked. -/
theorem marked_placeAll
    (hplain : ∀ state token, Inv state → token.Solid →
      Inv (scan state token).next ∧ ∀ item ∈ (scan state token).items, item.IsPlain)
    {tokens : List Token} (htokens : ∀ token ∈ tokens, token.Solid) {lexer : Lexer σ}
    {items : List Placed} (hplace : lexer.placeAll scan before tokens = .ok items)
    (hinv : Inv lexer.scanner) (hline : lexer.line = 1 + before.count '\n') :
    ∃ last, Marked lexer.reported items last := by
  induction tokens generalizing lexer before items with
  | nil =>
    cases hplace
    exact ⟨_, .nil _⟩
  | cons token tokens ih =>
    rw [List.forall_mem_cons] at htokens
    obtain ⟨⟨next, new⟩, htake, hrest⟩ := exists_of_bind_ok hplace
    obtain ⟨more, hmore, hitems⟩ := exists_of_bind_ok hrest
    cases hitems
    obtain ⟨hnext, hfeeds, hmarked⟩ :=
      marked_take (fun state hstate => hplain state token hstate htokens.1) htake hinv hline
    obtain ⟨last, hlast⟩ := ih htokens.2 hmore hnext
      (by rw [hfeeds, hline, List.count_append, Token.count_expand, Nat.add_assoc])
    exact ⟨last, hmarked.append hlast⟩

end Lexer

end

/-! ## Documents -/

namespace Document

theorem isPlain_of_wellNamed {item : Item} (hitem : WellNamed item) : item.IsPlain := by
  cases item with
  | inclusion path => trivial
  | symbol symbol =>
    rcases hitem with hkind | ⟨hkind, -⟩
    · constructor <;> rintro hmark <;> simp [isUnnamed, hmark] at hkind
    · simp [Item.IsPlain, hkind]

/-- The text of a document can be lexed.  Its items are marked, and each comes from a token of the
text. -/
theorem place_marked (start : Scanner) (hstart : start.mode.Named) (text : String) :
    ∃ items last, place Scanner.scan start text = .ok items ∧ Marked 0 items last ∧
      ∀ placed ∈ items,
        placed.before ++ placed.token.expand <+: dropReturns text.toList := by
  have hplain (scanner : Scanner) (token : Token) (hscanner : scanner.mode.Named)
      (htoken : token.Solid) : (scanner.scan token).next.mode.Named ∧
        ∀ item ∈ (scanner.scan token).items, item.IsPlain := by
    obtain ⟨hnext, hitems⟩ := Scanner.names_scan hscanner htoken
    exact ⟨hnext, fun item hmem => isPlain_of_wellNamed (hitems item hmem)⟩
  obtain ⟨_, _, _, hlex, _⟩ := lex_eq_scans Scanner.patient start text
  cases hplace : place Scanner.scan start text with
  | error fault =>
    rw [← map_item_place, hplace] at hlex
    cases hlex
  | ok items =>
    have hplaceAll := hplace
    rw [place, Token.ofText_eq, ok_bind] at hplaceAll
    obtain ⟨last, hmarked⟩ :=
      Lexer.marked_placeAll hplain (Token.solid_of_text text) hplaceAll hstart rfl
    refine ⟨items, last, rfl, hmarked, ?_⟩
    have hbefore := Lexer.before_of_placeAll hplaceAll
    simpa [Token.flatMap_expand_runs, Token.expand] using hbefore

end Document
end Docpress
