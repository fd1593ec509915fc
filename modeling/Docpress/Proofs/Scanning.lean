import Docpress.Lexer
import Docpress.Proofs.Runs

/-!
# Runs of a scanner

`Scans scan state tokens last items` says that a scanner which is offered the tokens one after
the other, each until it is taken, goes from `state` to `last` and hands on `items`.  Such runs
compose (`Scans.append`) and are unique (`Scans.unique`).  On the tokens of a text they compose
where the character changes (`Scans.meet`); `Scans.accumulate` is for the states in which a
scanner collects what it reads.

`Lexer` does the same with a limit on the offers and with line marks in between.  A scanner
whose declined offers lower a rank never meets the limit (`Patient`); then a text can always be
lexed, and what comes out is, line marks set aside, what the run of the scanner hands on
(`lex_eq_scans`).  No line mark comes last (`lex_eq_lineMarked`).
-/

namespace Docpress

variable {σ : Type} {scan : σ → Token → Scan σ}

/-- Offering the tokens in order leads from one state of the scanner to another and hands on
the items. -/
inductive Scans (scan : σ → Token → Scan σ) : σ → List Token → σ → List Item → Prop where
  | nil (state : σ) : Scans scan state [] state []
  | taken {state next last : σ} {token : Token} {rest : List Token} {items more : List Item}
      (hscan : scan state token = ⟨true, next, items⟩) (hrest : Scans scan next rest last more) :
      Scans scan state (token :: rest) last (items ++ more)
  | declined {state next last : σ} {token : Token} {rest : List Token} {items more : List Item}
      (hscan : scan state token = ⟨false, next, items⟩)
      (hrest : Scans scan next (token :: rest) last more) :
      Scans scan state (token :: rest) last (items ++ more)

/-- What holds of the state whenever a token is offered (`Inv token state`) is kept by the answer:
for every other token by one that takes the token, for the same one by one that declines it. -/
def Scan.Keeps (Inv : Token → σ → Prop) (token : Token) (answer : Scan σ) : Prop :=
  if answer.taken then ∀ other, Inv other answer.next else Inv token answer.next

namespace Scans

/-- Runs compose. -/
theorem append {state between last : σ} {first second : List Token} {items more : List Item}
    (hfirst : Scans scan state first between items) (hsecond : Scans scan between second last more) :
    Scans scan state (first ++ second) last (items ++ more) := by
  induction hfirst with
  | nil => exact hsecond
  | taken hscan _ ih =>
    rw [List.append_assoc]
    exact .taken hscan (ih hsecond)
  | declined hscan _ ih =>
    rw [List.append_assoc]
    exact .declined hscan (ih hsecond)

/-- A token that is taken at once. -/
theorem of_taken {state next : σ} {token : Token} {items : List Item}
    (hscan : scan state token = ⟨true, next, items⟩) : Scans scan state [token] next items := by
  rw [← List.append_nil items]
  exact .taken hscan (.nil next)

/-- A token that is declined once and then taken. -/
theorem of_declined_taken {state between next : σ} {token : Token} {items more : List Item}
    (hdeclined : scan state token = ⟨false, between, items⟩)
    (htaken : scan between token = ⟨true, next, more⟩) :
    Scans scan state [token] next (items ++ more) :=
  .declined hdeclined (of_taken htaken)

/-- A scanner has one run on the tokens. -/
theorem unique {state last last' : σ} {tokens : List Token} {items items' : List Item}
    (hone : Scans scan state tokens last items) (hother : Scans scan state tokens last' items') :
    last = last' ∧ items = items' := by
  induction hone generalizing last' items' with
  | nil =>
    cases hother with
    | nil => exact ⟨rfl, rfl⟩
  | taken hscan _ ih =>
    cases hother with
    | taken hscan' hrest' =>
      rw [hscan] at hscan'
      cases hscan'
      obtain ⟨rfl, rfl⟩ := ih hrest'
      exact ⟨rfl, rfl⟩
    | declined hscan' _ =>
      rw [hscan] at hscan'
      cases hscan'
  | declined hscan _ ih =>
    cases hother with
    | taken hscan' _ =>
      rw [hscan] at hscan'
      cases hscan'
    | declined hscan' hrest' =>
      rw [hscan] at hscan'
      cases hscan'
      obtain ⟨rfl, rfl⟩ := ih hrest'
      exact ⟨rfl, rfl⟩

/-- A run on two sequences of tokens is one on the first and then one on the second. -/
theorem split {state last : σ} {first second : List Token} {items : List Item}
    (hscans : Scans scan state (first ++ second) last items) :
    ∃ between before after, Scans scan state first between before ∧
      Scans scan between second last after ∧ items = before ++ after := by
  generalize htokens : first ++ second = tokens at hscans
  induction hscans generalizing first with
  | nil state =>
    obtain ⟨rfl, rfl⟩ := List.append_eq_nil_iff.1 htokens
    exact ⟨state, [], [], .nil state, .nil state, rfl⟩
  | @taken state next last token rest items more hscan hrest ih =>
    cases first with
    | nil =>
      obtain rfl : second = token :: rest := htokens
      exact ⟨state, [], _, .nil state, .taken hscan hrest, rfl⟩
    | cons other first =>
      obtain ⟨rfl, hmore⟩ := List.cons.inj htokens
      obtain ⟨between, before, after, hfirst, hsecond, rfl⟩ := ih hmore
      exact ⟨between, _, after, .taken hscan hfirst, hsecond, (List.append_assoc ..).symm⟩
  | @declined state next last token rest items more hscan hrest ih =>
    cases first with
    | nil =>
      obtain rfl : second = token :: rest := htokens
      exact ⟨state, [], _, .nil state, .declined hscan hrest, rfl⟩
    | cons other first =>
      obtain ⟨between, before, after, hfirst, hsecond, rfl⟩ := ih htokens
      obtain ⟨rfl, -⟩ := List.cons.inj htokens
      exact ⟨between, _, after, .declined hscan hfirst, hsecond, (List.append_assoc ..).symm⟩

/-- What every answer keeps holds after a run, and of its items what holds of those of every
answer. -/
theorem keeps {Inv : Token → σ → Prop} {Q : Token → Prop} {P : Item → Prop}
    (hanswer : ∀ state token, Inv token state → Q token →
      (scan state token).Keeps Inv token ∧ ∀ item ∈ (scan state token).items, P item)
    {state last : σ} {tokens : List Token} {items : List Item}
    (hscans : Scans scan state tokens last items) (htokens : ∀ token ∈ tokens, Q token)
    (hstate : ∀ other, Inv other state) :
    (∀ other, Inv other last) ∧ ∀ item ∈ items, P item := by
  -- a declined token is known to be the next one, so the invariant is needed at it only
  have hfirst : ∀ other, tokens.head? = some other ∨ tokens = [] → Inv other state :=
    fun other _ => hstate other
  clear hstate
  induction hscans with
  | nil state => exact ⟨fun other => hfirst other (.inr rfl), by simp⟩
  | @taken state next last token rest items more hscan _ ih =>
    rw [List.forall_mem_cons] at htokens
    obtain ⟨hkeeps, hitems⟩ := hanswer state token (hfirst token (.inl rfl)) htokens.1
    rw [hscan] at hkeeps hitems
    obtain ⟨hlast, hmore⟩ := ih htokens.2 fun other _ => hkeeps other
    exact ⟨hlast, List.forall_mem_append.2 ⟨hitems, hmore⟩⟩
  | @declined state next last token rest items more hscan _ ih =>
    have htoken := htokens token List.mem_cons_self
    obtain ⟨hkeeps, hitems⟩ := hanswer state token (hfirst token (.inl rfl)) htoken
    rw [hscan] at hkeeps hitems
    have hnext : ∀ other, (token :: rest).head? = some other ∨ token :: rest = [] →
        Inv other next := by
      rintro other (hhead | hnil)
      · cases hhead
        exact hkeeps
      · cases hnil
    obtain ⟨hlast, hmore⟩ := ih htokens hnext
    exact ⟨hlast, List.forall_mem_append.2 ⟨hitems, hmore⟩⟩

/-- What single tokens keep holds of all states of a run, and what they give rise to in such
states of all its items. -/
theorem forall_items {Inv : σ → Prop} {Q : Token → Prop} {P : Item → Prop}
    (hanswer : ∀ state token, Inv state → Q token →
      Inv (scan state token).next ∧ ∀ item ∈ (scan state token).items, P item)
    {state last : σ} {tokens : List Token} {items : List Item}
    (hscans : Scans scan state tokens last items) (hstate : Inv state)
    (htokens : ∀ token ∈ tokens, Q token) : ∀ item ∈ items, P item := by
  have hkeeps (state : σ) (token : Token) (hinv : Inv state) (htoken : Q token) :
      (scan state token).Keeps (fun _ => Inv) token ∧ ∀ item ∈ (scan state token).items, P item := by
    obtain ⟨hnext, hitems⟩ := hanswer state token hinv htoken
    refine ⟨?_, hitems⟩
    unfold Scan.Keeps
    split
    · exact fun _ => hnext
    · exact hnext
  exact (hscans.keeps hkeeps htokens fun _ => hstate).2

/-! ### Texts -/

/-- Runs of the scanner compose where the character changes. -/
theorem meet {state between last : σ} {first second : List Char} {d : Char} {items : List Item}
    (hfirst : Scans scan state (Token.runs first) between []) (hne : first.getLast? ≠ some d)
    (hsecond : Scans scan between (Token.runs (d :: second)) last items) :
    Scans scan state (Token.runs (first ++ d :: second)) last items := by
  rw [Token.runs_append hne]
  exact hfirst.append hsecond

/-- A character that another one follows is a run of its own. -/
theorem of_taken_char {state between last : σ} {c d : Char} {text : List Char}
    {items : List Item} (htaken : scan state (.run c 1) = ⟨true, between, []⟩) (hne : d ≠ c)
    (hrest : Scans scan between (Token.runs (d :: text)) last items) :
    Scans scan state (Token.runs (c :: d :: text)) last items := by
  rw [Token.runs, Token.runsFrom, if_neg hne]
  exact .taken htaken hrest

/-- A scanner that declines the first character of a text goes on in its next state. -/
theorem enter {state next last : σ} {c : Char} {text : List Char} {items : List Item}
    (hdeclined : ∀ count, 0 < count → scan state (.run c count) = ⟨false, next, []⟩)
    (hrest : Scans scan next (Token.runs (c :: text)) last items) :
    Scans scan state (Token.runs (c :: text)) last items := by
  obtain ⟨count, rest, hruns⟩ := Token.runsFrom_eq_cons c 1 text
  rw [Token.runs, hruns] at hrest ⊢
  exact .declined (hdeclined _ (by omega)) hrest

/-- Two states that treat the first character of a text alike treat the text alike. -/
theorem of_alike {state other last : σ} {c : Char} {text : List Char} {items : List Item}
    (halike : ∀ count, 0 < count → scan state (.run c count) = scan other (.run c count))
    (hother : Scans scan other (Token.runs (c :: text)) last items) :
    Scans scan state (Token.runs (c :: text)) last items := by
  obtain ⟨count, rest, hruns⟩ := Token.runsFrom_eq_cons c 1 text
  have hscan := halike (1 + count) (by omega)
  rw [Token.runs, hruns] at hother ⊢
  cases hother with
  | taken htaken hrest => exact .taken (hscan.trans htaken) hrest
  | declined hdeclined hrest => exact .declined (hscan.trans hdeclined) hrest

/-- A scanner that has collected `seen` takes the run and adds it. -/
def Collects (scan : σ → Token → Scan σ) (mode : List Char → σ) (seen : List Char) (c : Char)
    (count : Nat) : Prop :=
  scan (mode seen) (.run c count) = ⟨true, mode (seen ++ List.replicate count c), []⟩

theorem accumulate_runsFrom (mode : List Char → σ) {text seen : List Char} {c : Char}
    {count : Nat} (hcount : 0 < count)
    (hcollects : ∀ before d more after, 0 < more →
      List.replicate count c ++ text = before ++ List.replicate more d ++ after →
      Collects scan mode (seen ++ before) d more) :
    Scans scan (mode seen) (Token.runsFrom c count text)
      (mode (seen ++ List.replicate count c ++ text)) [] := by
  induction text generalizing seen c count with
  | nil =>
    have hscan := hcollects [] c count [] hcount (by simp)
    rw [Collects, List.append_nil] at hscan
    rw [List.append_nil]
    exact of_taken hscan
  | cons d text ih =>
    rw [Token.runsFrom]
    split
    · rename_i hd
      subst hd
      have hreplicate :
          List.replicate (count + 1) d ++ text = List.replicate count d ++ d :: text := by
        rw [List.replicate_succ', List.append_assoc]
        rfl
      rw [List.append_assoc, ← hreplicate, ← List.append_assoc]
      apply ih (by omega)
      rw [hreplicate]
      exact hcollects
    · have hscan := hcollects [] c count (d :: text) hcount (by simp)
      rw [Collects, List.append_nil] at hscan
      refine (of_taken hscan).append ?_
      have hrest : seen ++ List.replicate count c ++ d :: text =
          seen ++ List.replicate count c ++ List.replicate 1 d ++ text := by simp
      rw [hrest]
      apply ih (by omega)
      intro before e more after hmore hsplit
      rw [List.append_assoc seen]
      apply hcollects (List.replicate count c ++ before) e more after hmore
      rw [List.append_assoc, List.append_assoc, ← List.append_assoc before, ← hsplit]
      rfl

/-- A scanner that takes every run of a text, adding it to what it has seen, takes the whole
text. -/
theorem accumulate (mode : List Char → σ) {seen text : List Char}
    (hcollects : ∀ before d count after, 0 < count →
      text = before ++ List.replicate count d ++ after →
      Collects scan mode (seen ++ before) d count) :
    Scans scan (mode seen) (Token.runs text) (mode (seen ++ text)) [] := by
  cases text with
  | nil =>
    rw [List.append_nil]
    exact .nil _
  | cons c text =>
    have hfirst : seen ++ c :: text = seen ++ List.replicate 1 c ++ text := by simp
    rw [hfirst]
    exact accumulate_runsFrom mode (by omega) hcollects

/-- The same where it depends on the characters only whether they are taken. -/
theorem accumulate_of_forall (mode : List Char → σ) {P : Char → Prop}
    (hcollects : ∀ seen c count, P c → 0 < count → Collects scan mode seen c count)
    {seen text : List Char} (htext : ∀ c ∈ text, P c) :
    Scans scan (mode seen) (Token.runs text) (mode (seen ++ text)) [] := by
  apply accumulate
  intro before d count after hcount hsplit
  refine hcollects _ d count (htext d ?_) hcount
  rw [hsplit]
  exact List.mem_append_left _ (List.mem_append_right _ (List.mem_replicate.2 ⟨by omega, rfl⟩))

end Scans

/-! ## Line marks -/

/-- Whether the item is a line mark. -/
def Item.isLineMark : Item → Bool
  | .symbol s => s.kind = .lineMark
  | .inclusion _ => false

/-- The items that are no line marks. -/
def unmarked (items : List Item) : List Item :=
  items.filter (!·.isLineMark)

@[simp] theorem unmarked_nil : unmarked [] = [] := rfl

@[simp] theorem unmarked_append (first second : List Item) :
    unmarked (first ++ second) = unmarked first ++ unmarked second := by
  simp [unmarked]

theorem isLineMark_of_mem_unmarked (items : List Item) :
    ∀ item ∈ unmarked items, item.isLineMark = false := by
  intro item hmem
  simpa [unmarked] using (List.mem_filter.1 hmem).2

theorem unmarked_eq_self {items : List Item} (hmarks : ∀ item ∈ items, item.isLineMark = false) :
    unmarked items = items := by
  rw [unmarked, List.filter_eq_self]
  intro item hmem
  rw [hmarks item hmem]
  rfl

theorem unmarked_lineMark_cons (line : Nat) (items : List Item) :
    unmarked (.symbol (.lineMark line) :: items) = unmarked items := rfl

/-- Line marks are all that marking adds. -/
theorem unmarked_markLines (line reported : Nat) (items : List Item) :
    unmarked (markLines line reported items).1 = unmarked items := by
  induction items generalizing reported with
  | nil => rfl
  | cons item items ih =>
    cases item with
    | symbol symbol =>
      rw [markLines]
      split
      · change unmarked (.symbol (.lineMark line) :: .symbol symbol :: _) = _
        rw [unmarked_lineMark_cons]
        simp only [unmarked, List.filter_cons] at ih ⊢
        rw [ih]
      · simp only [unmarked, List.filter_cons] at ih ⊢
        rw [ih]
    | inclusion path =>
      simp only [markLines, unmarked, List.filter_cons] at ih ⊢
      rw [ih]

theorem markLines_append (line reported : Nat) (first second : List Item) :
    markLines line reported (first ++ second) =
      ((markLines line reported first).1 ++
          (markLines line (markLines line reported first).2 second).1,
        (markLines line (markLines line reported first).2 second).2) := by
  induction first generalizing reported with
  | nil => rfl
  | cons item first ih =>
    cases item with
    | symbol symbol =>
      rw [List.cons_append, markLines, markLines]
      split
      · simp only [ih, List.cons_append]
      · simp only [ih, List.cons_append]
    | inclusion path => simp only [List.cons_append, markLines, ih]

/-- A line mark stands before a symbol, so that none is the last item. -/
theorem getLast?_markLines (line reported : Nat) (items : List Item) :
    (markLines line reported items).1.getLast? = items.getLast? := by
  induction items generalizing reported with
  | nil => rfl
  | cons item items ih =>
    cases item with
    | symbol symbol =>
      rw [markLines]
      split
      · dsimp only
        rw [List.getLast?_cons_cons, List.getLast?_cons, List.getLast?_cons, ih]
      · dsimp only
        rw [List.getLast?_cons, List.getLast?_cons, ih]
    | inclusion path =>
      rw [markLines, List.getLast?_cons, List.getLast?_cons, ih]

/-- The items are the raw ones with line marks among them, none of which is the last item. -/
structure LineMarked (items raw : List Item) : Prop where
  unmarked_eq : unmarked items = unmarked raw
  getLast?_eq : items.getLast? = raw.getLast?

namespace LineMarked

theorem nil : LineMarked [] [] := ⟨rfl, rfl⟩

theorem append {items raw more rawMore : List Item} (hitems : LineMarked items raw)
    (hmore : LineMarked more rawMore) : LineMarked (items ++ more) (raw ++ rawMore) := by
  constructor
  · rw [unmarked_append, unmarked_append, hitems.unmarked_eq, hmore.unmarked_eq]
  · rw [List.getLast?_append, List.getLast?_append, hitems.getLast?_eq, hmore.getLast?_eq]

end LineMarked

theorem lineMarked_markLines (line reported : Nat) (items : List Item) :
    LineMarked (markLines line reported items).1 items :=
  ⟨unmarked_markLines line reported items, getLast?_markLines line reported items⟩

/-! ## Patience -/

/-- Every declined offer lowers a rank that is below the limit on the offers. -/
structure Patient (scan : σ → Token → Scan σ) where
  rank : σ → Token → Nat
  rank_lt (state : σ) (token : Token) : rank state token < Lexer.attemptLimit
  declined_lt {state : σ} {token : Token} (hdeclined : (scan state token).taken = false) :
    rank (scan state token).next token < rank state token

namespace Lexer

/-- One attempt to place a token, together with the items that earlier attempts led to. -/
def attempt (scan : σ → Token → Scan σ) (token : Token) :
    Lexer σ × List Item → Bool × Lexer σ × List Item :=
  fun (lexer, items) =>
    let (taken, lexer, more) := put scan token lexer
    (taken, lexer, items ++ more)

section

variable (scan)

theorem attempt_taken (token : Token) (seen : Lexer σ × List Item) :
    (attempt scan token seen).1 = (scan seen.1.scanner token).taken := rfl

end

/-- A series of attempts that ends with success is a run of the scanner on the token.  What the
run hands on gets its line marks as if it had been handed on at once. -/
theorem scans_of_offerTimes (token : Token) {attempts : Nat} {seen after : Lexer σ × List Item}
    (htaken : offerTimes (m := Id) (attempt scan token) attempts seen = (true, after)) :
    ∃ next raw, Scans scan seen.1.scanner [token] next raw ∧
      after = (⟨next, seen.1.line + token.lineFeeds, (markLines seen.1.line seen.1.reported raw).2⟩,
        seen.2 ++ (markLines seen.1.line seen.1.reported raw).1) := by
  induction attempts generalizing seen with
  | zero => cases htaken
  | succ attempts ih =>
    rw [offerTimes_id_succ, attempt_taken] at htaken
    cases hscan : scan seen.1.scanner token with
    | mk taken next items =>
      rw [hscan] at htaken
      cases taken with
      | true =>
        cases htaken
        refine ⟨next, items, .of_taken hscan, ?_⟩
        simp only [attempt, put, hscan, if_true]
      | false =>
        obtain ⟨last, raw, hraw, hafter⟩ := ih htaken
        simp only [attempt, put, hscan, Bool.false_eq_true, if_false] at hraw hafter
        refine ⟨last, items ++ raw, .declined hscan hraw, ?_⟩
        rw [hafter, markLines_append, List.append_assoc]

theorem take_eq (lexer : Lexer σ) (token : Token) :
    lexer.take scan token =
      match offer (m := Id) attemptLimit (attempt scan token) (lexer, []) with
      | (true, result) => .ok result
      | (false, _) => .error (.livelock attemptLimit) := rfl

/-- A patient scanner takes every token, and moves on by its line feeds. -/
theorem take_eq_markLines (patient : Patient scan) (lexer : Lexer σ) (token : Token) :
    ∃ next raw, Scans scan lexer.scanner [token] next raw ∧ lexer.take scan token =
      .ok (⟨next, lexer.line + token.lineFeeds, (markLines lexer.line lexer.reported raw).2⟩,
        (markLines lexer.line lexer.reported raw).1) := by
  have htaken : (offer (m := Id) attemptLimit (attempt scan token) (lexer, [])).1 = true := by
    apply offer_taken_of_rank fun seen => patient.rank seen.1.scanner token
    · intro seen hdeclined
      exact patient.declined_lt hdeclined
    · exact patient.rank_lt lexer.scanner token
  rw [take_eq]
  cases hoffer : offer (m := Id) attemptLimit (attempt scan token) (lexer, []) with
  | mk taken result =>
    rw [hoffer] at htaken
    cases htaken
    obtain ⟨next, raw, hraw, rfl⟩ := scans_of_offerTimes token hoffer
    exact ⟨next, raw, hraw, rfl⟩

theorem take_eq_scans (patient : Patient scan) (lexer : Lexer σ) (token : Token) :
    ∃ next items raw, lexer.take scan token = .ok (next, items) ∧
      Scans scan lexer.scanner [token] next.scanner raw ∧ LineMarked items raw := by
  obtain ⟨next, raw, hraw, htake⟩ := take_eq_markLines patient lexer token
  exact ⟨_, _, raw, htake, hraw, lineMarked_markLines _ _ _⟩

theorem takeAll_eq_scans (patient : Patient scan) (lexer : Lexer σ) (tokens : List Token) :
    ∃ items last raw, lexer.takeAll scan tokens = .ok items ∧
      Scans scan lexer.scanner tokens last raw ∧ LineMarked items raw := by
  induction tokens generalizing lexer with
  | nil => exact ⟨[], lexer.scanner, [], rfl, .nil _, .nil⟩
  | cons token tokens ih =>
    obtain ⟨next, items, raw, htake, hraw, hitems⟩ := take_eq_scans patient lexer token
    obtain ⟨more, last, rawMore, hmore, hrawMore, hmoreItems⟩ := ih next
    refine ⟨items ++ more, last, raw ++ rawMore, ?_, hraw.append hrawMore,
      hitems.append hmoreItems⟩
    rw [takeAll, htake]
    change (do
      let more ← takeAll scan next tokens
      pure (items ++ more) : Except Fault (List Item)) = _
    rw [hmore]
    rfl

end Lexer

/-- Every text can be lexed.  The items are those that the scanner hands on for the tokens of the
text, with line marks among them. -/
theorem lex_eq_lineMarked (patient : Patient scan) (start : σ) (text : String) :
    ∃ items last raw, lex scan start text = .ok items ∧
      Scans scan start (Token.runs (dropReturns text.toList) ++ [Token.endOfText]) last raw ∧
      LineMarked items raw := by
  obtain ⟨items, last, raw, htake, hraw, hitems⟩ :=
    Lexer.takeAll_eq_scans patient { scanner := start }
      (Token.runs (dropReturns text.toList) ++ [Token.endOfText])
  refine ⟨items, last, raw, ?_, hraw, hitems⟩
  rw [lex, Token.ofText_eq]
  exact htake

/-- Every text can be lexed.  The items are, line marks set aside, those that the scanner hands
on for the tokens of the text. -/
theorem lex_eq_scans (patient : Patient scan) (start : σ) (text : String) :
    ∃ items last raw, lex scan start text = .ok items ∧
      Scans scan start (Token.runs (dropReturns text.toList) ++ [Token.endOfText]) last raw ∧
      unmarked items = unmarked raw := by
  obtain ⟨items, last, raw, hlex, hraw, hitems⟩ := lex_eq_lineMarked patient start text
  exact ⟨items, last, raw, hlex, hraw, hitems.unmarked_eq⟩

end Docpress
