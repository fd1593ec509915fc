import Docpress.Proofs.Offer
import Docpress.Token

/-!
# The tokens of a text

`Token.runs` cuts a text into its maximal runs, and `dropReturns` removes the carriage returns
directly before a line feed.  `ofText_eq` says that these two and an end token are all that
scanners ever see of a text.

The encoder reads a text character by character and holds back the run under construction and
the carriage returns whose fate is open.  `runsAfter` is what it still has to deliver; every
step delivers a first part of it (`extendAll_delivers`) and keeps the rest.  The steps are
followed for any consumer that takes each token at its first or a later offer while it is in one
of the states `Ready`, given by the function `accept` from the token and the consumer's state to
its next state.
-/

namespace Docpress

/-! ## Runs -/

/-- The maximal runs of `text` behind a run of `count` characters `c`. -/
def Token.runsFrom (c : Char) (count : Nat) : List Char → List Token
  | [] => [.run c count]
  | d :: text =>
    if d = c then runsFrom c (count + 1) text else .run c count :: runsFrom d 1 text

/-- The maximal runs of a text. -/
def Token.runs : List Char → List Token
  | [] => []
  | c :: text => runsFrom c 1 text

/-- The text without the carriage returns directly before a line feed. -/
def dropReturns : List Char → List Char
  | [] => []
  | c :: text =>
    if c = '\r' ∧ (text.dropWhile (· == '\r')).head? = some '\n' then dropReturns text
    else c :: dropReturns text

namespace Token

theorem runsFrom_replicate (c : Char) (count more : Nat) (text : List Char) :
    runsFrom c count (List.replicate more c ++ text) = runsFrom c (count + more) text := by
  induction more generalizing count with
  | zero => rfl
  | succ more ih =>
    rw [List.replicate_succ, List.cons_append, runsFrom, if_pos rfl, ih]
    congr 1
    omega

/-- Runs end where the character changes. -/
theorem runsFrom_append {c : Char} {count : Nat} {first : List Char} {d : Char}
    {second : List Char} (hne : (c :: first).getLast? ≠ some d) :
    runsFrom c count (first ++ d :: second) = runsFrom c count first ++ runs (d :: second) := by
  induction first generalizing c count with
  | nil =>
    have hdc : d ≠ c := by
      rintro rfl
      exact hne rfl
    simp [runsFrom, runs, hdc]
  | cons e first ih =>
    have hlast : (e :: first).getLast? ≠ some d := by
      rwa [List.getLast?_cons_cons] at hne
    rw [List.cons_append, runsFrom, runsFrom]
    split
    · rename_i he
      subst he
      exact ih hlast
    · rw [ih hlast, List.cons_append]

/-- Two texts whose characters differ where they meet are cut into runs apart. -/
theorem runs_append {first : List Char} {d : Char} {second : List Char}
    (hne : first.getLast? ≠ some d) :
    runs (first ++ d :: second) = runs first ++ runs (d :: second) := by
  cases first with
  | nil => rfl
  | cons c first => exact runsFrom_append hne

/-- The same without regard to whether there is a second text. -/
theorem runs_append_of_apart {first second : List Char}
    (hapart : ∀ c ∈ second.head?, first.getLast? ≠ some c) :
    runs (first ++ second) = runs first ++ runs second := by
  cases second with
  | nil => simp [runs]
  | cons d second => exact runs_append (hapart d rfl)

theorem runs_singleton (c : Char) : runs [c] = [.run c 1] := rfl

/-- The first run of a text is one of its first character. -/
theorem runsFrom_eq_cons (c : Char) (count : Nat) (text : List Char) :
    ∃ more rest, runsFrom c count text = .run c (count + more) :: rest := by
  induction text generalizing count with
  | nil => exact ⟨0, [], rfl⟩
  | cons d text ih =>
    rw [runsFrom]
    split
    · obtain ⟨more, rest, hruns⟩ := ih (count + 1)
      exact ⟨1 + more, rest, by rw [hruns, Nat.add_assoc]⟩
    · exact ⟨0, runsFrom d 1 text, rfl⟩

theorem exists_of_mem_runsFrom {c : Char} {count : Nat} (hcount : 0 < count) {text : List Char} :
    ∀ token ∈ runsFrom c count text, ∃ d more, 0 < more ∧ token = .run d more := by
  induction text generalizing c count with
  | nil =>
    rw [runsFrom, List.forall_mem_singleton]
    exact ⟨c, count, hcount, rfl⟩
  | cons d text ih =>
    rw [runsFrom]
    split
    · exact ih (by omega)
    · rw [List.forall_mem_cons]
      exact ⟨⟨c, count, hcount, rfl⟩, ih (by omega)⟩

/-- The runs of a text are not empty. -/
theorem exists_of_mem_runs {text : List Char} {token : Token} (hmem : token ∈ runs text) :
    ∃ c count, 0 < count ∧ token = .run c count := by
  cases text with
  | nil => cases hmem
  | cons c text => exact exists_of_mem_runsFrom Nat.one_pos token hmem

theorem flatMap_expand_runsFrom (c : Char) (count : Nat) (text : List Char) :
    (runsFrom c count text).flatMap expand = List.replicate count c ++ text := by
  induction text generalizing c count with
  | nil => simp [runsFrom, expand]
  | cons d text ih =>
    rw [runsFrom]
    split
    · rename_i hd
      rw [ih, List.replicate_succ', hd, List.append_assoc]
      rfl
    · rw [List.flatMap_cons, ih]
      rfl

/-- The tokens of a text have its characters. -/
theorem flatMap_expand_runs (text : List Char) : (runs text).flatMap expand = text := by
  cases text with
  | nil => rfl
  | cons c text => exact flatMap_expand_runsFrom c 1 text

/-- The token is no run without characters. -/
def Solid (token : Token) : Prop := ∀ c count, token = .run c count → 0 < count

/-- The tokens of a text are solid. -/
theorem solid_of_text (text : String) :
    ∀ token ∈ runs (dropReturns text.toList) ++ [Token.endOfText], token.Solid := by
  rw [List.forall_mem_append]
  refine ⟨fun token hmem => ?_, by simp [Solid]⟩
  obtain ⟨c, count, hcount, rfl⟩ := exists_of_mem_runs hmem
  rintro _ _ ⟨⟩
  exact hcount

/-- A text may begin with a run of the character. -/
theorem exists_leading_run (c : Char) (text : List Char) :
    ∃ count rest, text = List.replicate count c ++ rest ∧ rest.head? ≠ some c := by
  induction text with
  | nil => exact ⟨0, [], rfl, nofun⟩
  | cons d text ih =>
    by_cases hd : d = c
    · obtain ⟨count, rest, rfl, hrest⟩ := ih
      exact ⟨count + 1, rest, by rw [hd, List.replicate_succ, List.cons_append], hrest⟩
    · exact ⟨0, d :: text, rfl, by simpa using hd⟩

/-- A text may end in a run of the character. -/
theorem exists_trailing_run (c : Char) (text : List Char) :
    ∃ count rest, text = rest ++ List.replicate count c ∧ rest.getLast? ≠ some c := by
  obtain ⟨count, rest, htext, hrest⟩ := exists_leading_run c text.reverse
  refine ⟨count, rest.reverse, ?_, by rwa [List.getLast?_reverse]⟩
  rw [← List.reverse_reverse text, htext, List.reverse_append, List.reverse_replicate]

/-- A run with other characters around it is one token. -/
theorem runs_around {c : Char} {first second : List Char} (hfirst : first.getLast? ≠ some c)
    (hsecond : second.head? ≠ some c) {count : Nat} (hcount : 0 < count) :
    runs (first ++ List.replicate count c ++ second) =
      runs first ++ Token.run c count :: runs second := by
  obtain ⟨count, rfl⟩ : ∃ rest, count = rest + 1 := ⟨count - 1, by omega⟩
  rw [List.append_assoc, List.replicate_succ, List.cons_append, runs_append hfirst]
  congr 1
  rw [runs, runsFrom_replicate]
  cases second with
  | nil => simp [runsFrom, runs, Nat.add_comm]
  | cons d second =>
    have hd : d ≠ c := by simpa using hsecond
    rw [runsFrom, if_neg hd, Nat.add_comm, runs]

end Token

/-! ## Carriage returns -/

theorem dropReturns_of_ne {c : Char} (hc : c ≠ '\r') (text : List Char) :
    dropReturns (c :: text) = c :: dropReturns text := by
  simp [dropReturns, hc]

theorem dropReturns_of_not_mem {text : List Char} (htext : '\r' ∉ text) :
    dropReturns text = text := by
  induction text with
  | nil => rfl
  | cons c text ih =>
    rw [List.mem_cons, not_or] at htext
    rw [dropReturns_of_ne (Ne.symm htext.1), ih htext.2]

theorem dropReturns_replicate (count : Nat) :
    dropReturns (List.replicate count '\r') = List.replicate count '\r' := by
  induction count with
  | zero => rfl
  | succ count ih =>
    have hdrop : (List.replicate count '\r').dropWhile (· == '\r') = [] := by simp
    rw [List.replicate_succ, dropReturns, hdrop, ih]
    rfl

/-- Carriage returns before another character stay, unless it is a line feed. -/
theorem dropReturns_replicate_append {c : Char} (hc : c ≠ '\r') (count : Nat)
    (text : List Char) :
    dropReturns (List.replicate count '\r' ++ c :: text) =
      (if c = '\n' then [] else List.replicate count '\r') ++ c :: dropReturns text := by
  induction count with
  | zero => simp [dropReturns_of_ne hc]
  | succ count ih =>
    have hdrop : (List.replicate count '\r' ++ c :: text).dropWhile (· == '\r') = c :: text := by
      rw [List.dropWhile_append_of_pos (by simp), List.dropWhile_cons_of_neg (by simpa using hc)]
    rw [List.replicate_succ, List.cons_append, dropReturns, hdrop, ih]
    by_cases hn : c = '\n'
    · simp [hn]
    · simp [hn]

/-- Behind the returns that a text begins with there is another character of the text, if it
does not end in one. -/
theorem head?_dropWhile_return {text : List Char} (hne : text ≠ [])
    (hlast : text.getLast? ≠ some '\r') (more : List Char) :
    ((text ++ more).dropWhile (· == '\r')).head? = (text.dropWhile (· == '\r')).head? := by
  induction text with
  | nil => exact absurd rfl hne
  | cons c text ih =>
    by_cases hc : c = '\r'
    · subst hc
      have hmore : text ≠ [] := by
        rintro rfl
        exact hlast rfl
      rw [List.getLast?_cons_of_ne_nil hmore] at hlast
      rw [List.cons_append, List.dropWhile_cons_of_pos rfl, List.dropWhile_cons_of_pos rfl]
      exact ih hmore hlast
    · rw [List.cons_append, List.dropWhile_cons_of_neg (by simpa using hc),
        List.dropWhile_cons_of_neg (by simpa using hc)]
      rfl

/-- Where a text does not end in a carriage return, a line feed behind it changes nothing. -/
theorem dropReturns_append_lineFeed {first : List Char} (hlast : first.getLast? ≠ some '\r')
    (second : List Char) :
    dropReturns (first ++ '\n' :: second) = dropReturns first ++ '\n' :: dropReturns second := by
  induction first with
  | nil => exact dropReturns_of_ne (by decide) second
  | cons c first ih =>
    by_cases hnil : first = []
    · subst hnil
      have hc : c ≠ '\r' := by
        rintro rfl
        exact hlast rfl
      rw [List.cons_append, dropReturns_of_ne hc, ih nofun, dropReturns_of_ne hc,
        List.cons_append]
    · rw [List.getLast?_cons_of_ne_nil hnil] at hlast
      have hhead := head?_dropWhile_return hnil hlast ('\n' :: second)
      rw [List.cons_append, dropReturns, dropReturns, hhead, ih hlast]
      split <;> rfl

/-- A line keeps all that it has. -/
theorem dropReturns_of_noBreak {line : List Char} (hbreak : '\n' ∉ line) :
    dropReturns line = line := by
  induction line with
  | nil => rfl
  | cons c line ih =>
    rw [List.mem_cons, not_or] at hbreak
    have hkept : ¬ (c = '\r' ∧ (line.dropWhile (· == '\r')).head? = some '\n') := by
      rintro ⟨-, hhead⟩
      exact hbreak.2 ((List.dropWhile_sublist _).subset (List.mem_of_head? hhead))
    rw [dropReturns, if_neg hkept, ih hbreak.2]

/-- So does a line before others, unless it ends in a carriage return. -/
theorem dropReturns_line {line : List Char} (hbreak : '\n' ∉ line)
    (hlast : line.getLast? ≠ some '\r') (text : List Char) :
    dropReturns (line ++ '\n' :: text) = line ++ '\n' :: dropReturns text := by
  rw [dropReturns_append_lineFeed hlast, dropReturns_of_noBreak hbreak]

/-- What stands behind a line feed does not depend on what stands before it. -/
theorem exists_dropReturns_append (first second : List Char) :
    ∃ front, dropReturns (first ++ '\n' :: second) = front ++ '\n' :: dropReturns second := by
  induction first with
  | nil => exact ⟨[], dropReturns_of_ne (by decide) second⟩
  | cons c first ih =>
    obtain ⟨front, hfront⟩ := ih
    rw [List.cons_append, dropReturns, hfront]
    split
    · exact ⟨front, rfl⟩
    · exact ⟨c :: front, rfl⟩

/-- Where a text begins with a line feed behind carriage returns, the line feed is what is left of
them. -/
theorem head?_dropReturns {text : List Char}
    (hfeed : (text.dropWhile (· == '\r')).head? = some '\n') :
    (dropReturns text).head? = some '\n' := by
  induction text with
  | nil => cases hfeed
  | cons c text ih =>
    by_cases hc : c = '\r'
    · subst hc
      rw [List.dropWhile_cons_of_pos rfl] at hfeed
      rw [dropReturns, if_pos ⟨rfl, hfeed⟩]
      exact ih hfeed
    · rw [List.dropWhile_cons_of_neg (by simpa using hc)] at hfeed
      rw [dropReturns_of_ne hc]
      exact hfeed

/-- Only line feeds have something dropped before them. -/
theorem prefix_of_prefix_dropReturns {part text : List Char} (hpart : '\n' ∉ part)
    (hleading : part <+: dropReturns text) : part <+: text := by
  induction text generalizing part with
  | nil => exact hleading
  | cons c text ih =>
    cases part with
    | nil => exact List.nil_prefix
    | cons first part =>
      rw [dropReturns] at hleading
      split at hleading
      · rename_i hdropped
        -- the part would have to begin with the line feed
        obtain ⟨more, hmore⟩ := hleading
        have hfirst := head?_dropReturns hdropped.2
        rw [← hmore, List.cons_append, List.head?_cons, Option.some.injEq] at hfirst
        simp [hfirst] at hpart
      · obtain ⟨rfl, hrest⟩ := List.cons_prefix_cons.1 hleading
        rw [List.mem_cons, not_or] at hpart
        exact List.cons_prefix_cons.2 ⟨rfl, ih hpart.2 hrest⟩

theorem head?_dropReturns_ne {text : List Char} {c : Char} (hc : c ≠ '\n')
    (htext : text.head? ≠ some c) : (dropReturns text).head? ≠ some c := by
  intro hhead
  obtain ⟨rest, hrest⟩ := List.head?_eq_some_iff.1 hhead
  have hleading : [c] <+: dropReturns text := ⟨rest, hrest.symm⟩
  obtain ⟨more, rfl⟩ := prefix_of_prefix_dropReturns (by simpa using hc.symm) hleading
  exact htext rfl

theorem infix_of_infix_dropReturns {part text : List Char} (hpart : '\n' ∉ part)
    (hinside : part <:+: dropReturns text) : part <:+: text := by
  induction text with
  | nil => exact hinside
  | cons c text ih =>
    have hwhole : part <+: dropReturns (c :: text) → part <:+: c :: text := fun hleading =>
      (prefix_of_prefix_dropReturns hpart hleading).isInfix
    rw [dropReturns] at hinside hwhole
    split at hinside
    · exact (ih hinside).trans (List.suffix_cons c text).isInfix
    · rename_i hkept
      rw [if_neg hkept] at hwhole
      rcases List.infix_cons_iff.1 hinside with hleading | hrest
      · exact hwhole hleading
      · exact (ih hrest).trans (List.suffix_cons c text).isInfix

theorem filter_dropReturns {keep : Char → Bool} (hreturn : keep '\r' = false) (text : List Char) :
    (dropReturns text).filter keep = text.filter keep := by
  induction text with
  | nil => rfl
  | cons c text ih =>
    rw [dropReturns]
    split
    · rename_i hdropped
      rw [ih, List.filter_cons, hdropped.1, hreturn]
      rfl
    · rw [List.filter_cons, List.filter_cons, ih]

/-- Carriage returns are dropped apart in texts of which the second does not begin with a line
end. -/
theorem dropReturns_append {first second : List Char}
    (hsecond : ∀ c ∈ second.head?, c ≠ '\r' ∧ c ≠ '\n') :
    dropReturns (first ++ second) = dropReturns first ++ dropReturns second := by
  have hnone : (second.dropWhile (· == '\r')).head? ≠ some '\n' := by
    cases second with
    | nil => simp
    | cons d second =>
      obtain ⟨hreturn, hfeed⟩ := hsecond d rfl
      rw [List.dropWhile_cons_of_neg (by simpa using hreturn)]
      simpa using hfeed
  have hfeed (text : List Char) : ((text ++ second).dropWhile (· == '\r')).head? = some '\n' ↔
      (text.dropWhile (· == '\r')).head? = some '\n' := by
    rw [List.dropWhile_append]
    split
    · rename_i hempty
      simp [List.isEmpty_iff.1 hempty, hnone]
    · rename_i hmore
      obtain ⟨d, rest, hrest⟩ := List.exists_cons_of_ne_nil (mt List.isEmpty_iff.2 hmore)
      rw [hrest]
      rfl
  induction first with
  | nil => rfl
  | cons c first ih =>
    rw [List.cons_append, dropReturns, dropReturns]
    simp only [hfeed, ih]
    split <;> rfl

theorem dropReturns_append_left {first : List Char} (hfirst : '\r' ∉ first) (second : List Char) :
    dropReturns (first ++ second) = first ++ dropReturns second := by
  induction first with
  | nil => rfl
  | cons c first ih =>
    rw [List.mem_cons, not_or] at hfirst
    rw [List.cons_append, dropReturns_of_ne (Ne.symm hfirst.1), ih hfirst.2, List.cons_append]

theorem count_dropReturns (text : List Char) : (dropReturns text).count '\n' = text.count '\n' := by
  rw [List.count_eq_length_filter, List.count_eq_length_filter,
    filter_dropReturns (by decide) text]

/-- Something is left of a text. -/
theorem dropReturns_ne_nil {text : List Char} (hne : text ≠ []) : dropReturns text ≠ [] := by
  by_cases hbreak : '\n' ∈ text
  · have hcount := List.count_pos_iff.2 hbreak
    rw [← count_dropReturns] at hcount
    exact List.ne_nil_of_mem (List.count_pos_iff.1 hcount)
  · rwa [dropReturns_of_noBreak hbreak]

theorem dropReturns_sublist (text : List Char) : (dropReturns text).Sublist text := by
  induction text with
  | nil => exact .slnil
  | cons c text ih =>
    rw [dropReturns]
    split
    · exact ih.cons c
    · exact ih.cons_cons c

theorem mem_of_mem_dropReturns {text : List Char} {c : Char} (hmem : c ∈ dropReturns text) :
    c ∈ text :=
  (dropReturns_sublist text).subset hmem

/-! ## The encoder -/

namespace RunEncoder

/-- The tokens still to be delivered for `text` behind the run under construction. -/
def runsAfter (run : Option (Char × Nat)) (text : List Char) : List Token :=
  match run with
  | none => Token.runs text
  | some (c, count) => Token.runsFrom c count text

/-- What becomes of a consumer that takes the tokens in order. -/
def acceptAll {τ : Type} (accept : Token → τ → τ) (tokens : List Token) (consumer : τ) : τ :=
  tokens.foldl (fun consumer token => accept token consumer) consumer

theorem acceptAll_append {τ : Type} (accept : Token → τ → τ) (first second : List Token)
    (consumer : τ) :
    acceptAll accept (first ++ second) consumer =
      acceptAll accept second (acceptAll accept first consumer) := by
  simp [acceptAll]

variable {τ : Type} {Ready : τ → Prop} {limit : Nat} {consume : Consumer τ}
  {accept : Token → τ → τ}

/-- A consumer that is ready takes every token within the limit.  It then is in the state that
`accept` gives, and ready again. -/
def Accepts (Ready : τ → Prop) (limit : Nat) (consume : Consumer τ) (accept : Token → τ → τ) :
    Prop :=
  ∀ token consumer, Ready consumer →
    offer (m := Id) limit (consume token) consumer = (true, accept token consumer) ∧
      Ready (accept token consumer)

section

variable (haccepts : Accepts Ready limit consume accept) {consumer : τ} (hready : Ready consumer)

include haccepts hready

theorem Accepts.ready_acceptAll (tokens : List Token) :
    Ready (acceptAll accept tokens consumer) := by
  induction tokens generalizing consumer with
  | nil => exact hready
  | cons token tokens ih => exact ih (haccepts token consumer hready).2

theorem deliver_of_accepts (token : Token) (encoder : RunEncoder) :
    deliver limit consume token encoder consumer =
      { encoder, consumer := accept token consumer } := by
  rw [deliver, (haccepts token consumer hready).1]

/-- A character delivers at most the run before it. -/
theorem extend_delivers (c : Char) (encoder : RunEncoder) :
    ∃ run delivered,
      extend limit consume c encoder consumer =
        { encoder := { encoder with run }, consumer := acceptAll accept delivered consumer } ∧
      ∀ rest, runsAfter encoder.run (c :: rest) = delivered ++ runsAfter run rest := by
  cases hrun : encoder.run with
  | none =>
    refine ⟨some (c, 1), [], ?_, fun rest => rfl⟩
    simp [extend, hrun, acceptAll]
  | some pair =>
    obtain ⟨d, count⟩ := pair
    by_cases hd : d = c
    · subst hd
      refine ⟨some (d, count + 1), [], ?_, fun rest => ?_⟩
      · simp [extend, hrun, acceptAll]
      · simp [runsAfter, Token.runsFrom]
    · refine ⟨some (c, 1), [.run d count], ?_, fun rest => ?_⟩
      · simp [extend, hrun, hd, deliver_of_accepts haccepts hready, acceptAll]
      · simp [runsAfter, Token.runsFrom, Ne.symm hd]

theorem foldl_andThen_extend (text : List Char) (encoder : RunEncoder) :
    ∃ run delivered,
      text.foldl (fun progress c => Progress.andThen progress (extend limit consume c))
          { encoder, consumer } =
        { encoder := { encoder with run }, consumer := acceptAll accept delivered consumer } ∧
      ∀ rest, runsAfter encoder.run (text ++ rest) = delivered ++ runsAfter run rest := by
  induction text generalizing encoder consumer with
  | nil => exact ⟨encoder.run, [], rfl, fun rest => rfl⟩
  | cons c text ih =>
    obtain ⟨run, delivered, hextend, hruns⟩ := extend_delivers haccepts hready c encoder
    obtain ⟨run', delivered', hfold, hruns'⟩ :=
      ih (haccepts.ready_acceptAll hready delivered) { encoder with run }
    refine ⟨run', delivered ++ delivered', ?_, fun rest => ?_⟩
    · rw [List.foldl_cons, Progress.andThen, hextend, hfold, acceptAll_append]
    · rw [List.cons_append, hruns, hruns', List.append_assoc]

/-- The characters of a text deliver a first part of what is still to be delivered. -/
theorem extendAll_delivers (text : List Char) (encoder : RunEncoder) :
    ∃ run delivered,
      extendAll limit consume text encoder consumer =
        { encoder := { encoder with run }, consumer := acceptAll accept delivered consumer } ∧
      ∀ rest, runsAfter encoder.run (text ++ rest) = delivered ++ runsAfter run rest :=
  foldl_andThen_extend haccepts hready text encoder

end

/-- What the encoder still has to deliver if `text` is all that follows. -/
def outstanding (encoder : RunEncoder) (text : List Char) : List Token :=
  runsAfter encoder.run (dropReturns (List.replicate encoder.returns '\r' ++ text))

section

variable (haccepts : Accepts Ready limit consume accept) (consumer : τ) (hready : Ready consumer)
  (encoder : RunEncoder) (hopen : encoder.finished = false)

include haccepts hready hopen

theorem put_delivers (c : Char) :
    ∃ next delivered,
      put limit consume c encoder consumer =
        { encoder := next, consumer := acceptAll accept delivered consumer } ∧
      next.finished = false ∧
      ∀ rest, outstanding encoder (c :: rest) = delivered ++ outstanding next rest := by
  by_cases hc : c = '\r'
  · subst hc
    refine ⟨{ encoder with returns := encoder.returns + 1 }, [], ?_, hopen, fun rest => ?_⟩
    · simp [put, hopen, acceptAll]
    · simp [outstanding, List.replicate_succ']
  · obtain ⟨run, delivered, hextend, hruns⟩ := extendAll_delivers haccepts hready
      ((if c = '\n' then [] else List.replicate encoder.returns '\r') ++ [c])
      { encoder with returns := 0 }
    refine ⟨{ encoder with returns := 0, run }, delivered, ?_, hopen, fun rest => ?_⟩
    · rw [put, if_neg (by simp [hopen]), if_neg hc]
      exact hextend
    · have := hruns (dropReturns rest)
      simpa [outstanding, dropReturns_replicate_append hc] using this

theorem putAll_delivers (text : List Char) :
    ∃ next delivered,
      putAll limit consume text encoder consumer =
        { encoder := next, consumer := acceptAll accept delivered consumer } ∧
      next.finished = false ∧
      ∀ rest, outstanding encoder (text ++ rest) = delivered ++ outstanding next rest := by
  unfold putAll
  induction text generalizing encoder consumer with
  | nil => exact ⟨encoder, [], rfl, hopen, fun rest => rfl⟩
  | cons c text ih =>
    obtain ⟨next, delivered, hput, hnext, hruns⟩ := put_delivers haccepts consumer hready encoder hopen c
    obtain ⟨last, delivered', hfold, hlast, hruns'⟩ :=
      ih _ (haccepts.ready_acceptAll hready delivered) next hnext
    refine ⟨last, delivered ++ delivered', ?_, hlast, fun rest => ?_⟩
    · rw [List.foldl_cons, Progress.andThen, hput, hfold, acceptAll_append]
    · rw [List.cons_append, hruns, hruns', List.append_assoc]

/-- The end of the text delivers all that is left, and the end token. -/
theorem finish_delivers :
    ∃ last, finish limit consume encoder consumer =
        { encoder := last
          consumer := acceptAll accept (outstanding encoder [] ++ [Token.endOfText]) consumer } ∧
      last.finished = true := by
  obtain ⟨run, delivered, hextend, hruns⟩ := extendAll_delivers haccepts hready
    (List.replicate encoder.returns '\r') { encoder with returns := 0 }
  have hleft : outstanding encoder [] = delivered ++ runsAfter run [] := by
    have := hruns []
    simpa [outstanding, dropReturns_replicate] using this
  have hdeliver (tokens : List Token) (token : Token) (encoder : RunEncoder) :=
    deliver_of_accepts haccepts (haccepts.ready_acceptAll hready tokens) token encoder
  refine ⟨{ encoder with run := none, returns := 0, finished := true }, ?_, rfl⟩
  rw [hleft]
  simp only [hopen] at hextend
  cases run with
  | none =>
    simp only [finish, hopen, hextend, Progress.andThen, flush, hdeliver, runsAfter, Token.runs,
      Bool.false_eq_true, if_false, List.append_nil, acceptAll_append]
    rfl
  | some pair =>
    obtain ⟨c, count⟩ := pair
    have hend := hdeliver (delivered ++ [Token.run c count])
    rw [acceptAll_append] at hend
    simp only [finish, hopen, hextend, Progress.andThen, flush, hdeliver, runsAfter,
      Token.runsFrom, Bool.false_eq_true, if_false, acceptAll_append]
    exact hend _ _

end

end RunEncoder

/-! ## Texts -/

namespace Token

theorem accepts_recorder :
    RunEncoder.Accepts (fun _ => True) 1 recorder (fun token tokens => token :: tokens) :=
  fun _ _ _ => ⟨rfl, trivial⟩

theorem acceptAll_recorder (tokens seen : List Token) :
    RunEncoder.acceptAll (fun token tokens => token :: tokens) tokens seen =
      tokens.reverse ++ seen := by
  induction tokens generalizing seen with
  | nil => rfl
  | cons token tokens ih =>
    rw [RunEncoder.acceptAll, List.foldl_cons, ← RunEncoder.acceptAll, ih]
    simp

/-- A text is seen as its maximal runs, without the carriage returns before line feeds, and
its end. -/
theorem ofText_eq (text : List Char) :
    ofText text = .ok (runs (dropReturns text) ++ [Token.endOfText]) := by
  obtain ⟨next, delivered, hput, hnext, hruns⟩ :=
    RunEncoder.putAll_delivers accepts_recorder [] trivial {} rfl text
  obtain ⟨last, hfinish, -⟩ := RunEncoder.finish_delivers accepts_recorder
    (RunEncoder.acceptAll (fun token tokens => token :: tokens) delivered []) trivial next hnext
  have htext : runs (dropReturns text) = delivered ++ next.outstanding [] := by
    have := hruns []
    simpa [RunEncoder.outstanding, RunEncoder.runsAfter] using this
  simp only [ofText, hput, RunEncoder.Progress.andThen, hfinish]
  rw [acceptAll_recorder, acceptAll_recorder, htext]
  simp

end Token
end Docpress
