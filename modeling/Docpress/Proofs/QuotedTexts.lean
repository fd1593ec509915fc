import Docpress.Proofs.Scanning
import Mathlib.Data.List.Basic

/-!
# Texts between quotes

Both languages write texts between quotes, with a backslash before a character that would mean
something else.  Backslashes and quotes stand both for themselves and for what they escape, so a
run of equal characters may belong to several characters of the text that is spelled.

`Quoting` is what a scanner needs for such texts.  `Inside` describes it character by character,
and `Inside.scan_run` says that it does with a run what it does with the characters one after the
other.  A closing quote may share its run with an escaped one (`Inside.scans_close`).
`Quoting.scans_spelled` puts this together: what is spelled is read.
-/

namespace Docpress

variable {σ : Type}

/-- How a scanner reads a text between quotes. -/
structure Quoting (σ : Type) where
  /-- the character that closes the text -/
  quote : Char
  /-- the state in which it has read the characters -/
  collecting : List Char → σ
  /-- the state behind a backslash -/
  escaping : List Char → σ
  /-- the state behind the closing quote -/
  closed : σ
  /-- what an escape stands for -/
  unescape? : Char → Option Char
  /-- what a text is handed on as -/
  items : List Char → List Item

namespace Quoting

/-- A place between the quotes, with the characters read so far. -/
inductive Place where
  | collecting (text : List Char)
  | escaping (text : List Char)

/-- The state of the scanner at a place. -/
def state (quoting : Quoting σ) : Place → σ
  | .collecting text => quoting.collecting text
  | .escaping text => quoting.escaping text

/-- The character stands for itself. -/
structure IsPlain (quoting : Quoting σ) (c : Char) : Prop where
  noBreak : c ≠ '\n'
  noQuote : c ≠ quoting.quote
  noBackslash : c ≠ '\\'

/-- The scanner reads texts between quotes, and what it does with runs there. -/
structure Lawful (quoting : Quoting σ) (scan : σ → Token → Scan σ) : Prop where
  quote_ne_backslash : quoting.quote ≠ '\\'
  unescape?_quote : quoting.unescape? quoting.quote = some quoting.quote
  unescape?_backslash : quoting.unescape? '\\' = some '\\'
  plain (text : List Char) {c : Char} (hc : quoting.IsPlain c) (count : Nat) :
    scan (quoting.collecting text) (.run c count) =
      ⟨true, quoting.collecting (text ++ List.replicate count c), []⟩
  backslashes (text : List Char) (count : Nat) :
    scan (quoting.collecting text) (.run '\\' count) =
      ⟨true, if count % 2 = 1 then quoting.escaping (text ++ List.replicate (count / 2) '\\')
        else quoting.collecting (text ++ List.replicate (count / 2) '\\'), []⟩
  escaped (text : List Char) {c meant : Char} (hmeant : quoting.unescape? c = some meant) :
    scan (quoting.escaping text) (.run c 1) = ⟨true, quoting.collecting (text ++ [meant]), []⟩
  /-- the rest of the run is read as if it stood alone -/
  escaped_run (text : List Char) {c meant : Char} (hmeant : quoting.unescape? c = some meant)
    (count : Nat) :
    scan (quoting.escaping text) (.run c (count + 2)) =
      scan (quoting.collecting (text ++ [meant])) (.run c (count + 1))
  close (text : List Char) :
    scan (quoting.collecting text) (.run quoting.quote 1) =
      ⟨true, quoting.closed, quoting.items text⟩

/-! ## Character by character -/

/-- Reading the characters between the quotes leads from one place to another. -/
inductive Inside (quoting : Quoting σ) : Place → List Char → Place → Prop where
  | nil (place : Place) : Inside quoting place [] place
  | plain {text rest : List Char} {c : Char} {last : Place} (hc : quoting.IsPlain c)
      (hrest : Inside quoting (.collecting (text ++ [c])) rest last) :
      Inside quoting (.collecting text) (c :: rest) last
  | backslash {text rest : List Char} {last : Place}
      (hrest : Inside quoting (.escaping text) rest last) :
      Inside quoting (.collecting text) ('\\' :: rest) last
  | escaped {text rest : List Char} {c meant : Char} {last : Place}
      (hmeant : quoting.unescape? c = some meant)
      (hrest : Inside quoting (.collecting (text ++ [meant])) rest last) :
      Inside quoting (.escaping text) (c :: rest) last

namespace Inside

variable {quoting : Quoting σ} {scan : σ → Token → Scan σ}

theorem append {place between last : Place} {first second : List Char}
    (hfirst : Inside quoting place first between) (hsecond : Inside quoting between second last) :
    Inside quoting place (first ++ second) last := by
  induction hfirst with
  | nil => exact hsecond
  | plain hc _ ih => exact .plain hc (ih hsecond)
  | backslash _ ih => exact .backslash (ih hsecond)
  | escaped hmeant _ ih => exact .escaped hmeant (ih hsecond)

theorem split {place last : Place} (first : List Char) {second : List Char}
    (hall : Inside quoting place (first ++ second) last) :
    ∃ between, Inside quoting place first between ∧ Inside quoting between second last := by
  induction first generalizing place with
  | nil => exact ⟨place, .nil place, hall⟩
  | cons c first ih =>
    cases hall with
    | plain hc hrest =>
      obtain ⟨between, hfirst, hsecond⟩ := ih hrest
      exact ⟨between, .plain hc hfirst, hsecond⟩
    | backslash hrest =>
      obtain ⟨between, hfirst, hsecond⟩ := ih hrest
      exact ⟨between, .backslash hfirst, hsecond⟩
    | escaped hmeant hrest =>
      obtain ⟨between, hfirst, hsecond⟩ := ih hrest
      exact ⟨between, .escaped hmeant hfirst, hsecond⟩

/-! ### Runs -/

theorem of_plain_run {text : List Char} {c : Char} {count : Nat} {last : Place}
    (hbackslash : c ≠ '\\')
    (hinside : Inside quoting (.collecting text) (List.replicate count c) last) :
    last = .collecting (text ++ List.replicate count c) := by
  induction count generalizing text with
  | zero =>
    cases hinside
    simp
  | succ count ih =>
    rw [List.replicate_succ] at hinside ⊢
    cases hinside with
    | plain _ hrest =>
      rw [ih hrest, List.append_assoc]
      rfl
    | backslash _ => exact absurd rfl hbackslash

/-- Every second backslash of a run stands for itself. -/
theorem of_backslashes (hlawful : quoting.Lawful scan) {text : List Char} {last : Place}
    (count : Nat) (hinside : Inside quoting (.collecting text) (List.replicate count '\\') last) :
    last = if count % 2 = 1 then .escaping (text ++ List.replicate (count / 2) '\\')
      else .collecting (text ++ List.replicate (count / 2) '\\') := by
  induction count using Nat.strongRecOn generalizing text with
  | ind count ih =>
    match count with
    | 0 =>
      cases hinside
      simp
    | 1 =>
      cases hinside with
      | plain hc _ => exact absurd rfl hc.noBackslash
      | backslash hrest =>
        cases hrest
        simp
    | count + 2 =>
      cases hinside with
      | plain hc _ => exact absurd rfl hc.noBackslash
      | backslash hrest =>
        cases hrest with
        | escaped hmeant hrest =>
          rw [hlawful.unescape?_backslash] at hmeant
          cases hmeant
          rw [ih count (by omega) hrest, List.append_assoc]
          have hhalf : (count + 2) / 2 = count / 2 + 1 := by omega
          have hparity : (count + 2) % 2 = count % 2 := by omega
          rw [hhalf, hparity, List.replicate_succ]
          rfl

theorem scan_collecting (hlawful : quoting.Lawful scan) {text : List Char} {c : Char} {count : Nat}
    {last : Place}
    (hinside : Inside quoting (.collecting text) (List.replicate (count + 1) c) last) :
    scan (quoting.collecting text) (.run c (count + 1)) = ⟨true, quoting.state last, []⟩ := by
  by_cases hbackslash : c = '\\'
  · subst hbackslash
    rw [of_backslashes hlawful (count + 1) hinside, hlawful.backslashes]
    split <;> rfl
  · rw [of_plain_run hbackslash hinside]
    cases hinside with
    | plain hc _ => exact hlawful.plain text hc (count + 1)
    | backslash _ => exact absurd rfl hbackslash

theorem scan_escaping (hlawful : quoting.Lawful scan) {text : List Char} {c : Char} {count : Nat}
    {last : Place}
    (hinside : Inside quoting (.escaping text) (List.replicate (count + 1) c) last) :
    scan (quoting.escaping text) (.run c (count + 1)) = ⟨true, quoting.state last, []⟩ := by
  cases hinside with
  | escaped hmeant hrest =>
    cases count with
    | zero =>
      cases hrest
      exact hlawful.escaped text hmeant
    | succ count =>
      rw [hlawful.escaped_run text hmeant]
      exact scan_collecting hlawful hrest

/-- A run of characters is read as the characters one after the other. -/
theorem scan_run (hlawful : quoting.Lawful scan) {place last : Place} {c : Char} {count : Nat}
    (hcount : 0 < count) (hinside : Inside quoting place (List.replicate count c) last) :
    scan (quoting.state place) (.run c count) = ⟨true, quoting.state last, []⟩ := by
  obtain ⟨count, rfl⟩ := Nat.exists_eq_add_one_of_ne_zero (Nat.ne_of_gt hcount)
  cases place with
  | collecting text => exact scan_collecting hlawful hinside
  | escaping text => exact scan_escaping hlawful hinside

theorem scans_runsFrom (hlawful : quoting.Lawful scan) {place between last : Place} {c : Char}
    {count : Nat} {text : List Char} (hcount : 0 < count)
    (hrun : Inside quoting place (List.replicate count c) between)
    (htext : Inside quoting between text last) :
    Scans scan (quoting.state place) (Token.runsFrom c count text) (quoting.state last) [] := by
  induction text generalizing place between c count with
  | nil =>
    cases htext
    exact .of_taken (hrun.scan_run hlawful hcount)
  | cons d text ih =>
    obtain ⟨after, hd, htext⟩ := split [d] htext
    rw [Token.runsFrom]
    split
    · rename_i heq
      subst heq
      refine ih (by omega) ?_ htext
      rw [List.replicate_succ']
      exact hrun.append hd
    · exact (Scans.of_taken (hrun.scan_run hlawful hcount)).append (ih (by omega) hd htext)

/-- The scanner follows the characters of a text through its runs. -/
theorem scans (hlawful : quoting.Lawful scan) {place last : Place} {text : List Char}
    (hinside : Inside quoting place text last) :
    Scans scan (quoting.state place) (Token.runs text) (quoting.state last) [] := by
  cases text with
  | nil =>
    cases hinside
    exact .nil _
  | cons c text =>
    obtain ⟨between, hc, htext⟩ := split [c] hinside
    exact scans_runsFrom hlawful (by omega) hc htext

/-! ### The closing quote -/

/-- An escape is left open by a backslash only. -/
theorem getLast?_of_escaping {place : Place} {text seen : List Char} (hne : text ≠ [])
    (hinside : Inside quoting place text (.escaping seen)) : text.getLast? = some '\\' := by
  obtain ⟨init, c, rfl⟩ := (List.eq_nil_or_concat' text).resolve_left hne
  obtain ⟨between, _, hlast⟩ := split init hinside
  cases hlast with
  | plain _ hrest => cases hrest
  | backslash _ => simp
  | escaped _ hrest => cases hrest

/-- The closing quote ends the text.  If the last character of the text is a quote as well, the
two are one run. -/
theorem scans_close (hlawful : quoting.Lawful scan) {seen text meant : List Char}
    (hinside : Inside quoting (.collecting seen) text (.collecting meant)) :
    Scans scan (quoting.collecting seen) (Token.runs (text ++ [quoting.quote])) quoting.closed
      (quoting.items meant) := by
  by_cases hlast : text.getLast? = some quoting.quote
  · obtain ⟨init, rfl⟩ := List.getLast?_eq_some_iff.1 hlast
    obtain ⟨between, hinit, hquote⟩ := split init hinside
    generalize hc : quoting.quote = c at hquote
    cases hquote with
    | plain hplain _ => exact absurd hc.symm hplain.noQuote
    | backslash _ => exact absurd hc hlawful.quote_ne_backslash
    | @escaped before _ _ _ _ hmeant hrest =>
      rw [← hc, hlawful.unescape?_quote] at hmeant
      cases hmeant
      cases hrest
      have hne : init ≠ [] := by
        rintro rfl
        cases hinit
      have hborder : init.getLast? ≠ some quoting.quote := by
        rw [getLast?_of_escaping hne hinit]
        exact fun heq => hlawful.quote_ne_backslash (Option.some.inj heq).symm
      have hpair : scan (quoting.escaping before) (.run quoting.quote 2) =
          ⟨true, quoting.closed, quoting.items (before ++ [quoting.quote])⟩ := by
        rw [hlawful.escaped_run before hlawful.unescape?_quote 0, hlawful.close]
      have hruns : Token.runs [quoting.quote, quoting.quote] = [.run quoting.quote 2] := by
        simp [Token.runs, Token.runsFrom]
      rw [← hc, List.append_assoc]
      refine (hinit.scans hlawful).meet hborder ?_
      change Scans scan _ (Token.runs [quoting.quote, quoting.quote]) _ _
      rw [hruns]
      exact .of_taken hpair
  · exact (hinside.scans hlawful).meet hlast (.of_taken (hlawful.close meant))

end Inside

/-! ## Spellings -/

/-- The character is spelled as itself, or as an escape that stands for it. -/
inductive Spells (quoting : Quoting σ) (c : Char) : List Char → Prop where
  | itself (hc : quoting.IsPlain c) : Spells quoting c [c]
  | escape {d : Char} (hd : quoting.unescape? d = some c) : Spells quoting c ['\\', d]

variable {quoting : Quoting σ} {spell : Char → List Char}

/-- What a text is spelled with is read as the text. -/
theorem inside_of_spells (hspell : ∀ c, quoting.Spells c (spell c)) (seen text : List Char) :
    Inside quoting (.collecting seen) (text.flatMap spell) (.collecting (seen ++ text)) := by
  induction text generalizing seen with
  | nil =>
    rw [List.append_nil]
    exact .nil _
  | cons c text ih =>
    have hrest := ih (seen ++ [c])
    rw [List.append_assoc] at hrest
    have hfirst := hspell c
    rw [List.flatMap_cons]
    refine Inside.append ?_ hrest
    generalize spell c = spelling at hfirst
    cases hfirst with
    | itself hc => exact .plain hc (.nil _)
    | escape hd => exact .backslash (.escaped hd (.nil _))

/-- A spelled text is read up to its closing quote. -/
theorem scans_spelled {scan : σ → Token → Scan σ} (hlawful : quoting.Lawful scan)
    (hspell : ∀ c, quoting.Spells c (spell c)) (text : List Char) :
    Scans scan (quoting.collecting []) (Token.runs (text.flatMap spell ++ [quoting.quote]))
      quoting.closed (quoting.items text) :=
  (inside_of_spells hspell [] text).scans_close hlawful

/-- No spelling starts with the quote. -/
theorem Spells.eq_cons {c : Char} (hquote : quoting.quote ≠ '\\') {spelling : List Char}
    (hspells : quoting.Spells c spelling) :
    ∃ first rest, spelling = first :: rest ∧ first ≠ quoting.quote := by
  cases hspells with
  | itself hc => exact ⟨_, _, rfl, hc.noQuote⟩
  | escape _ => exact ⟨_, _, rfl, hquote.symm⟩

/-- A scanner that takes the opening quote reads a spelled text from quote to quote.  Two quotes
with nothing between them would be one run. -/
theorem scans_quoted {scan : σ → Token → Scan σ} (hlawful : quoting.Lawful scan)
    (hspell : ∀ c, quoting.Spells c (spell c)) {start : σ}
    (hopen : scan start (.run quoting.quote 1) = ⟨true, quoting.collecting [], []⟩)
    {text : List Char} (hne : text ≠ []) :
    Scans scan start
      (Token.runs (quoting.quote :: (text.flatMap spell ++ [quoting.quote])))
      quoting.closed (quoting.items text) := by
  have hclose := scans_spelled hlawful hspell text
  obtain ⟨c, text, rfl⟩ := List.exists_cons_of_ne_nil hne
  obtain ⟨first, rest, hfirst, hquote⟩ := (hspell c).eq_cons hlawful.quote_ne_backslash
  rw [List.flatMap_cons, hfirst] at hclose ⊢
  exact .of_taken_char hopen hquote hclose

/-- Nothing breaks the line within a spelled text, unless an escape does. -/
theorem lineFeed_not_mem_spelled (hspell : ∀ c, quoting.Spells c (spell c))
    (hbreak : quoting.unescape? '\n' = none) (text : List Char) : '\n' ∉ text.flatMap spell := by
  simp only [List.mem_flatMap, not_exists, not_and]
  intro c _ hmem
  have hc := hspell c
  generalize spell c = spelling at hc hmem
  cases hc with
  | itself hc => exact hc.noBreak (List.mem_singleton.1 hmem).symm
  | escape hd =>
    rcases List.mem_cons.1 hmem with hmem | hmem
    · cases hmem
    · rw [← List.mem_singleton.1 hmem, hbreak] at hd
      cases hd

end Quoting
end Docpress
