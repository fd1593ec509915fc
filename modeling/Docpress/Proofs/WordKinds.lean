import Docpress.Proofs.KeptCharacters

/-!
# The kinds of words

Words with blanks between them are read one by one, and as what each of them looks like
(`wordKind`).  What it looks like is decided by its first characters and given up for a plain word
at the first that does not fit.

* `Mode.Reading text mode`: where the beginning `text` of a word has led.  Behind characters that
  do not fit there is only the plain word, and no continuation is anything else either.
* `Mode.reads_run`, `Mode.reads_word`: a run of characters more, and with it the whole word.
  `Mode.scans_lexeme` ends it.
* `Mode.scans_spaced`: words with gaps in between, in each of which line breaks are counted.
-/

namespace Docpress.Document

open Token (runs)

/-! ## Words -/

instance (text : List Char) : Decidable (IsDigits text) :=
  decidable_of_iff (text ≠ [] ∧ text.all Char.isDigit = true) (by rw [IsDigits, List.all_eq_true])

/-- Six hexadecimal digits, or eight. -/
def IsColorCode (text : List Char) : Prop :=
  (text.length = 6 ∨ text.length = 8) ∧ ∀ c ∈ text, Text.isHexDigit c = true

instance (text : List Char) : Decidable (IsColorCode text) :=
  decidable_of_iff ((text.length = 6 ∨ text.length = 8) ∧ text.all Text.isHexDigit = true)
    (by rw [IsColorCode, List.all_eq_true])

/-- The kind of the symbol that a word stands for. -/
def wordKind (word : List Char) : SymbolKind :=
  if IsDigits word then .number
  else if word.head? = some '-' ∧ IsDigits word.tail then .signed
  else if word.head? = some '#' ∧ IsColorCode word.tail then .color
  else if (Timestamp.readChars? word).isSome then .timestamp
  else .text

theorem isSome_readChars?_color (digits : List Char) :
    (Color.readChars? ('#' :: digits)).isSome = true ↔ IsColorCode digits := by
  rcases digits with
    _ | ⟨a, _ | ⟨b, _ | ⟨c, _ | ⟨d, _ | ⟨e, _ | ⟨f, _ | ⟨g, _ | ⟨h, _ | ⟨i, rest⟩⟩⟩⟩⟩⟩⟩⟩⟩
  all_goals simp [Color.readChars?, IsColorCode]

theorem readChars?_eq_none {text : List Char} (hshape : Timestamp.shape text = .hopeless) :
    Timestamp.readChars? text = none := by
  rw [Timestamp.readChars?, if_pos (by simp [hshape])]

/-- Timestamps begin with digits. -/
theorem readChars?_of_not_isDigit {c : Char} (hc : c.isDigit = false) (rest : List Char) :
    Timestamp.readChars? (c :: rest) = none := by
  refine readChars?_eq_none (by_contra fun hshape => ?_)
  rw [Timestamp.isDigit_of_shape hshape] at hc
  cases hc

section

variable (rest : List Char)

theorem not_isDigits {c : Char} (hc : c.isDigit = false) : ¬ IsDigits (c :: rest) := by
  intro hdigits
  rw [hdigits.2 c List.mem_cons_self] at hc
  cases hc

theorem wordKind_digit {c : Char} (hc : c.isDigit = true) (hword : ¬ IsDigits (c :: rest)) :
    wordKind (c :: rest) =
      if (Timestamp.readChars? (c :: rest)).isSome then .timestamp else .text := by
  have hmarks : c ≠ '-' ∧ c ≠ '#' := by
    constructor <;> rintro rfl <;> exact absurd hc (by decide)
  simp [wordKind, hword, hmarks]

theorem wordKind_minus : wordKind ('-' :: rest) = if IsDigits rest then .signed else .text := by
  simp [wordKind, not_isDigits rest (show '-'.isDigit = false by decide),
    readChars?_of_not_isDigit (show '-'.isDigit = false by decide)]

theorem wordKind_hash : wordKind ('#' :: rest) = if IsColorCode rest then .color else .text := by
  simp [wordKind, not_isDigits rest (show '#'.isDigit = false by decide),
    readChars?_of_not_isDigit (show '#'.isDigit = false by decide)]

theorem wordKind_other {c : Char} (hc : c.isDigit = false) (hminus : c ≠ '-') (hhash : c ≠ '#') :
    wordKind (c :: rest) = .text := by
  simp [wordKind, not_isDigits rest hc, readChars?_of_not_isDigit hc, hminus, hhash]

end

/-- Every word that begins like this is a plain one. -/
def Settled (text : List Char) : Prop := ∀ more, wordKind (text ++ more) = .text

theorem Settled.append {text : List Char} (hsettled : Settled text) (more : List Char) :
    Settled (text ++ more) := by
  intro rest
  rw [List.append_assoc]
  exact hsettled _

/-- A sign is that of a number only if digits follow, and digits only. -/
theorem settled_minus (digits : List Char) {c : Char} (hc : c.isDigit = false) (more : List Char) :
    Settled ('-' :: (digits ++ c :: more)) := by
  intro rest
  rw [List.cons_append, wordKind_minus, if_neg]
  intro hdigits
  have hdigit : c.isDigit = true := hdigits.2 c (by simp)
  rw [hc] at hdigit
  cases hdigit

theorem settled_hash (digits : List Char) {c : Char} (hc : Text.isHexDigit c = false)
    (more : List Char) : Settled ('#' :: (digits ++ c :: more)) := by
  intro rest
  rw [List.cons_append, wordKind_hash, if_neg]
  intro hcode
  have hdigit : Text.isHexDigit c = true := hcode.2 c (by simp)
  rw [hc] at hdigit
  cases hdigit

/-- A date that is none is not mended by what follows. -/
theorem settled_hopeless {text : List Char} (hdigit : ∀ c ∈ text.head?, c.isDigit = true)
    (hother : ∃ c ∈ text, c.isDigit = false) (hshape : Timestamp.shape text = .hopeless) :
    Settled text := by
  intro more
  obtain ⟨d, hmem, hd⟩ := hother
  obtain ⟨c, rest, rfl⟩ := List.exists_cons_of_ne_nil (List.ne_nil_of_mem hmem)
  have hmore : Timestamp.shape (c :: rest ++ more) = .hopeless := by
    by_contra hne
    exact Timestamp.shape_of_append hne hshape
  rw [List.cons_append] at hmore ⊢
  rw [wordKind_digit _ (hdigit c rfl), readChars?_eq_none hmore]
  · rfl
  · intro hdigits
    rw [hdigits.2 d (List.mem_append_left more hmem)] at hd
    cases hd

/-- Whether the character may stand in a word, be it what it may: it is no blank, no dot and no
punctuation. -/
def isInner (c : Char) : Bool := !(Text.isBlank c || c == '.' || punctuation.contains c)

/-- A word of any kind. -/
structure Lexeme where
  chars : List Char
  ne_nil : chars ≠ []
  inner : ∀ c ∈ chars, isInner c = true
  unquoted : chars.head? ≠ some '\''

/-- The symbol that the word stands for. -/
def Lexeme.symbol (word : Lexeme) : Symbol := ⟨wordKind word.chars, String.ofList word.chars⟩

namespace Mode

/-- Where the beginning of a word has led. -/
inductive Reading : List Char → Mode → Prop where
  | word {text : List Char} (hne : text ≠ []) (hsettled : Settled text) : Reading text (.word text)
  | sign : Reading ['-'] .sign
  | number {text : List Char} (hnumeral : IsNumeral text) : Reading text (.number text)
  | timestamp {text : List Char} {whole : Nat} (hlength : 4 < text.length)
      (hshape : Timestamp.shape text ≠ .hopeless) : Reading text (.timestamp text whole)
  | color {digits : List Char} (hdigits : ∀ c ∈ digits, Text.isHexDigit c = true) :
      Reading ('#' :: digits) (.color ('#' :: digits))

section

variable {c : Char} {count : Nat}

theorem isDelimiter_inner (hc : isInner c = true) (count : Nat) :
    isDelimiter (.run c count) = false := by
  simpa [isInner, isDelimiter, and_assoc] using hc

theorem step_word_inner (hc : isInner c = true) (text : List Char) (count : Nat) :
    step (.word text) (.run c count) = ⟨true, .word (text ++ List.replicate count c), []⟩ := by
  rw [step, stepWord]
  · rw [isDelimiter_inner hc]
    rfl
  · rintro more heq
    cases heq
    exact absurd hc (by decide)

theorem step_number_digits (hdigit : c.isDigit = true) (text : List Char) (count : Nat) :
    step (.number text) (.run c count) = ⟨true, .number (text ++ List.replicate count c), []⟩ := by
  simp only [step, stepNumber, isDigits, hdigit, if_true]
  rfl

/-- A word that is given up for a plain one. -/
theorem reads_given_up (text : List Char) {mode : Mode} (hc : isInner c = true) (hcount : 0 < count)
    (hsettled : Settled (text ++ List.replicate count c))
    (hstep : step mode (.run c count) = ⟨false, .word text, []⟩) :
    ∃ next, Scans step mode [.run c count] next [] ∧
      Reading (text ++ List.replicate count c) next :=
  ⟨_, .of_declined_taken hstep (step_word_inner hc text count), .word (by simp; omega) hsettled⟩

theorem step_start_inner (hc : isInner c = true) (hquote : c ≠ '\'') (count : Nat) :
    step .start (.run c count) =
      if c = '#' ∧ count = 1 then ⟨true, .color ['#'], []⟩
      else if c = '-' ∧ count = 1 then ⟨true, .sign, []⟩
      else if c.isDigit then ⟨false, .number [], []⟩ else ⟨false, .word [], []⟩ := by
  have hne {d : Char} (hd : isInner d = false) : c ≠ d := by
    rintro rfl
    rw [hc] at hd
    cases hd
  have hline : c ≠ '\n' := hne (by decide)
  have hdot : c ≠ '.' := hne (by decide)
  have hsemicolon : c ≠ ';' := hne (by decide)
  simp only [isInner, Bool.not_eq_true', Bool.or_eq_false_iff] at hc
  simp only [step, stepStart, hline, hc.1.1, hdot, hsemicolon, hquote, hc.2, false_and, if_false,
    Bool.false_eq_true]
  rfl

/-- The first characters of a word. -/
theorem reads_first (hc : isInner c = true) (hquote : c ≠ '\'') (hcount : 0 < count) :
    ∃ next, Scans step .start [.run c count] next [] ∧ Reading (List.replicate count c) next := by
  obtain ⟨more, rfl⟩ : ∃ more, count = more + 1 := ⟨count - 1, by omega⟩
  have hstart := step_start_inner hc hquote (more + 1)
  have hplain (hsettled : Settled (List.replicate (more + 1) c))
      (hstep : step .start (.run c (more + 1)) = ⟨false, .word [], []⟩) :
      ∃ next, Scans step .start [.run c (more + 1)] next [] ∧
        Reading (List.replicate (more + 1) c) next :=
    reads_given_up [] hc hcount hsettled hstep
  by_cases hhash : c = '#'
  · subst hhash
    cases more with
    | zero => exact ⟨_, .of_taken hstart, .color (by simp)⟩
    | succ more => exact hplain (settled_hash [] (by decide) _) (by simpa using hstart)
  by_cases hminus : c = '-'
  · subst hminus
    cases more with
    | zero => exact ⟨_, .of_taken hstart, .sign⟩
    | succ more => exact hplain (settled_minus [] (by decide) _) (by simpa using hstart)
  simp only [hhash, hminus, false_and, if_false] at hstart
  by_cases hdigit : c.isDigit = true
  · rw [if_pos hdigit] at hstart
    exact ⟨_, .of_declined_taken hstart (step_number_digits hdigit [] _),
      .number (.inl (.replicate hdigit hcount))⟩
  · rw [if_neg hdigit] at hstart
    exact hplain (fun rest => wordKind_other _ (by simpa using hdigit) hminus hhash) hstart

section

variable (hc : isInner c = true) (hcount : 0 < count)

include hc hcount

theorem reads_sign : ∃ next, Scans step .sign [.run c count] next [] ∧
    Reading (['-'] ++ List.replicate count c) next := by
  by_cases hdigit : c.isDigit = true
  · have hleft : step .sign (.run c count) = ⟨false, .number ['-'], []⟩ := by
      simp only [step, stepSign, isDigits, hdigit, if_true]
      rfl
    exact ⟨_, .of_declined_taken hleft (step_number_digits hdigit ['-'] count),
      .number (.inr ⟨_, rfl, .replicate hdigit hcount⟩)⟩
  · have hleft : step .sign (.run c count) = ⟨false, .word ['-'], []⟩ := by
      simp only [step, stepSign, isDigits, hdigit, Bool.false_eq_true, if_false]
      rfl
    obtain ⟨more, rfl⟩ : ∃ more, count = more + 1 := ⟨count - 1, by omega⟩
    exact reads_given_up _ hc hcount (settled_minus [] (by simpa using hdigit) _) hleft

theorem reads_number {text : List Char} (hnumeral : IsNumeral text) :
    ∃ next, Scans step (.number text) [.run c count] next [] ∧
      Reading (text ++ List.replicate count c) next := by
  obtain ⟨more, rfl⟩ : ∃ more, count = more + 1 := ⟨count - 1, by omega⟩
  by_cases hdigit : c.isDigit = true
  · exact ⟨_, .of_taken (step_number_digits hdigit text _),
      .number (hnumeral.append (.replicate hdigit hcount))⟩
  rw [Bool.not_eq_true] at hdigit
  -- four digits and one minus sign are the only way on from here to something else than a word
  by_cases hyear : Token.run c (more + 1) = .run '-' 1 ∧ text.length = 4 ∧ text.head? ≠ some '-'
  · have htaken : step (.number text) (.run c (more + 1)) =
        ⟨true, .timestamp (text ++ ['-']) 0, []⟩ := by
      simp only [step, stepNumber, isDigits, hdigit, Bool.false_eq_true, if_false, if_pos hyear]
      rfl
    obtain ⟨hrun, hlength, hhead⟩ := hyear
    obtain ⟨rfl, rfl⟩ : c = '-' ∧ more = 0 := by simpa using hrun
    rcases hnumeral with hdigits | ⟨digits, rfl, -⟩
    · exact ⟨_, .of_taken htaken, .timestamp (by simp [hlength])
        (Timestamp.shape_year hdigits.2 hlength)⟩
    · exact absurd rfl hhead
  · have hdot : c ≠ '.' := by
      rintro rfl
      exact absurd hc (by decide)
    have hleft : step (.number text) (.run c (more + 1)) = ⟨false, .word text, []⟩ := by
      rw [step, stepNumber, if_neg (by simp [isDigits, hdigit]), if_neg hyear,
        if_neg (by simp [hdot]), if_pos (by simp [isDelimiter_inner hc])]
      rfl
    refine reads_given_up _ hc hcount ?_ hleft
    rcases hnumeral with hdigits | ⟨digits, rfl, -⟩
    · refine settled_hopeless (fun d hmem => ?_) ⟨c, by simp, hdigit⟩ (by_contra fun hshape => ?_)
      · rw [List.head?_append_of_ne_nil _ hdigits.1] at hmem
        exact hdigits.2 d (List.mem_of_mem_head? hmem)
      · obtain ⟨hlength, rfl, hnext⟩ := Timestamp.year_of_shape hdigits.2 hdigit hshape
        obtain rfl : more = 0 := by
          by_contra hmore
          simp [List.head?_replicate, hmore] at hnext
        exact hyear ⟨rfl, hlength, hdigits.head?_ne⟩
    · exact settled_minus digits hdigit _

theorem reads_timestamp {text : List Char} (whole : Nat) (hlength : 4 < text.length)
    (hshape : Timestamp.shape text ≠ .hopeless) :
    ∃ next, Scans step (.timestamp text whole) [.run c count] next [] ∧
      Reading (text ++ List.replicate count c) next := by
  have hextended : 4 < (text ++ List.replicate count c).length := by
    rw [List.length_append]
    omega
  cases hnext : Timestamp.shape (text ++ List.replicate count c) with
  | whole =>
    have htaken : step (.timestamp text whole) (.run c count) = ⟨true, .timestamp
        (text ++ List.replicate count c) (text ++ List.replicate count c).length, []⟩ := by
      simp only [step, stepTimestamp, Token.expand, hnext]
      rfl
    exact ⟨_, .of_taken htaken, .timestamp hextended (by simp [hnext])⟩
  | unfinished =>
    have htaken : step (.timestamp text whole) (.run c count) =
        ⟨true, .timestamp (text ++ List.replicate count c) whole, []⟩ := by
      simp only [step, stepTimestamp, Token.expand, hnext]
      rfl
    exact ⟨_, .of_taken htaken, .timestamp hextended (by simp [hnext])⟩
  | hopeless =>
    have hleft : step (.timestamp text whole) (.run c count) = ⟨false, .word text, []⟩ := by
      simp only [step, stepTimestamp, Token.expand, hnext, leaveTimestamp, isDelimiter_inner hc,
        Bool.false_and, Bool.false_eq_true, if_false]
      rfl
    refine reads_given_up _ hc hcount (settled_hopeless ?_ ?_ hnext) hleft
    · obtain ⟨first, rest, rfl⟩ := List.exists_cons_of_length_pos (Nat.zero_lt_of_lt hlength)
      simpa using Timestamp.isDigit_of_shape hshape
    · have hminus := Timestamp.minus_mem_of_shape hlength hshape
      exact ⟨'-', List.mem_append_left _ hminus, by decide⟩

theorem reads_color {digits : List Char} (hdigits : ∀ d ∈ digits, Text.isHexDigit d = true) :
    ∃ next, Scans step (.color ('#' :: digits)) [.run c count] next [] ∧
      Reading ('#' :: digits ++ List.replicate count c) next := by
  by_cases hdigit : Text.isHexDigit c = true
  · have htaken : step (.color ('#' :: digits)) (.run c count) =
        ⟨true, .color ('#' :: (digits ++ List.replicate count c)), []⟩ := by
      simp only [step, stepColor, isHexDigits, hdigit, if_true]
      rfl
    refine ⟨_, .of_taken htaken, .color (List.forall_mem_append.2 ⟨hdigits, fun d hmem => ?_⟩)⟩
    rw [List.eq_of_mem_replicate hmem]
    exact hdigit
  · have hleft : step (.color ('#' :: digits)) (.run c count) =
        ⟨false, .word ('#' :: digits), []⟩ := by
      simp only [step, stepColor, isHexDigits, hdigit, isDelimiter_inner hc, Bool.false_and,
        Bool.false_eq_true, if_false]
      rfl
    obtain ⟨more, rfl⟩ : ∃ more, count = more + 1 := ⟨count - 1, by omega⟩
    exact reads_given_up _ hc hcount (settled_hash digits (by simpa using hdigit) _) hleft

/-- Some more characters of a word. -/
theorem reads_run {text : List Char} {mode : Mode} (hreading : Reading text mode) :
    ∃ next, Scans step mode [.run c count] next [] ∧
      Reading (text ++ List.replicate count c) next := by
  cases hreading with
  | word hne hsettled =>
    exact ⟨_, .of_taken (step_word_inner hc text count), .word (by simp [hne]) (hsettled.append _)⟩
  | sign => exact reads_sign hc hcount
  | number hnumeral => exact reads_number hc hcount hnumeral
  | @timestamp _ whole hlength hshape => exact reads_timestamp hc hcount whole hlength hshape
  | color hdigits => exact reads_color hc hcount hdigits

end

end

/-- The characters of a word, from some point on. -/
theorem reads_runs {tokens : List Token}
    (htokens : ∀ token ∈ tokens, ∃ c count, token = .run c count ∧ 0 < count ∧ isInner c = true)
    {text : List Char} {mode : Mode} (hreading : Reading text mode) :
    ∃ next, Scans step mode tokens next [] ∧
      Reading (text ++ tokens.flatMap Token.expand) next := by
  induction tokens generalizing text mode with
  | nil => exact ⟨mode, .nil mode, by simpa using hreading⟩
  | cons token rest ih =>
    rw [List.forall_mem_cons] at htokens
    obtain ⟨⟨c, count, rfl, hcount, hc⟩, hrest⟩ := htokens
    obtain ⟨between, hfirst, hbetween⟩ := reads_run hc hcount hreading
    obtain ⟨next, hscans, hnext⟩ := ih hrest hbetween
    refine ⟨next, hfirst.append hscans, ?_⟩
    rw [List.flatMap_cons, ← List.append_assoc]
    exact hnext

/-- A word leads to what it looks like. -/
theorem reads_word (word : Lexeme) :
    ∃ mode, Scans step .start (runs word.chars) mode [] ∧ Reading word.chars mode := by
  have htokens : ∀ token ∈ runs word.chars,
      ∃ c count, token = .run c count ∧ 0 < count ∧ isInner c = true := by
    intro token hmem
    obtain ⟨c, count, hrun, hcount, hc⟩ := Token.exists_run_of_mem_runs hmem
    exact ⟨c, count, hrun, hcount, word.inner c hc⟩
  obtain ⟨c, chars, hchars⟩ := List.exists_cons_of_ne_nil word.ne_nil
  have hquote : c ≠ '\'' := by simpa [hchars] using word.unquoted
  have hexpand := Token.flatMap_expand_runs word.chars
  obtain ⟨more, rest, hruns⟩ := Token.runsFrom_eq_cons c 1 chars
  rw [hchars, runs, hruns] at htokens hexpand ⊢
  rw [List.forall_mem_cons] at htokens
  obtain ⟨⟨_, _, ⟨⟩, hcount, hc⟩, hrest⟩ := htokens
  obtain ⟨between, hfirst, hbetween⟩ := reads_first hc hquote hcount
  obtain ⟨mode, hscans, hmode⟩ := reads_runs hrest hbetween
  exact ⟨mode, hfirst.append hscans, hexpand ▸ hmode⟩

/-- A token that no timestamp goes on with ends it. -/
theorem step_timestamp_over {text : List Char} {whole : Nat} {token : Token}
    (hover : token = .endOfText ∨ Timestamp.shape (text ++ token.expand) = .hopeless) :
    step (.timestamp text whole) token = leaveTimestamp text whole token := by
  rcases hover with rfl | hover
  · rfl
  · simp only [step, stepTimestamp, hover]

/-- The token cannot belong to a word. -/
def Closes (token : Token) : Prop :=
  token = .endOfText ∨ ∃ c count, token = .run c count ∧ 0 < count ∧ Text.isBlank c = true

section

variable {token : Token} (hcloses : Closes token)

include hcloses

theorem Closes.isDelimiter : isDelimiter token = true := by
  rcases hcloses with rfl | ⟨c, count, rfl, -, hblank⟩
  · rfl
  · simp [Document.isDelimiter, hblank]

theorem Closes.ne_run {c : Char} (hc : Text.isBlank c = false) (count : Nat) :
    token ≠ .run c count := by
  rintro rfl
  rcases hcloses with hend | ⟨_, _, ⟨⟩, -, hblank⟩
  · cases hend
  · rw [hc] at hblank
    cases hblank

theorem Closes.isDigits : isDigits token = false := by
  cases token with
  | endOfText => rfl
  | run c count =>
    cases hc : c.isDigit with
    | true => exact absurd rfl (hcloses.ne_run (isBlank_of_isDigit hc) count)
    | false => exact hc

theorem Closes.isHexDigits : isHexDigits token = false := by
  cases token with
  | endOfText => rfl
  | run c count =>
    cases hc : Text.isHexDigit c with
    | true =>
      have hgraphic := Assembly.isBlank_of_isGraphic (Assembly.isGraphic_of_isHexDigit hc)
      exact absurd rfl (hcloses.ne_run hgraphic count)
    | false => exact hc

theorem Closes.step_word {text : List Char} (hne : text ≠ []) :
    step (.word text) token = ⟨false, .start, [symbol .text text]⟩ := by
  have hflush : flush text = [symbol .text text] := by simp [flush, hne]
  rw [step, stepWord]
  · rw [if_pos hcloses.isDelimiter, hflush]
    rfl
  · rintro count rfl
    exact hcloses.ne_run (by decide) count rfl

theorem Closes.step_number {text : List Char} (hnumeral : IsNumeral text) :
    step (.number text) token = ⟨false, .start, [symbol (wordKind text) text]⟩ := by
  have hkind : numberKind text = wordKind text := by
    rcases hnumeral with hdigits | ⟨digits, rfl, hdigits⟩
    · rw [numberKind, if_neg hdigits.head?_ne, wordKind, if_pos hdigits]
    · rw [wordKind_minus, if_pos hdigits]
      rfl
  have hdot : token.isRunOf '.' = false := by
    cases token with
    | endOfText => rfl
    | run c count =>
      refine beq_eq_false_iff_ne.2 ?_
      rintro rfl
      exact hcloses.ne_run (by decide) count rfl
  rw [step, stepNumber, if_neg (by simp [hcloses.isDigits]),
    if_neg fun hyear => hcloses.ne_run (by decide) 1 hyear.1,
    if_neg (hcloses.ne_run (by decide) 1), if_neg (by simp [hdot, hcloses.isDelimiter]), hkind]
  rfl

/-- No timestamp goes on with the token. -/
theorem Closes.shape_over (text : List Char) :
    token = .endOfText ∨ Timestamp.shape (text ++ token.expand) = .hopeless := by
  rcases hcloses with rfl | ⟨c, count, rfl, hcount, hblank⟩
  · exact .inl rfl
  · refine .inr (Timestamp.shape_append_foreign (fun hmember => ?_) hcount text)
    rw [isBlank_of_mem_timestamp hmember] at hblank
    cases hblank

/-- What looked like a timestamp is one or is a plain word. -/
theorem Closes.step_timestamp {text : List Char} (hdots : '.' ∉ text) (whole : Nat) :
    step (.timestamp text whole) token = if (Timestamp.readChars? text).isSome
      then ⟨false, .start, [symbol .timestamp text]⟩ else ⟨false, .word text, []⟩ := by
  -- without dots, nothing but the whole text can be the timestamp
  have hwhole (hrest : (text.drop whole).all (· == '.') = true) : text.take whole = text := by
    refine List.take_of_length_le (List.drop_eq_nil_iff.1 (List.eq_nil_iff_forall_not_mem.2 ?_))
    intro c hmem
    obtain rfl : c = '.' := by simpa using List.all_eq_true.1 hrest c hmem
    exact hdots (List.mem_of_mem_drop hmem)
  rw [step_timestamp_over (hcloses.shape_over text), leaveTimestamp, hcloses.isDelimiter]
  simp only [Bool.true_and]
  split
  · rfl
  · rename_i hread
    rw [if_neg]
    · rfl
    · simp only [Bool.and_eq_true]
      rintro ⟨⟨-, hrest⟩, hstamp⟩
      rw [hwhole hrest] at hstamp
      exact hread hstamp

theorem Closes.step_color (digits : List Char) :
    step (.color ('#' :: digits)) token = if IsColorCode digits
      then ⟨false, .start, [symbol .color ('#' :: digits)]⟩
      else ⟨false, .word ('#' :: digits), []⟩ := by
  rw [step, stepColor, if_neg (by simp [hcloses.isHexDigits]), hcloses.isDelimiter, Bool.true_and]
  simp only [isSome_readChars?_color]
  rfl

variable {tokens : List Token} {last : Mode} {items : List Item}
  (hrest : Scans step .start (token :: tokens) last items)

include hrest

/-- The end of a plain word. -/
theorem scans_plain_end {text : List Char} (hne : text ≠ []) (hkind : wordKind text = .text) :
    Scans step (.word text) (token :: tokens) last (symbol (wordKind text) text :: items) := by
  rw [hkind]
  exact .declined (hcloses.step_word hne) hrest

/-- A word is handed on when it ends, as what it looks like. -/
theorem scans_end {text : List Char} {mode : Mode} (hreading : Reading text mode)
    (hdots : '.' ∉ text) :
    Scans step mode (token :: tokens) last (symbol (wordKind text) text :: items) := by
  cases hreading with
  | word hne hsettled =>
    exact scans_plain_end hcloses hrest hne (by simpa using hsettled [])
  | sign =>
    have hleft : step .sign token = ⟨false, .word ['-'], []⟩ := by
      rw [step, stepSign, if_neg (by simp [hcloses.isDigits])]
      rfl
    exact .declined hleft (scans_plain_end hcloses hrest (by simp) rfl)
  | number hnumeral => exact .declined (hcloses.step_number hnumeral) hrest
  | @timestamp _ whole hlength hshape =>
    have hstep := hcloses.step_timestamp hdots whole
    have hkind : wordKind text =
        if (Timestamp.readChars? text).isSome then .timestamp else .text := by
      obtain ⟨c, rest, rfl⟩ := List.exists_cons_of_length_pos (Nat.zero_lt_of_lt hlength)
      refine wordKind_digit rest (Timestamp.isDigit_of_shape hshape) fun hdigits => ?_
      exact absurd (hdigits.2 '-' (Timestamp.minus_mem_of_shape hlength hshape)) (by decide)
    split at hstep
    · rename_i hread
      rw [hkind, if_pos hread]
      exact .declined hstep hrest
    · rename_i hread
      have hne : text ≠ [] := List.ne_nil_of_length_pos (Nat.zero_lt_of_lt hlength)
      rw [if_neg hread] at hkind
      exact .declined hstep (scans_plain_end hcloses hrest hne hkind)
  | @color digits _ =>
    have hstep := hcloses.step_color digits
    have hkind := wordKind_hash digits
    split at hstep
    · rename_i hcode
      rw [hkind, if_pos hcode]
      exact .declined hstep hrest
    · rename_i hcode
      rw [if_neg hcode] at hkind
      exact .declined hstep (scans_plain_end hcloses hrest (by simp) hkind)

/-- A word up to whatever closes it. -/
theorem scans_lexeme (word : Lexeme) :
    Scans step .start (runs word.chars ++ token :: tokens) last (.symbol word.symbol :: items) := by
  obtain ⟨mode, hword, hreading⟩ := reads_word word
  have hdots : '.' ∉ word.chars := fun hmem => absurd (word.inner '.' hmem) (by decide)
  exact hword.append (scans_end hcloses hrest hreading hdots)

end

end Mode

/-! ## Gaps -/

/-- Blanks between words. -/
structure Gap where
  chars : List Char
  blank : ∀ c ∈ chars, Text.isBlank c = true

namespace Gap

variable (gap : Gap)

/-- What a gap stands for: more than one line feed is a paragraph break. -/
def symbols : List Symbol := if 1 < gap.chars.count '\n' then [.newline] else []

/-- The gap as the scanners see it. -/
def normal : Gap :=
  ⟨dropReturns gap.chars, fun c hmem => gap.blank c (mem_of_mem_dropReturns hmem)⟩

theorem symbols_normal : gap.normal.symbols = gap.symbols := by
  rw [symbols, normal, count_dropReturns, symbols]

end Gap

namespace Mode

theorem step_breaks_blank (count : Nat) {token : Token} (htoken : token.isBlank = true) :
    step (.breaks count) token = ⟨true, .breaks (count + token.lineFeeds), []⟩ := by
  cases token with
  | endOfText => cases htoken
  | run c number =>
    by_cases hline : c = '\n'
    · simp [step, stepBreaks, Token.isRunOf, hline, accept]
    · simp [step, stepBreaks, Token.isRunOf, hline, htoken, accept, Token.lineFeeds]

section

variable {tokens : List Token} (hopens : Opens tokens) {last : Mode} {items : List Item}
  (hrest : Scans step .start tokens last items)

include hopens hrest

/-- The line feeds in blanks are counted, -/
theorem scans_breaks {blanks : List Token} (hblanks : ∀ token ∈ blanks, token.isBlank = true)
    (count : Nat) :
    Scans step (.breaks count) (blanks ++ tokens) last
      (breakItems (count + (blanks.flatMap Token.expand).count '\n') ++ items) := by
  induction blanks generalizing count with
  | nil =>
    obtain ⟨token, rest, rfl, htoken⟩ := hopens
    exact .declined (step_breaks_over count htoken) hrest
  | cons token blanks ih =>
    rw [List.forall_mem_cons] at hblanks
    have htaken := step_breaks_blank count hblanks.1
    have hscans := Scans.taken htaken (ih hblanks.2 (count + token.lineFeeds))
    rw [List.flatMap_cons, List.count_append, Token.count_expand, ← Nat.add_assoc]
    exact hscans

/-- from the first of them on. -/
theorem scans_blanks {blanks : List Token} (hblanks : ∀ token ∈ blanks, token.isBlank = true) :
    Scans step .start (blanks ++ tokens) last
      (breakItems ((blanks.flatMap Token.expand).count '\n') ++ items) := by
  induction blanks with
  | nil => exact hrest
  | cons token blanks ih =>
    rw [List.forall_mem_cons] at hblanks
    rw [List.flatMap_cons, List.count_append, Token.count_expand]
    cases token with
    | endOfText => cases hblanks.1
    | run c count =>
      by_cases hline : c = '\n'
      · subst hline
        have htaken : step .start (.run '\n' count) = ⟨true, .breaks count, []⟩ := rfl
        have hscans := Scans.taken htaken (scans_breaks hopens hrest hblanks.2 count)
        exact hscans
      · have hskip : step .start (.run c count) = ⟨true, .start, []⟩ := by
          rw [step, stepStart, if_neg hline, if_pos (show Text.isBlank c = true from hblanks.1)]
          rfl
        have hscans := Scans.taken hskip (ih hblanks.2)
        simpa [Token.lineFeeds, hline] using hscans

theorem scans_gap (gap : Gap) :
    Scans step .start (runs gap.chars ++ tokens) last (gap.symbols.map .symbol ++ items) := by
  have hblanks : ∀ token ∈ runs gap.chars, token.isBlank = true := by
    intro token hmem
    obtain ⟨c, count, rfl, -, hc⟩ := Token.exists_run_of_mem_runs hmem
    exact gap.blank c hc
  have hscans := scans_blanks hopens hrest hblanks
  rw [Token.flatMap_expand_runs] at hscans
  rw [Gap.symbols, apply_ite (List.map Item.symbol)]
  exact hscans

end

end Mode

/-! ## Words with gaps -/

/-- Words, each with the gap behind it. -/
def spaced (words : List (Lexeme × Gap)) : List Char :=
  words.flatMap fun word => word.1.chars ++ word.2.chars

/-- The symbols of words and of the gaps behind them. -/
def spacedSymbols (words : List (Lexeme × Gap)) : List Symbol :=
  words.flatMap fun word => word.1.symbol :: word.2.symbols

/-- There is a gap between any two words. -/
def Separated (words : List (Lexeme × Gap)) : Prop :=
  ∀ word ∈ words.dropLast, word.2.chars ≠ []

theorem Lexeme.exists_cons (word : Lexeme) :
    ∃ c rest, word.chars = c :: rest ∧ Text.isBlank c = false := by
  obtain ⟨c, rest, hchars⟩ := List.exists_cons_of_ne_nil word.ne_nil
  have hc := word.inner c (by simp [hchars])
  simp only [isInner, Bool.not_eq_true', Bool.or_eq_false_iff] at hc
  exact ⟨c, rest, hchars, hc.1.1⟩

/-- What follows a gap begins with a character that is not blank. -/
theorem isBlank_head_spaced (words : List (Lexeme × Gap)) :
    ∀ c ∈ (spaced words).head?, Text.isBlank c = false := by
  cases words with
  | nil => simp [spaced]
  | cons word words =>
    obtain ⟨c, rest, hchars, hc⟩ := word.1.exists_cons
    simpa [spaced, hchars] using hc

theorem Mode.opens_spaced (words : List (Lexeme × Gap)) :
    Opens (runs (spaced words) ++ [Token.endOfText]) := by
  have hhead := isBlank_head_spaced words
  cases hspaced : spaced words with
  | nil => exact ⟨.endOfText, [], rfl, rfl⟩
  | cons c text =>
    rw [hspaced] at hhead
    exact opens_runs (hhead c rfl) text _

/-- Words and gaps are cut into runs apart. -/
theorem runs_gap_append (gap : Gap) (words : List (Lexeme × Gap)) :
    runs (gap.chars ++ spaced words) = runs gap.chars ++ runs (spaced words) := by
  refine Token.runs_append_of_apart fun c hhead hlast => ?_
  have hblank := gap.blank c (List.mem_of_getLast? hlast)
  rw [isBlank_head_spaced words c hhead] at hblank
  cases hblank

theorem runs_spaced_cons (word : Lexeme) {gap : Gap} {words : List (Lexeme × Gap)}
    (hgap : gap.chars = [] → words = []) :
    runs (spaced ((word, gap) :: words)) =
      runs word.chars ++ (runs gap.chars ++ runs (spaced words)) := by
  have hinner : ∀ c ∈ (gap.chars ++ spaced words).head?, word.chars.getLast? ≠ some c := by
    intro c hhead hlast
    have hblank : Text.isBlank c = true := by
      cases hchars : gap.chars with
      | nil => simp [hchars, hgap hchars, spaced] at hhead
      | cons d rest =>
        obtain rfl : d = c := by simpa [hchars] using hhead
        exact gap.blank d (by simp [hchars])
    have hc := word.inner c (List.mem_of_getLast? hlast)
    simp [isInner, hblank] at hc
  rw [← runs_gap_append, ← Token.runs_append_of_apart hinner, spaced, List.flatMap_cons,
    List.append_assoc]
  rfl

theorem Separated.of_cons {word : Lexeme × Gap} {words : List (Lexeme × Gap)}
    (hwords : Separated (word :: words)) :
    (word.2.chars = [] → words = []) ∧ Separated words := by
  cases words with
  | nil => exact ⟨fun _ => rfl, by simp [Separated]⟩
  | cons next words =>
    rw [Separated, List.dropLast_cons_cons, List.forall_mem_cons] at hwords
    exact ⟨fun hnil => absurd hnil hwords.1, hwords.2⟩

namespace Mode

theorem closes_gap {gap : Gap} {words : List (Lexeme × Gap)} (hgap : gap.chars = [] → words = []) :
    ∃ token tokens, runs gap.chars ++ (runs (spaced words) ++ [Token.endOfText]) = token :: tokens ∧
      Closes token := by
  cases hchars : gap.chars with
  | nil =>
    rw [hgap hchars]
    exact ⟨.endOfText, [], rfl, .inl rfl⟩
  | cons c rest =>
    obtain ⟨more, tokens, hruns⟩ := Token.runsFrom_eq_cons c 1 rest
    refine ⟨.run c (1 + more), _, by rw [runs, hruns, List.cons_append], .inr ?_⟩
    exact ⟨c, 1 + more, rfl, by omega, gap.blank c (by simp [hchars])⟩

/-- Words with gaps between them are read one by one. -/
theorem scans_spaced {words : List (Lexeme × Gap)} (hwords : Separated words) :
    Scans step .start (runs (spaced words) ++ [Token.endOfText]) .start
      ((spacedSymbols words).map .symbol ++ [Item.symbol .endOfData]) := by
  induction words with
  | nil => exact .of_taken rfl
  | cons pair words ih =>
    obtain ⟨word, gap⟩ := pair
    obtain ⟨hnil, hrest⟩ := hwords.of_cons
    have hgap := scans_gap (opens_spaced words) (ih hrest) gap
    obtain ⟨token, tokens, htokens, hcloses⟩ := closes_gap hnil
    rw [htokens] at hgap
    have hscans := scans_lexeme hcloses hgap word
    rw [runs_spaced_cons word hnil, List.append_assoc, List.append_assoc, htokens]
    simpa [spacedSymbols] using hscans

end Mode

/-! ## Handing on -/

theorem startsParagraph_wordKind (word : List Char) : startsParagraph (wordKind word) = true := by
  unfold wordKind
  repeat' split
  all_goals rfl

theorem Lexeme.kind_ne_newline (word : Lexeme) : word.symbol.kind ≠ .newline := by
  intro hkind
  have hstarts : startsParagraph word.symbol.kind = true := startsParagraph_wordKind word.chars
  rw [hkind] at hstarts
  cases hstarts

namespace Scanner

/-- A word at the start of a document opens a paragraph. -/
theorem handOn_lexeme (scanner : Scanner) (word : Lexeme) :
    scanner.handOn (.symbol word.symbol) =
      ({ scanner with fresh := false, last := some word.symbol.kind },
        (if scanner.fresh then [.symbol .newline] else []) ++ [Item.symbol word.symbol]) := by
  have hstarts : startsParagraph word.symbol.kind = true := startsParagraph_wordKind word.chars
  simp [handOn, word.kind_ne_newline, hstarts]

theorem handOnAll_lexeme_of_fresh {scanner : Scanner} (hfresh : scanner.fresh = true)
    (word : Lexeme) (items : List Item) :
    (scanner.handOnAll (.symbol word.symbol :: items)).2 = Item.symbol .newline ::
      (({ scanner with fresh := false } : Scanner).handOnAll (.symbol word.symbol :: items)).2 := by
  simp [handOnAll, handOn_lexeme, hfresh]

/-- Behind a word, a gap is handed on as it is. -/
theorem handOnAll_gap {scanner : Scanner} (hfresh : scanner.fresh = false)
    (hlast : scanner.last ≠ some .newline) (gap : Gap) :
    (scanner.handOnAll (gap.symbols.map .symbol)).1.fresh = false ∧
      (scanner.handOnAll (gap.symbols.map .symbol)).2 = gap.symbols.map .symbol := by
  unfold Gap.symbols
  split
  · simp [handOnAll, handOn, hfresh, hlast]
  · exact ⟨hfresh, rfl⟩

/-- Behind the first symbol of a document, so are words with their gaps. -/
theorem handOnAll_spaced {scanner : Scanner} (hfresh : scanner.fresh = false)
    (words : List (Lexeme × Gap)) :
    (scanner.handOnAll ((spacedSymbols words).map .symbol ++ [Item.symbol .endOfData])).2 =
      (spacedSymbols words).map .symbol ++ [Item.symbol .endOfData] := by
  induction words generalizing scanner with
  | nil => simp [spacedSymbols, handOnAll, handOn, hfresh, Symbol.endOfData]
  | cons pair words ih =>
    obtain ⟨word, gap⟩ := pair
    have hsplit : (spacedSymbols ((word, gap) :: words)).map Item.symbol ++
        [Item.symbol .endOfData] = .symbol word.symbol :: (gap.symbols.map .symbol ++
          ((spacedSymbols words).map .symbol ++ [Item.symbol .endOfData])) := by
      simp [spacedSymbols]
    have hlast : some word.symbol.kind ≠ some .newline := by simpa using word.kind_ne_newline
    obtain ⟨hafter, hgap⟩ := @handOnAll_gap
      { scanner with fresh := false, last := some word.symbol.kind } rfl hlast gap
    have hrest := ih hafter
    generalize (spacedSymbols words).map Item.symbol ++ [Item.symbol .endOfData] = rest
      at hsplit hrest
    rw [hsplit, handOnAll, handOn_lexeme]
    simp only [handOnAll_append, hgap, hrest, hfresh, Bool.false_eq_true, if_false,
      List.nil_append, List.singleton_append]

/-- A document with words begins with a paragraph, whatever gap there is before them. -/
theorem handOnAll_initial_spaced (leading : Gap) (words : List (Lexeme × Gap)) :
    (initial.handOnAll (leading.symbols.map .symbol ++
      ((spacedSymbols words).map .symbol ++ [Item.symbol .endOfData]))).2 =
      ((if words.isEmpty then leading.symbols else [.newline]) ++ spacedSymbols words ++
        [Symbol.endOfData]).map .symbol := by
  unfold Gap.symbols
  split
  · -- the break is handed on, and the first word adds none
    have hbreak : initial.handOn (.symbol .newline) =
      (⟨.start, false, some .newline⟩, [.symbol .newline]) := rfl
    rw [List.map_singleton, List.singleton_append, handOnAll, hbreak]
    simp only [handOnAll_spaced]
    simp
  · rw [List.map_nil, List.nil_append]
    cases words with
    | nil => rfl
    | cons pair words =>
      obtain ⟨word, gap⟩ := pair
      have hspaced := @handOnAll_spaced { initial with fresh := false } rfl ((word, gap) :: words)
      have hopening (items : List Item) := @handOnAll_lexeme_of_fresh initial rfl word items
      simp only [spacedSymbols, List.flatMap_cons, List.cons_append, List.map_cons] at hspaced ⊢
      rw [hopening, hspaced]
      simp

end Scanner

/-! ## Documents -/

/-- The words as the scanners see them. -/
def normalWords (words : List (Lexeme × Gap)) : List (Lexeme × Gap) :=
  words.map fun word => (word.1, word.2.normal)

theorem spacedSymbols_normalWords (words : List (Lexeme × Gap)) :
    spacedSymbols (normalWords words) = spacedSymbols words := by
  simp [spacedSymbols, normalWords, List.flatMap_map, Gap.symbols_normal]

theorem Separated.normalWords {words : List (Lexeme × Gap)} (hwords : Separated words) :
    Separated (normalWords words) := by
  rw [Separated, Document.normalWords, ← List.map_dropLast, List.forall_mem_map]
  exact fun word hmem => dropReturns_ne_nil (hwords word hmem)

theorem dropReturns_gap_append (gap : Gap) (words : List (Lexeme × Gap)) :
    dropReturns (gap.chars ++ spaced words) = gap.normal.chars ++ dropReturns (spaced words) := by
  refine dropReturns_append fun c hhead => ?_
  have hblank := isBlank_head_spaced words c hhead
  constructor <;> rintro rfl <;> exact absurd hblank (by decide)

theorem dropReturns_spaced (words : List (Lexeme × Gap)) :
    dropReturns (spaced words) = spaced (normalWords words) := by
  induction words with
  | nil => rfl
  | cons pair words ih =>
    obtain ⟨word, gap⟩ := pair
    have hreturn : '\r' ∉ word.chars := fun hmem => absurd (word.inner '\r' hmem) (by decide)
    calc dropReturns (spaced ((word, gap) :: words))
        = dropReturns (word.chars ++ (gap.chars ++ spaced words)) := by
          rw [spaced, List.flatMap_cons, List.append_assoc]
          rfl
      _ = word.chars ++ (gap.normal.chars ++ spaced (normalWords words)) := by
          rw [dropReturns_append_left hreturn, dropReturns_gap_append, ih]
      _ = spaced (normalWords ((word, gap) :: words)) := by
          simp [spaced, normalWords]

/-- Words with blanks between them are lexed into one symbol each, of the kind that the word
has.  A paragraph begins with the first word and at every gap with more than one line feed. -/
theorem lex_spaced_words (leading : Gap) {words : List (Lexeme × Gap)} (hwords : Separated words) :
    ∃ items, lex (String.ofList (leading.chars ++ spaced words)) = .ok items ∧
      unmarked items = ((if words.isEmpty then leading.symbols else [.newline]) ++
        spacedSymbols words ++ [Symbol.endOfData]).map .symbol := by
  obtain ⟨items, raw, hlex, hmarked, hraw⟩ :=
    lex_eq_handOnAll (show Scanner.initial.mode = .start from rfl)
      (String.ofList (leading.chars ++ spaced words))
  refine ⟨items, hlex, ?_⟩
  rw [hmarked.unmarked_eq, unmarked_handOnAll hraw]
  have hscans := Mode.scans_gap (Mode.opens_spaced (normalWords words))
    (Mode.scans_spaced hwords.normalWords) leading.normal
  have htext : runs (dropReturns (String.ofList (leading.chars ++ spaced words)).toList) =
      runs leading.normal.chars ++ runs (spaced (normalWords words)) := by
    rw [String.toList_ofList, dropReturns_gap_append, dropReturns_spaced, runs_gap_append]
  rw [htext, List.append_assoc] at hraw
  obtain ⟨-, rfl⟩ := hraw.unique hscans
  rw [leading.symbols_normal, spacedSymbols_normalWords, Scanner.handOnAll_initial_spaced]

/-- A date, a word that begins like one, a number with a sign, a color and one that is none. -/
def sampleWords : List (Lexeme × Gap) :=
  [(⟨"2024-02-29".toList, by decide, List.all_eq_true.1 rfl, by decide⟩,
      ⟨" \r\n\t\r\n".toList, List.all_eq_true.1 rfl⟩),
    (⟨"2023-02-29".toList, by decide, List.all_eq_true.1 rfl, by decide⟩,
      ⟨"\n ".toList, List.all_eq_true.1 rfl⟩),
    (⟨"-7".toList, by decide, List.all_eq_true.1 rfl, by decide⟩,
      ⟨" ".toList, List.all_eq_true.1 rfl⟩),
    (⟨"#ff00aa".toList, by decide, List.all_eq_true.1 rfl, by decide⟩,
      ⟨"\t".toList, List.all_eq_true.1 rfl⟩),
    (⟨"#ff00a'".toList, by decide, List.all_eq_true.1 rfl, by decide⟩,
      ⟨"\n\n".toList, List.all_eq_true.1 rfl⟩)]

theorem lex_sampleWords : Separated sampleWords ∧
    ∃ items, lex "\n2024-02-29 \r\n\t\r\n2023-02-29\n -7 #ff00aa\t#ff00a'\n\n" = .ok items ∧
      unmarked items = [.symbol .newline, .symbol ⟨.timestamp, "2024-02-29"⟩, .symbol .newline,
        .symbol ⟨.text, "2023-02-29"⟩, .symbol ⟨.signed, "-7"⟩, .symbol ⟨.color, "#ff00aa"⟩,
        .symbol ⟨.text, "#ff00a'"⟩, .symbol .newline, .symbol .endOfData] := by
  have hwords : Separated sampleWords := by
    simp [Separated, sampleWords]
  have htext : "\n2024-02-29 \r\n\t\r\n2023-02-29\n -7 #ff00aa\t#ff00a'\n\n" =
    String.ofList ("\n".toList ++ spaced sampleWords) := by decide +kernel
  obtain ⟨items, hlex, hitems⟩ := lex_spaced_words ⟨"\n".toList, List.all_eq_true.1 rfl⟩ hwords
  refine ⟨hwords, items, htext ▸ hlex, hitems.trans ?_⟩
  decide +kernel

end Docpress.Document
