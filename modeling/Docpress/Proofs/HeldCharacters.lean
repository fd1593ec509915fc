import Docpress.Proofs.AssemblyLexemes

/-!
# Characters that the scanner holds

What the scanner of assembly text is in the middle of may turn out to be something else: a number,
a timestamp or a color that breaks off goes on as a word.  `Mode.held` are the characters that are
then part of the word.  A mode never holds more than what was read, and if it holds all of it,
nothing was handed on and there was no gap between the characters (`Mode.held_of_text`).
-/

namespace Docpress.Assembly.Mode

/-! ## Definitions -/

/-- The characters that the mode may yet make a label of. -/
def held : Mode → List Char
  | word text => text
  | number (.suffix suffix) text => text ++ suffix
  | number _ text => text
  | timestamp text => '@' :: text
  | color text => text
  | _ => []

/-- Whether the mode keeps what it reads apart from words. -/
def setsAside : Mode → Bool
  | comment | directive _ | string _ _ | escape _ _ => true
  | _ => false

/-- What is known of a mode when the token is offered to it: colors have characters, and numbers
have them too or get the first ones. -/
def Begun (token : Token) : Mode → Prop
  | number part text =>
    text ≠ [] ∨ part = .whole ∧ ∃ c count, token = .run c count ∧ c.isDigit = true
  | color text => text ≠ []
  | _ => True

/-- The mode holds nothing. -/
def Idle (mode : Mode) : Prop := mode.held = [] ∧ ∀ token, Begun token mode

theorem idle_start : Idle .start := ⟨rfl, fun _ => trivial⟩

theorem idle_of_setsAside {mode : Mode} (haside : mode.setsAside = true) : Idle mode := by
  cases mode with
  | comment | directive | string | escape => exact ⟨rfl, fun _ => trivial⟩
  | start | word | number | timestamp | color => cases haside

/-- The characters that the answer takes. -/
def gained (token : Token) (answer : Scan Mode) : List Char :=
  if answer.taken then token.expand else []

/-- The answer adds what it takes to what the mode holds and hands on nothing, or characters are
lost. -/
inductive Holds (mode : Mode) (token : Token) (answer : Scan Mode) : Prop where
  | all (hbegun : answer.Keeps Begun token) (hkept : answer.next.setsAside = false)
      (hitems : answer.items = []) (hheld : answer.next.held = mode.held ++ gained token answer)
      (hgaps : ∀ c ∈ gained token answer, isGap c = false)
  | fewer (hbegun : answer.Keeps Begun token)
      (hheld : answer.next.held.length < mode.held.length + (gained token answer).length)

/-! ## Answers -/

section

variable {mode next : Mode} {token : Token} {c : Char} {count : Nat}

theorem Holds.accept (hheld : next.held = mode.held ++ List.replicate count c)
    (hbegun : ∀ other, Begun other next) (hkept : next.setsAside = false)
    (hc : isGap c = false) : Holds mode (.run c count) (accept next []) := by
  refine .all hbegun hkept rfl hheld fun d hmem => ?_
  rw [List.eq_of_mem_replicate hmem]
  exact hc

theorem Holds.decline (hheld : next.held = mode.held) (hbegun : Begun token next)
    (hkept : next.setsAside = false) : Holds mode token (decline next []) :=
  .all hbegun hkept rfl (hheld.trans (List.append_nil _).symm) (by simp [gained, Mode.decline])

/-- The run is taken but not held. -/
theorem Holds.drop (hnext : Idle next) (hcount : 0 < count) (items : List Item) :
    Holds mode (.run c count) (Mode.accept next items) := by
  refine .fewer hnext.2 ?_
  have hgained : gained (.run c count) (Mode.accept next items) = List.replicate count c := rfl
  rw [hgained, List.length_replicate]
  show next.held.length < _
  rw [hnext.1]
  exact Nat.lt_of_lt_of_le hcount (Nat.le_add_left _ _)

/-- What was held is handed on. -/
theorem Holds.leave (hheld : mode.held ≠ []) (items : List Item) :
    Holds mode token (Mode.decline .start items) :=
  .fewer trivial (List.length_pos_of_ne_nil hheld)

theorem holds_stepStart (hcount : 0 < count) :
    Holds .start (.run c count) (stepStart (.run c count)) := by
  unfold stepStart
  -- line breaks, blanks, comments, directives
  iterate 2 refine iteInduction (fun _ => .drop idle_start hcount _) fun _ => ?_
  iterate 2 refine iteInduction (fun _ => .drop (idle_of_setsAside rfl) hcount _) fun _ => ?_
  -- timestamps, colors, signs
  refine iteInduction (fun h => ?_) fun _ => iteInduction (fun h => ?_) fun _ =>
    iteInduction (fun h => ?_) fun _ => ?_
  · obtain ⟨rfl, rfl⟩ := h
    exact .accept rfl (fun _ => trivial) rfl rfl
  · obtain ⟨rfl, rfl⟩ := h
    exact .accept rfl (fun _ => by simp [Begun]) rfl rfl
  · obtain ⟨rfl | rfl, rfl⟩ := h
    · exact .accept rfl (fun _ => by simp [Begun]) rfl rfl
    · exact .accept rfl (fun _ => by simp [Begun]) rfl rfl
  -- strings and literals
  refine iteInduction (fun _ => .drop ?_ hcount _) fun _ => ?_
  · exact iteInduction (fun _ => idle_of_setsAside rfl) fun _ => idle_start
  refine iteInduction (fun _ => .drop (idle_of_setsAside rfl) hcount _) fun _ => ?_
  -- numbers, words, punctuation
  refine iteInduction (fun hdigit => .decline rfl ?_ rfl) fun _ => ?_
  · exact .inr ⟨rfl, c, count, rfl, hdigit⟩
  refine iteInduction (fun _ => .decline rfl trivial rfl) fun _ => ?_
  exact .drop idle_start hcount _

theorem holds_stepWord (text : List Char) (hcount : 0 < count) :
    Holds (.word text) (.run c count) (stepWord text (.run c count)) := by
  unfold stepWord
  refine iteInduction (fun hword => .accept rfl (fun _ => trivial) rfl ?_) fun _ => ?_
  · exact isGap_eq_false isWordChar hword (by decide)
  refine iteInduction (fun hempty => .decline (List.isEmpty_iff.1 hempty).symm trivial rfl)
    fun hempty => ?_
  refine iteInduction (fun _ => .drop idle_start hcount _) fun _ => ?_
  exact .leave (by simpa [held] using hempty) _

theorem holds_leaveNumber {part : NumberPart} {text suffix : List Char} (htext : text ≠ [])
    (hheld : (number part text).held = text ++ suffix) :
    Holds (.number part text) token (leaveNumber text suffix token) := by
  refine iteInduction (fun _ => .leave ?_ _) fun _ => .decline hheld.symm trivial rfl
  rw [hheld]
  simp [htext]

theorem held_digits {part : NumberPart} (hpart : part.IsDigits) (text : List Char) :
    (number part text).held = text := by
  cases part with
  | suffix => exact hpart.elim
  | _ => rfl

theorem holds_stepDigits {part : NumberPart} (hpart : part.IsDigits) (text : List Char)
    (hbegun : Begun (.run c count) (.number part text)) (hcount : 0 < count) :
    Holds (.number part text) (.run c count) (stepDigits part text c count) := by
  have hheld := held_digits hpart text
  unfold stepDigits
  refine iteInduction (fun hdigit => ?_) fun hdigit => ?_
  · refine .accept ?_ (fun _ => .inl ?_) rfl (isGap_eq_false Char.isDigit hdigit (by decide))
    · rw [hheld]
      exact held_digits hpart _
    · simp [Token.expand, Nat.ne_of_gt hcount]
  have htext : text ≠ [] := by
    rcases hbegun with htext | ⟨-, d, more, htoken, hdigit'⟩
    · exact htext
    · cases htoken
      exact absurd hdigit' hdigit
  refine iteInduction (fun h => ?_) fun _ => iteInduction (fun h => ?_) fun _ =>
    iteInduction (fun h => ?_) fun _ => ?_
  · obtain ⟨rfl, rfl, -⟩ := h
    exact .accept (by rw [hheld]; rfl) (fun _ => .inl (by simp)) rfl rfl
  · obtain ⟨rfl, hc, -⟩ := h
    refine .accept (by rw [hheld]; rfl) (fun _ => .inl (by simp)) rfl ?_
    rcases hc with rfl | rfl <;> rfl
  · obtain ⟨rfl, hc⟩ := h
    refine .accept (by rw [hheld]; rfl) (fun _ => .inl htext) rfl ?_
    rcases hc with rfl | rfl | rfl <;> rfl
  · exact holds_leaveNumber htext (by rw [hheld, List.append_nil])

theorem holds_stepNumber (part : NumberPart) (text : List Char)
    (hbegun : Begun (.run c count) (.number part text)) (hcount : 0 < count) :
    Holds (.number part text) (.run c count) (stepNumber part text (.run c count)) := by
  by_cases hpart : part.IsDigits
  · have hstep : stepNumber part text (.run c count) = stepDigits part text c count := by
      cases part with
      | whole | fraction | exponent => rfl
      | sign | exponentMark | exponentSign | suffix => exact hpart.elim
    rw [hstep]
    exact holds_stepDigits hpart text hbegun hcount
  -- elsewhere there are characters before the token
  have htext : text ≠ [] := by
    rcases hbegun with htext | ⟨rfl, -⟩
    · exact htext
    · exact absurd trivial hpart
  cases part with
  | whole | fraction | exponent => exact absurd trivial hpart
  | sign =>
    refine iteInduction (fun _ => .decline rfl (.inl htext) rfl) fun _ => ?_
    exact .leave (by exact htext) _
  | exponentMark =>
    refine iteInduction (fun hdigit => ?_) fun _ => iteInduction (fun h => ?_) fun _ =>
      .decline rfl trivial rfl
    · exact .accept rfl (fun _ => .inl (by simp [htext])) rfl
        (isGap_eq_false Char.isDigit hdigit (by decide))
    · obtain ⟨rfl, hc⟩ := h
      refine .accept rfl (fun _ => .inl (by simp)) rfl ?_
      rcases hc with rfl | rfl <;> rfl
  | exponentSign =>
    refine iteInduction (fun hdigit => ?_) fun _ => .decline rfl trivial rfl
    exact .accept rfl (fun _ => .inl (by simp [htext])) rfl
      (isGap_eq_false Char.isDigit hdigit (by decide))
  | suffix suffix =>
    refine iteInduction (fun hletter => ?_) fun _ => holds_leaveNumber htext rfl
    exact .accept (List.append_assoc ..).symm (fun _ => .inl htext) rfl
      (isGap_eq_false Char.isAlphanum hletter (by decide))

theorem holds_stepTimestamp (text : List Char) (hcount : 0 < count) :
    Holds (.timestamp text) (.run c count) (stepTimestamp text (.run c count)) := by
  unfold stepTimestamp
  refine iteInduction (fun h => .accept rfl (fun _ => trivial) rfl ?_) fun _ => ?_
  · have hmem : c ∈ text ++ Token.expand (.run c count) :=
      List.mem_append_right _ (List.mem_replicate.2 ⟨Nat.ne_of_gt hcount, rfl⟩)
    exact isGap_eq_false (fun d => d.isDigit || ['-', 'T', ':', '.', 'Z'].contains d)
      (by simpa using Timestamp.mem_of_shape h.2 hmem) (by decide)
  · exact iteInduction (fun _ => .leave (by simp [held]) _) fun _ => .decline rfl trivial rfl

theorem holds_stepColor {text : List Char} (htext : text ≠ []) :
    Holds (.color text) (.run c count) (stepColor text (.run c count)) := by
  unfold stepColor
  refine iteInduction (fun hhex => .accept rfl (fun _ => by simp [Begun, htext]) rfl ?_) fun _ => ?_
  · exact isGap_eq_false Text.isHexDigit hhex (by decide)
  · exact iteInduction (fun _ => .leave (by exact htext) _) fun _ => .decline rfl trivial rfl

/-- What a mode that may hold all that was read makes of a run. -/
theorem holds_step (hkept : mode.setsAside = false) (hbegun : Begun (.run c count) mode)
    (hcount : 0 < count) : Holds mode (.run c count) (step mode (.run c count)) := by
  cases mode with
  | start => exact holds_stepStart hcount
  | word text => exact holds_stepWord text hcount
  | number part text => exact holds_stepNumber part text hbegun hcount
  | timestamp text => exact holds_stepTimestamp text hcount
  | color text => exact holds_stepColor hbegun
  | comment | directive | string | escape => cases hkept

end

/-! ### Modes that keep what they read apart -/

theorem next_ite {condition : Prop} [Decidable condition] {P : Mode → Prop}
    {first second : Scan Mode} (hfirst : P first.next) (hsecond : P second.next) :
    P (if condition then first else second).next := by
  split
  · exact hfirst
  · exact hsecond

theorem idle_stepStart_quote (tagged : Bool) (count : Nat) :
    Idle (stepStart (.run (quoteMark tagged) count)).next := by
  cases tagged with
  | false => exact iteInduction (fun _ => idle_of_setsAside rfl) fun _ => idle_start
  | true =>
    show Idle (stepStart (.run '\'' count)).next
    by_cases hone : count = 1
    · subst hone
      exact idle_of_setsAside rfl
    · have hblank : Text.isBlank '\'' = false := by decide
      have hword : isWordChar '\'' = false := by decide
      have hquote : stepStart (.run '\'' count) =
          accept .start (List.replicate count (.symbol (.punct '\''))) := by
        simp [stepStart, hone, hblank, hword]
      rw [hquote]
      exact idle_start

theorem idle_stepString (tagged : Bool) (text : List Char) (token : Token) :
    Idle (stepString tagged text token).next := by
  cases token with
  | endOfText => exact idle_start
  | run c count =>
    simp only [stepString]
    refine next_ite idle_start ?_
    split
    · rename_i hquote
      subst hquote
      exact next_ite (idle_stepStart_quote tagged _) idle_start
    · refine next_ite (iteInduction (fun _ => ?_) fun _ => ?_) ?_
      all_goals exact idle_of_setsAside rfl

theorem idle_stepEscape (tagged : Bool) (text : List Char) (token : Token) :
    Idle (stepEscape tagged text token).next := by
  cases token with
  | endOfText => exact ⟨rfl, fun _ => trivial⟩
  | run c count =>
    simp only [stepEscape]
    split
    · exact ⟨rfl, fun _ => trivial⟩
    · exact next_ite (idle_stepString tagged _ _) (idle_of_setsAside rfl)

/-- A mode that keeps what it reads apart is left without characters. -/
theorem idle_step {mode : Mode} (haside : mode.setsAside = true) (token : Token) :
    Idle (step mode token).next := by
  cases mode with
  | comment => exact next_ite idle_start (idle_of_setsAside rfl)
  | directive name => exact next_ite (idle_of_setsAside rfl) (next_ite idle_start idle_start)
  | string tagged text => exact idle_stepString tagged text token
  | escape tagged text => exact idle_stepEscape tagged text token
  | start | word | number | timestamp | color => cases haside

/-! ## Runs of the scanner -/

/-- From a mode that holds some characters, with `more` read, to one that holds no more than all of
them.  If it holds all of them, nothing was handed on. -/
structure Carries (mode : Mode) (more : List Char) (last : Mode) (items : List Item) : Prop where
  length_le : last.held.length ≤ mode.held.length + more.length
  all : mode.setsAside = false → last.held.length = mode.held.length + more.length →
    last.setsAside = false ∧ items = [] ∧ last.held = mode.held ++ more ∧
      ∀ c ∈ more, isGap c = false

section

variable {mode between last : Mode} {first second : List Char} {items more : List Item}

theorem Carries.refl (mode : Mode) : Carries mode [] mode [] :=
  ⟨Nat.le_refl _, fun hkept _ => ⟨hkept, rfl, (List.append_nil _).symm, by simp⟩⟩

theorem Carries.trans (hfirst : Carries mode first between items)
    (hsecond : Carries between second last more) :
    Carries mode (first ++ second) last (items ++ more) := by
  have hle := hfirst.length_le
  have hle' := hsecond.length_le
  refine ⟨by rw [List.length_append]; omega, fun hkept hlength => ?_⟩
  rw [List.length_append] at hlength
  obtain ⟨hbetween, rfl, hheld, hgaps⟩ := hfirst.all hkept (by omega)
  obtain ⟨hlast, rfl, hheld', hgaps'⟩ := hsecond.all hbetween (by omega)
  refine ⟨hlast, rfl, ?_, List.forall_mem_append.2 ⟨hgaps, hgaps'⟩⟩
  rw [hheld', hheld, List.append_assoc]

theorem Holds.carries {token : Token} {answer : Scan Mode} (hholds : Holds mode token answer) :
    Carries mode (gained token answer) answer.next answer.items := by
  cases hholds with
  | all _ hkept hitems hheld hgaps =>
    have hlength : answer.next.held.length ≤ _ := Nat.le_of_eq (by rw [hheld, List.length_append])
    exact ⟨hlength, fun _ _ => ⟨hkept, hitems, hheld, hgaps⟩⟩
  | fewer _ hheld =>
    exact ⟨Nat.le_of_lt hheld, fun _ hlength => absurd hlength (Nat.ne_of_lt hheld)⟩

theorem carries_step {c : Char} {count : Nat} (hcount : 0 < count)
    (hbegun : Begun (.run c count) mode) :
    (step mode (.run c count)).Keeps Begun (.run c count) ∧
      Carries mode (gained (.run c count) (step mode (.run c count)))
        (step mode (.run c count)).next (step mode (.run c count)).items := by
  cases haside : mode.setsAside with
  | true =>
    obtain ⟨hheld, hnext⟩ := idle_step haside (.run c count)
    refine ⟨?_, by simp [hheld], fun hkept => by simp [haside] at hkept⟩
    unfold Scan.Keeps
    split
    · exact hnext
    · exact hnext _
  | false =>
    have hholds := holds_step haside hbegun hcount
    refine ⟨?_, hholds.carries⟩
    cases hholds with
    | all hbegun => exact hbegun
    | fewer hbegun => exact hbegun

/-- No mode holds more than what was read. -/
theorem carries_of_scans {tokens : List Token} (hscans : Scans step mode tokens last items)
    (htokens : ∀ token ∈ tokens, ∃ c count, 0 < count ∧ token = .run c count)
    (hmode : ∀ other, Begun other mode) :
    Carries mode (tokens.flatMap Token.expand) last items ∧ ∀ other, Begun other last := by
  -- a declined token is known to be the next one
  have hfirst : ∀ other, tokens.head? = some other ∨ tokens = [] → Begun other mode :=
    fun other _ => hmode other
  clear hmode
  induction hscans with
  | nil state => exact ⟨.refl state, fun other => hfirst other (.inr rfl)⟩
  | @taken state next last token rest items more hscan _ ih =>
    rw [List.forall_mem_cons] at htokens
    obtain ⟨c, count, hcount, rfl⟩ := htokens.1
    obtain ⟨hkeeps, hcarries⟩ := carries_step hcount (hfirst _ (.inl rfl))
    rw [hscan] at hkeeps hcarries
    obtain ⟨hrest, hlast⟩ := ih htokens.2 fun other _ => hkeeps other
    exact ⟨hcarries.trans hrest, hlast⟩
  | @declined state next last token rest items more hscan _ ih =>
    obtain ⟨c, count, hcount, rfl⟩ := htokens token List.mem_cons_self
    obtain ⟨hkeeps, hcarries⟩ := carries_step hcount (hfirst _ (.inl rfl))
    rw [hscan] at hkeeps hcarries
    have hnext : ∀ other, (Token.run c count :: rest).head? = some other ∨
        Token.run c count :: rest = [] → Begun other next := by
      rintro other (hhead | hnil)
      · cases hhead
        exact hkeeps
      · cases hnil
    obtain ⟨hrest, hlast⟩ := ih htokens hnext
    exact ⟨hcarries.trans hrest, hlast⟩

theorem held_of_text {text : List Char}
    (hscans : Scans step .start (Token.runs text) last items) :
    last.held.length ≤ text.length ∧ (last.held.length = text.length →
      items = [] ∧ last.held = text ∧ ∀ c ∈ text, isGap c = false) := by
  obtain ⟨hcarries, -⟩ := carries_of_scans hscans
    (fun _ hmem => Token.exists_of_mem_runs hmem) fun _ => trivial
  rw [Token.flatMap_expand_runs] at hcarries
  have hzero : (start.held).length + text.length = text.length := Nat.zero_add _
  refine ⟨Nat.le_trans hcarries.length_le (Nat.le_of_eq hzero), fun hlength => ?_⟩
  exact (hcarries.all rfl (hlength.trans hzero.symm)).2

end

end Docpress.Assembly.Mode
