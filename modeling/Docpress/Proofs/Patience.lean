import Docpress.Assembly.Scanner
import Docpress.Document.Scanner
import Docpress.Proofs.Scanning
import Mathlib.Tactic.SplitIfs

/-!
# Patience of the two scanners

A scanner that declines a token has gone over to a mode that is nearer to taking it.  The rank
of a mode at a token bounds how often the token is still declined; it is at most 3, so that
four offers are always enough and every text of either language can be lexed.

Between words a scanner declines only what the next mode takes at once: a digit when it goes
over to numbers, a character of a word when it goes over to words.
-/

namespace Docpress

/-! ## Documents -/

namespace Document.Mode

/-- How often a token may still be declined from the mode on. -/
def rank (mode : Mode) (token : Token) : Nat :=
  match mode with
  | .start => 1
  | .word _ => if isDelimiter token then 2 else 0
  | .number _ => if isDigits token then 0 else 3
  | .breaks _ | .comment | .dot | .inclusion | .path _ => 2
  | _ => 3

theorem rank_le (mode : Mode) (token : Token) : mode.rank token ≤ 3 := by
  cases mode <;> simp only [rank] <;> (try split) <;> omega

theorem rank_word_lt (text : List Char) (token : Token) : rank (.word text) token < 3 := by
  simp only [rank]
  split <;> omega

theorem rank_dots_lt (text : List Char) (count : Nat) (token : Token) :
    rank (dots text count).1 token < 3 := by
  unfold dots
  split
  · exact Nat.lt_succ_self 2
  · exact rank_word_lt _ token

/-- If the answer declines the token, the next mode has a rank below the bound. -/
def Nears (token : Token) (bound : Nat) (answer : Scan Mode) : Prop :=
  answer.taken = false → answer.next.rank token < bound

@[simp] theorem nears_accept (token : Token) (bound : Nat) (next : Mode) (items : List Item) :
    Nears token bound (accept next items) := by
  intro hdeclined
  cases hdeclined

@[simp] theorem nears_decline {token : Token} {bound : Nat} {next : Mode} {items : List Item} :
    Nears token bound (decline next items) ↔ next.rank token < bound :=
  ⟨fun hnears => hnears rfl, fun hrank _ => hrank⟩

/-- Between words only digits and characters of words are declined. -/
theorem nears_stepStart (token : Token) : Nears token 1 (stepStart token) := by
  cases token with
  | endOfText => exact nears_accept _ _ _ _
  | run c count =>
    unfold stepStart
    refine iteInduction (fun _ => nears_accept _ _ _ _) fun _ => ?_
    refine iteInduction (fun _ => nears_accept _ _ _ _) fun hblank => ?_
    refine iteInduction (fun _ => nears_accept _ _ _ _) fun hdot => ?_
    -- comments, literals, colors, signs
    iterate 4 refine iteInduction (fun _ => nears_accept _ _ _ _) fun _ => ?_
    refine iteInduction (fun hdigit => ?_) fun _ =>
      iteInduction (fun _ => nears_accept _ _ _ _) fun hpunct => ?_
    · simp [rank, isDigits, hdigit]
    · have hdelimiter : isDelimiter (.run c count) = false := by
        simp only [isDelimiter, hblank, hpunct, Bool.or_eq_false_iff, beq_eq_false_iff_ne]
        exact ⟨⟨trivial, hdot⟩, trivial⟩
      simp [rank, hdelimiter]

theorem nears_stepBreaks (count : Nat) (token : Token) : Nears token 2 (stepBreaks count token) := by
  unfold stepBreaks
  split_ifs <;> simp [rank]

theorem nears_stepComment (token : Token) : Nears token 2 (stepComment token) := by
  unfold stepComment
  split_ifs <;> simp [rank]

/-- A word takes all but delimiters. -/
theorem nears_stepWord (text : List Char) (token : Token) :
    Nears token (rank (.word text) token) (stepWord text token) := by
  unfold stepWord
  split
  · exact nears_accept _ _ _ _
  · split_ifs with hdelimiter <;> simp [rank, hdelimiter]

theorem nears_stepDot (token : Token) : Nears token 2 (stepDot token) := by
  cases token with
  | endOfText => simp [stepDot, rank]
  | run c count =>
    simp only [stepDot]
    split_ifs <;> simp [rank]

theorem nears_stepDirective (name : List Char) (token : Token) :
    Nears token 3 (stepDirective name token) := by
  unfold stepDirective
  split_ifs <;> simp [rank]

theorem nears_stepInclusion (token : Token) : Nears token 2 (stepInclusion token) := by
  unfold stepInclusion
  split_ifs <;> simp [rank]

theorem nears_stepPath (text : List Char) (token : Token) : Nears token 2 (stepPath text token) := by
  unfold stepPath
  split_ifs <;> simp [rank]

theorem nears_stepSign (token : Token) : Nears token 3 (stepSign token) := by
  unfold stepSign
  split_ifs with hdigits
  · simp [rank, hdigits]
  · exact nears_decline.2 (rank_word_lt _ token)

theorem nears_stepNumber (text : List Char) (token : Token) :
    Nears token (rank (.number text) token) (stepNumber text token) := by
  unfold stepNumber
  split_ifs with hdigits
  any_goals exact nears_accept _ _ _ _
  · simpa [rank, hdigits] using rank_word_lt text token
  · simp [rank, hdigits]

theorem nears_stepNumberDot (text : List Char) (token : Token) :
    Nears token 3 (stepNumberDot text token) := by
  unfold stepNumberDot
  split_ifs <;> simp [rank]

theorem nears_stepFloat (text : List Char) (token : Token) :
    Nears token 3 (stepFloat text token) := by
  unfold stepFloat
  split_ifs
  · exact nears_accept _ _ _ _
  · exact nears_decline.2 (rank_word_lt _ token)
  · simp [rank]

theorem nears_leaveTimestamp (text : List Char) (whole : Nat) (token : Token) :
    Nears token 3 (leaveTimestamp text whole token) := by
  simp only [leaveTimestamp]
  split_ifs
  · simp [rank]
  · exact nears_decline.2 (rank_dots_lt _ _ token)
  · exact nears_decline.2 (rank_word_lt _ token)

theorem nears_stepTimestamp (text : List Char) (whole : Nat) (token : Token) :
    Nears token 3 (stepTimestamp text whole token) := by
  simp only [stepTimestamp]
  split
  · exact nears_accept _ _ _ _
  · exact nears_accept _ _ _ _
  · exact nears_leaveTimestamp text whole _

theorem nears_stepColor (text : List Char) (token : Token) :
    Nears token 3 (stepColor text token) := by
  unfold stepColor
  split_ifs
  · exact nears_accept _ _ _ _
  · simp [rank]
  · exact nears_decline.2 (rank_word_lt _ token)

theorem nears_stepLiteral (text : List Char) (token : Token) :
    Nears token 3 (stepLiteral text token) := by
  unfold stepLiteral
  split
  · exact nears_decline.2 (rank_word_lt _ _)
  · split_ifs
    any_goals exact nears_accept _ _ _ _
    exact nears_decline.2 (rank_word_lt _ _)

/-- After an escape the rest of the run is read at once, since no line feed is escaped. -/
theorem nears_stepEscape (text : List Char) (token : Token) :
    Nears token 3 (stepEscape text token) := by
  unfold stepEscape
  split
  · exact nears_decline.2 (rank_word_lt _ _)
  · rename_i c count
    split
    · exact nears_decline.2 (rank_word_lt _ _)
    · rename_i escaped hescaped
      have hfeed : c ≠ '\n' := by
        rintro rfl
        simp [unescape?] at hescaped
      simp only [stepLiteral, hfeed, if_false]
      split_ifs <;> exact nears_accept _ _ _ _

/-- A declined token lowers the rank. -/
theorem nears_step (mode : Mode) (token : Token) : Nears token (mode.rank token) (mode.step token) := by
  cases mode with
  | start => exact nears_stepStart token
  | breaks count => exact nears_stepBreaks count token
  | comment => exact nears_stepComment token
  | word text => exact nears_stepWord text token
  | dot => exact nears_stepDot token
  | directive name => exact nears_stepDirective name token
  | inclusion => exact nears_stepInclusion token
  | path text => exact nears_stepPath text token
  | sign => exact nears_stepSign token
  | number text => exact nears_stepNumber text token
  | numberDot text => exact nears_stepNumberDot text token
  | float text => exact nears_stepFloat text token
  | timestamp text whole => exact nears_stepTimestamp text whole token
  | color text => exact nears_stepColor text token
  | literal text => exact nears_stepLiteral text token
  | escape text => exact nears_stepEscape text token

end Document.Mode

namespace Document.Scanner

/-- The rank of the scanner is that of its mode. -/
def patient : Patient scan where
  rank scanner token := scanner.mode.rank token
  rank_lt scanner token :=
    Nat.lt_of_le_of_lt (Mode.rank_le scanner.mode token) (by decide)
  declined_lt {scanner token} hdeclined := Mode.nears_step scanner.mode token hdeclined

end Document.Scanner

/-! ## Assembly text -/

namespace Assembly.Mode

/-- Whether the token is a run of digits. -/
def isDigits : Token → Bool
  | .run c _ => c.isDigit
  | .endOfText => false

/-- How often a token may still be declined from the mode on. -/
def rank (mode : Mode) (token : Token) : Nat :=
  match mode with
  | .start => 1
  | .word _ => if continuesWord token then 0 else 2
  | .number .whole _ => if isDigits token then 0 else 3
  | .comment | .directive _ | .number .sign _ | .string _ _ => 2
  | _ => 3

theorem rank_le (mode : Mode) (token : Token) : mode.rank token ≤ 3 := by
  unfold rank
  split <;> (try split) <;> omega

theorem rank_word_lt (text : List Char) (token : Token) : rank (.word text) token < 3 := by
  simp only [rank]
  split <;> omega

/-- If the answer declines the token, the next mode has a rank below the bound. -/
def Nears (token : Token) (bound : Nat) (answer : Scan Mode) : Prop :=
  answer.taken = false → answer.next.rank token < bound

@[simp] theorem nears_accept (token : Token) (bound : Nat) (next : Mode) (items : List Item) :
    Nears token bound (accept next items) := by
  intro hdeclined
  cases hdeclined

@[simp] theorem nears_decline {token : Token} {bound : Nat} {next : Mode} {items : List Item} :
    Nears token bound (decline next items) ↔ next.rank token < bound :=
  ⟨fun hnears => hnears rfl, fun hrank _ => hrank⟩

theorem Nears.mono {token : Token} {bound bound' : Nat} {answer : Scan Mode}
    (hnears : Nears token bound answer) (hle : bound ≤ bound') : Nears token bound' answer :=
  fun hdeclined => Nat.lt_of_lt_of_le (hnears hdeclined) hle

/-- Between words only digits and characters of words are declined. -/
theorem nears_stepStart (token : Token) : Nears token 1 (stepStart token) := by
  cases token with
  | endOfText => exact nears_accept _ _ _ _
  | run c count =>
    unfold stepStart
    -- line feeds, blanks, comments, directives, timestamps, colors, signs, quotes, literals
    iterate 9 refine iteInduction (fun _ => nears_accept _ _ _ _) fun _ => ?_
    refine iteInduction (fun hdigit => ?_) fun _ => iteInduction (fun hword => ?_) fun _ => ?_
    · simp [rank, isDigits, hdigit]
    · simp [rank, continuesWord, hword]
    · exact nears_accept _ _ _ _

theorem nears_stepComment (token : Token) : Nears token 2 (stepComment token) := by
  unfold stepComment
  split_ifs <;> simp [rank]

/-- A word takes all characters of words. -/
theorem nears_stepWord (text : List Char) (token : Token) :
    Nears token (rank (.word text) token) (stepWord text token) := by
  unfold stepWord
  split_ifs with hword <;> simp [rank, hword]

theorem nears_stepDirective (name : List Char) (token : Token) :
    Nears token 2 (stepDirective name token) := by
  unfold stepDirective
  split_ifs <;> simp [rank]

theorem nears_leaveNumber (text suffix : List Char) (token : Token) :
    Nears token 3 (leaveNumber text suffix token) := by
  unfold leaveNumber
  split_ifs
  · simp [rank]
  · exact nears_decline.2 (rank_word_lt _ token)

theorem nears_stepDigits (part : NumberPart) (text : List Char) (c : Char) (count : Nat) :
    Nears (.run c count) (if c.isDigit then 0 else 3) (stepDigits part text c count) := by
  simp only [stepDigits]
  split_ifs
  any_goals exact nears_accept _ _ _ _
  exact nears_leaveNumber _ _ _

theorem nears_stepNumber (part : NumberPart) (text : List Char) (token : Token) :
    Nears token (rank (.number part text) token) (stepNumber part text token) := by
  cases token with
  | endOfText =>
    cases part with
    | sign => simp [stepNumber, rank]
    | exponentMark => exact nears_decline.2 (rank_word_lt _ _)
    | exponentSign => exact nears_decline.2 (rank_word_lt _ _)
    | whole => exact nears_leaveNumber _ _ _
    | fraction => exact nears_leaveNumber _ _ _
    | exponent => exact nears_leaveNumber _ _ _
    | suffix suffix => exact nears_leaveNumber _ _ _
  | run c count =>
    cases part with
    | sign =>
      refine iteInduction (fun hdigit => ?_) fun _ => ?_
      · simp [rank, isDigits, hdigit]
      · simp [rank]
    | exponentMark =>
      refine iteInduction (fun _ => nears_accept _ _ _ _) fun _ =>
        iteInduction (fun _ => nears_accept _ _ _ _) fun _ => ?_
      exact nears_decline.2 (rank_word_lt _ _)
    | exponentSign =>
      refine iteInduction (fun _ => nears_accept _ _ _ _) fun _ => ?_
      exact nears_decline.2 (rank_word_lt _ _)
    | suffix suffix =>
      exact iteInduction (fun _ => nears_accept _ _ _ _) fun _ => nears_leaveNumber _ _ _
    | whole => exact nears_stepDigits _ _ _ _
    | fraction => exact (nears_stepDigits _ _ _ _).mono (by simp only [rank]; split <;> omega)
    | exponent => exact (nears_stepDigits _ _ _ _).mono (by simp only [rank]; split <;> omega)

theorem nears_stepTimestamp (text : List Char) (token : Token) :
    Nears token 3 (stepTimestamp text token) := by
  simp only [stepTimestamp]
  split_ifs
  · exact nears_accept _ _ _ _
  · simp [rank]
  · exact nears_decline.2 (rank_word_lt _ token)

theorem nears_stepColor (text : List Char) (token : Token) :
    Nears token 3 (stepColor text token) := by
  unfold stepColor
  split_ifs
  · exact nears_accept _ _ _ _
  · simp [rank]
  · exact nears_decline.2 (rank_word_lt _ token)

/-- A run of quotes beyond the closing one is read at once. -/
theorem stepStart_quoteMark_taken (tagged : Bool) (count : Nat) :
    (stepStart (.run (quoteMark tagged) count)).taken = true := by
  have hblank : Text.isBlank (quoteMark tagged) = false := by cases tagged <;> decide
  have hdigit : (quoteMark tagged).isDigit = false := by cases tagged <;> decide
  have hword : isWordChar (quoteMark tagged) = false := by cases tagged <;> decide
  unfold stepStart
  dsimp only
  rw [if_neg (by cases tagged <;> decide), if_neg (by simp [hblank])]
  simp only [hdigit, hword, Bool.false_eq_true, if_false]
  repeat' split
  all_goals rfl

/-- A string takes everything on its line. -/
theorem stepString_taken (tagged : Bool) (text : List Char) {c : Char} (hc : c ≠ '\n')
    (count : Nat) : (stepString tagged text (.run c count)).taken = true := by
  unfold stepString
  dsimp only
  rw [if_neg hc]
  split
  · rename_i hquote
    split
    · rw [hquote]
      exact stepStart_quoteMark_taken tagged (count - 1)
    · rfl
  · split <;> rfl

theorem nears_of_taken {token : Token} {bound : Nat} {answer : Scan Mode}
    (htaken : answer.taken = true) : Nears token bound answer := by
  intro hdeclined
  rw [htaken] at hdeclined
  cases hdeclined

theorem nears_stepString (tagged : Bool) (text : List Char) (token : Token) :
    Nears token 2 (stepString tagged text token) := by
  cases token with
  | endOfText => simp [stepString, rank]
  | run c count =>
    by_cases hc : c = '\n'
    · subst hc
      simp [stepString, rank]
    · exact nears_of_taken (stepString_taken tagged text hc count)

/-- After an escape the rest of the run is read at once, since no line feed is escaped. -/
theorem nears_stepEscape (tagged : Bool) (text : List Char) (token : Token) :
    Nears token 3 (stepEscape tagged text token) := by
  cases token with
  | endOfText => exact nears_decline.2 (rank_word_lt _ _)
  | run c count =>
    unfold stepEscape
    dsimp only
    split
    · exact nears_decline.2 (rank_word_lt _ _)
    · rename_i escaped hescaped
      have hc : c ≠ '\n' := by
        rintro rfl
        simp [unescape?] at hescaped
      refine iteInduction (fun _ => ?_) fun _ => nears_accept _ _ _ _
      exact nears_of_taken (stepString_taken tagged _ hc _)

/-- A declined token lowers the rank. -/
theorem nears_step (mode : Mode) (token : Token) : Nears token (mode.rank token) (mode.step token) := by
  cases mode with
  | start => exact nears_stepStart token
  | comment => exact nears_stepComment token
  | word text => exact nears_stepWord text token
  | directive name => exact nears_stepDirective name token
  | number part text => exact nears_stepNumber part text token
  | timestamp text => exact nears_stepTimestamp text token
  | color text => exact nears_stepColor text token
  | string tagged text => exact nears_stepString tagged text token
  | escape tagged text => exact nears_stepEscape tagged text token

/-- The rank of a mode bounds how often a token is declined. -/
def patient : Patient step where
  rank := rank
  rank_lt mode token := Nat.lt_of_le_of_lt (rank_le mode token) (by decide)
  declined_lt {mode token} hdeclined := nears_step mode token hdeclined

end Assembly.Mode
end Docpress
