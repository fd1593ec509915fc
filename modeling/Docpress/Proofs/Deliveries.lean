import Docpress.Proofs.Runs
import Mathlib.Data.List.Chain

/-!
# What a consumer of tokens is delivered

The encoder of runs is used by calls: characters are put one by one, and the text is finished.
Nothing keeps anyone from calling it again afterwards.  The consumer decides for itself how often
it declines a token, as long as it takes each within the limit (`YieldsWithin`).

* `Token.MaximalRuns`: the runs of a text are determined by this much.  `dropReturns_idem` says that
  a text is not changed by what was made of it.
* `RunEncoder.answerAll_takes`: after any calls the consumer has taken the tokens of the text that
  was put before the first end, and the end token once.
* `RunEncoder.recording`: a consumer that also keeps what it takes, so that there is no doubt about
  what that was.
-/

namespace Docpress

/-! ## Maximal runs -/

namespace Token

/-- The tokens are no runs of the same character. -/
def Apart (first second : Token) : Prop :=
  ∀ c count more, first = .run c count → second ≠ .run c more

/-- The tokens are the maximal runs of the text: they have its characters in order, none is empty,
and neighbours are runs of different characters. -/
structure MaximalRuns (tokens : List Token) (text : List Char) : Prop where
  expand : tokens.flatMap expand = text
  solid : ∀ token ∈ tokens, ∃ c count, 0 < count ∧ token = .run c count
  apart : tokens.IsChain Apart

theorem isChain_runsFrom (c : Char) (count : Nat) (text : List Char) :
    (runsFrom c count text).IsChain Apart := by
  induction text generalizing c count with
  | nil => exact .singleton _
  | cons d text ih =>
    rw [runsFrom]
    split
    · exact ih c (count + 1)
    · rename_i hne
      have hrest := ih d 1
      obtain ⟨more, rest, hruns⟩ := runsFrom_eq_cons d 1 text
      rw [hruns] at hrest ⊢
      refine List.isChain_cons_cons.2 ⟨?_, hrest⟩
      rintro e _ _ ⟨⟩ ⟨⟩
      exact hne rfl

theorem maximalRuns_runs (text : List Char) : MaximalRuns (runs text) text where
  expand := flatMap_expand_runs text
  solid _ hmem := exists_of_mem_runs hmem
  apart := by
    cases text with
    | nil => exact .nil
    | cons c text => exact isChain_runsFrom c 1 text

/-- Nothing else has the maximal runs of a text. -/
theorem MaximalRuns.eq_runs {tokens : List Token} {text : List Char}
    (hruns : MaximalRuns tokens text) : tokens = runs text := by
  obtain ⟨rfl, hsolid, hapart⟩ := hruns
  induction tokens with
  | nil => rfl
  | cons token tokens ih =>
    rw [List.forall_mem_cons] at hsolid
    obtain ⟨⟨c, count, hcount, rfl⟩, hrest⟩ := hsolid
    have hhead : (tokens.flatMap Token.expand).head? ≠ some c := by
      cases tokens with
      | nil => simp
      | cons next tokens =>
        obtain ⟨⟨d, more, hmore, rfl⟩, -⟩ := List.forall_mem_cons.1 hrest
        have hne := (List.isChain_cons_cons.1 hapart).1 c count more rfl
        simpa [Token.expand, List.head?_replicate, Nat.ne_of_gt hmore] using hne
    have hfirst := @runs_around c [] _ (by simp) hhead count hcount
    rw [List.flatMap_cons, Token.expand, ← List.nil_append (List.replicate count c), hfirst,
      ← ih hrest hapart.tail]
    rfl

end Token

/-- What stands behind the carriage returns at the beginning of a text does so still when some of
them are dropped. -/
theorem head?_dropWhile_dropReturns (text : List Char) :
    ((dropReturns text).dropWhile (· == '\r')).head? =
      (text.dropWhile (· == '\r')).head? := by
  induction text with
  | nil => rfl
  | cons c text ih =>
    by_cases hc : c = '\r'
    · subst hc
      rw [List.dropWhile_cons_of_pos rfl, dropReturns]
      split
      · exact ih
      · rw [List.dropWhile_cons_of_pos rfl]
        exact ih
    · rw [dropReturns_of_ne hc, List.dropWhile_cons_of_neg (by simpa using hc),
        List.dropWhile_cons_of_neg (by simpa using hc)]
      rfl

/-- No carriage return is left that could be dropped. -/
theorem dropReturns_idem (text : List Char) :
    dropReturns (dropReturns text) = dropReturns text := by
  induction text with
  | nil => rfl
  | cons c text ih =>
    by_cases hdropped : c = '\r' ∧ (text.dropWhile (· == '\r')).head? = some '\n'
    · rwa [dropReturns, if_pos hdropped]
    · rw [dropReturns, if_neg hdropped, dropReturns, head?_dropWhile_dropReturns,
        if_neg hdropped, ih]

theorem Token.ofText_expand {text : List Char} {tokens : List Token}
    (htokens : ofText text = .ok tokens) : ofText (tokens.flatMap expand) = .ok tokens := by
  rw [ofText_eq, Except.ok.injEq] at htokens
  subst htokens
  have hexpand :
      (runs (dropReturns text) ++ [Token.endOfText]).flatMap expand = dropReturns text := by
    rw [List.flatMap_append, flatMap_expand_runs]
    exact List.append_nil _
  rw [hexpand, ofText_eq, dropReturns_idem]

namespace RunEncoder

variable {τ : Type}

/-! ## Calls -/

/-- What is asked of an encoder. -/
inductive Call where
  | put (c : Char)
  | finish
deriving DecidableEq, Repr

/-- The characters that are put before the text is finished. -/
def textOf : List Call → List Char
  | .put c :: calls => c :: textOf calls
  | .finish :: _ => []
  | [] => []

section

variable (limit : Nat) (consume : Consumer τ)

/-- Answers a call. -/
def answer : Call → RunEncoder → τ → Progress τ
  | .put c => put limit consume c
  | .finish => finish limit consume

/-- Answers one call after the other, until one fails. -/
def answerAll (calls : List Call) (encoder : RunEncoder) (consumer : τ) : Progress τ :=
  calls.foldl (fun progress call => progress.andThen (answer limit consume call))
    { encoder, consumer }

theorem answerAll_cons (call : Call) (calls : List Call) {encoder next : RunEncoder}
    {consumer after : τ}
    (hanswer : answer limit consume call encoder consumer = { encoder := next, consumer := after }) :
    answerAll limit consume (call :: calls) encoder consumer =
      answerAll limit consume calls next after := by
  rw [answerAll, List.foldl_cons, Progress.andThen, hanswer]
  rfl

/-- A finished encoder does nothing any more. -/
theorem answerAll_finished (calls : List Call) {encoder : RunEncoder}
    (hfinished : encoder.finished = true) (consumer : τ) :
    answerAll limit consume calls encoder consumer = { encoder, consumer } := by
  induction calls with
  | nil => rfl
  | cons call calls ih =>
    have hanswer : answer limit consume call encoder consumer = { encoder, consumer } := by
      cases call with
      | put c => exact if_pos hfinished
      | finish => exact if_pos hfinished
    rw [answerAll_cons limit consume call calls hanswer, ih]

end

section

variable {Ready : τ → Prop} {limit : Nat} {consume : Consumer τ} {accept : Token → τ → τ}

/-- No call fails.  Once the text was finished, the consumer has taken what was outstanding of it,
and the end token. -/
theorem answerAll_takes (haccepts : Accepts Ready limit consume accept) (calls : List Call)
    {encoder : RunEncoder} (hopen : encoder.finished = false) (consumer : τ)
    (hready : Ready consumer) :
    ∃ last taken,
      answerAll limit consume calls encoder consumer =
        { encoder := last, consumer := acceptAll accept taken consumer } ∧
      (.finish ∈ calls → last.finished = true ∧
        taken = outstanding encoder (textOf calls) ++ [Token.endOfText]) := by
  induction calls generalizing encoder consumer with
  | nil => exact ⟨encoder, [], rfl, fun hmem => by cases hmem⟩
  | cons call calls ih =>
    cases call with
    | put c =>
      obtain ⟨next, delivered, hput, hnext, hruns⟩ :=
        put_delivers haccepts consumer hready encoder hopen c
      obtain ⟨last, taken, hlast, htaken⟩ := ih hnext _ (haccepts.ready_acceptAll hready delivered)
      refine ⟨last, delivered ++ taken, ?_, fun hmem => ?_⟩
      · rw [answerAll_cons limit consume (.put c) calls hput, hlast, acceptAll_append]
      · obtain ⟨hfinished, rfl⟩ := htaken (by simpa using hmem)
        rw [textOf, hruns, List.append_assoc]
        exact ⟨hfinished, rfl⟩
    | finish =>
      obtain ⟨last, hfinish, hfinished⟩ := finish_delivers haccepts consumer hready encoder hopen
      refine ⟨last, _, ?_, fun _ => ⟨hfinished, rfl⟩⟩
      rw [answerAll_cons limit consume .finish calls hfinish,
        answerAll_finished limit consume calls hfinished]
      rfl

end

/-! ## Consumers -/

/-- The consumer declines the token that often and then takes it. -/
inductive TakesAfter (consume : Consumer τ) (token : Token) : Nat → τ → τ → Prop where
  | taken {state after : τ} (htaken : consume token state = (true, after)) :
      TakesAfter consume token 0 state after
  | declined {count : Nat} {state between after : τ}
      (hdeclined : consume token state = (false, between))
      (hrest : TakesAfter consume token count between after) :
      TakesAfter consume token (count + 1) state after

/-- The states of the consumer in which it is offered a token for the first time: the one it starts
in, and those that it takes tokens in. -/
inductive Reached (consume : Consumer τ) (start : τ) : τ → Prop where
  | start : Reached consume start start
  | taken {state after : τ} {token : Token} {count : Nat} (hstate : Reached consume start state)
      (htakes : TakesAfter consume token count state after) : Reached consume start after

/-- The consumer declines every token fewer times than it is offered, which is at least once. -/
def YieldsWithin (limit : Nat) (consume : Consumer τ) (start : τ) : Prop :=
  ∀ state, Reached consume start state → ∀ token,
    ∃ count after, count < max limit 1 ∧ TakesAfter consume token count state after

/-- The state that the consumer is in when it was offered the token. -/
def afterOffer (limit : Nat) (consume : Consumer τ) (token : Token) (state : τ) : τ :=
  (offer (m := Id) limit (consume token) state).2

/-- The consumer, with the tokens that it has taken. -/
def recording (consume : Consumer τ) : Consumer (τ × List Token) := fun token state =>
  let (taken, next) := consume token state.1
  (taken, next, if taken then state.2 ++ [token] else state.2)

section

variable {limit : Nat} {consume : Consumer τ} {token : Token} {start : τ}

theorem TakesAfter.offerTimes_eq {count attempts : Nat} {state after : τ}
    (htakes : TakesAfter consume token count state after) (hcount : count < attempts) :
    offerTimes (m := Id) (consume token) attempts state = (true, after) := by
  induction htakes generalizing attempts with
  | taken htaken =>
    obtain ⟨attempts, rfl⟩ : ∃ rest, attempts = rest + 1 := ⟨attempts - 1, by omega⟩
    rw [offerTimes_id_succ, htaken]
    rfl
  | declined hdeclined _ ih =>
    obtain ⟨attempts, rfl⟩ : ∃ rest, attempts = rest + 1 := ⟨attempts - 1, by omega⟩
    rw [offerTimes_id_succ, hdeclined]
    exact ih (by omega)

theorem TakesAfter.recording {count : Nat} {state after : τ}
    (htakes : TakesAfter consume token count state after) (seen : List Token) :
    TakesAfter (recording consume) token count (state, seen) (after, seen ++ [token]) := by
  induction htakes with
  | taken htaken =>
    refine .taken ?_
    simp only [RunEncoder.recording, htaken]
    rfl
  | declined hdeclined _ ih =>
    refine .declined ?_ ih
    simp only [RunEncoder.recording, hdeclined]
    rfl

/-- The consumer takes whatever it is offered. -/
theorem accepts_of_yieldsWithin (hyields : YieldsWithin limit consume start) :
    Accepts (Reached consume start) limit consume (afterOffer limit consume) := by
  intro token state hstate
  obtain ⟨count, after, hcount, htakes⟩ := hyields state hstate token
  have hoffer : offer (m := Id) limit (consume token) state = (true, after) :=
    htakes.offerTimes_eq hcount
  rw [afterOffer, hoffer]
  exact ⟨rfl, hstate.taken htakes⟩

theorem accepts_recording (hyields : YieldsWithin limit consume start) :
    Accepts (fun state => Reached consume start state.1) limit (recording consume)
      fun token state => (afterOffer limit consume token state.1, state.2 ++ [token]) := by
  rintro token ⟨state, seen⟩ hstate
  obtain ⟨count, after, hcount, htakes⟩ := hyields state hstate token
  have hoffer : offer (m := Id) limit (consume token) state = (true, after) :=
    htakes.offerTimes_eq hcount
  simp only [afterOffer, hoffer]
  exact ⟨(htakes.recording seen).offerTimes_eq hcount, hstate.taken htakes⟩

theorem acceptAll_recording (accept : Token → τ → τ) (tokens : List Token)
    (state : τ × List Token) :
    (acceptAll (fun token state => (accept token state.1, state.2 ++ [token])) tokens state).2 =
      state.2 ++ tokens := by
  induction tokens generalizing state with
  | nil => exact (List.append_nil _).symm
  | cons token tokens ih =>
    rw [acceptAll, List.foldl_cons, ← acceptAll, ih, List.append_assoc]
    rfl

end

/-- Whatever calls an encoder gets and however often its consumer declines, as long as it takes each
token within the limit: no call fails, and once the text was finished the consumer has taken the
maximal runs of the characters that were put before, without the carriage returns directly before
line feeds, and the end token once.  Later calls change nothing.  The tokens of a text are also
those of the text that they spell. -/
theorem delivered_runs {limit : Nat} {consume : Consumer τ} {start : τ}
    (hyields : YieldsWithin limit consume start) :
    (∀ calls, (answerAll limit consume calls {} start).fault = none ∧
      (answerAll limit (recording consume) calls {} (start, [])).fault = none) ∧
    (∀ calls, .finish ∈ calls →
      (∃ tokens, (answerAll limit (recording consume) calls {} (start, [])).consumer.2 =
          tokens ++ [Token.endOfText] ∧
        Token.MaximalRuns tokens (dropReturns (textOf calls))) ∧
      ∀ more, answerAll limit (recording consume) (calls ++ more) {} (start, []) =
        answerAll limit (recording consume) calls {} (start, [])) ∧
    ∀ text, ∃ tokens, Token.ofText text = .ok tokens ∧
      Token.ofText (tokens.flatMap Token.expand) = .ok tokens := by
  have hanswer (calls : List Call) := answerAll_takes (accepts_recording hyields) calls
    (show ({} : RunEncoder).finished = false from rfl) (start, []) .start
  refine ⟨fun calls => ⟨?_, ?_⟩, fun calls hfinish => ?_, fun text => ?_⟩
  · obtain ⟨last, taken, hbare, -⟩ := answerAll_takes (accepts_of_yieldsWithin hyields) calls
      (show ({} : RunEncoder).finished = false from rfl) start .start
    rw [hbare]
  · obtain ⟨last, taken, hrecorded, -⟩ := hanswer calls
    rw [hrecorded]
  · obtain ⟨last, taken, hrecorded, htaken⟩ := hanswer calls
    obtain ⟨hfinished, rfl⟩ := htaken hfinish
    refine ⟨⟨_, ?_, Token.maximalRuns_runs _⟩, fun more => ?_⟩
    · rw [hrecorded]
      exact acceptAll_recording (afterOffer limit consume) _ (start, [])
    · have hmore := answerAll_finished limit (recording consume) more hfinished
      rw [answerAll, List.foldl_append, ← answerAll, hrecorded]
      exact hmore _
  · exact ⟨_, Token.ofText_eq text, Token.ofText_expand (Token.ofText_eq text)⟩

/-- Declines every token twice. -/
def hesitant : Consumer Nat := fun _ declined =>
  if declined < 2 then (false, declined + 1) else (true, 0)

theorem yieldsWithin_hesitant : YieldsWithin 3 hesitant 0 := by
  have hzero {token : Token} {count state after : Nat}
      (htakes : TakesAfter hesitant token count state after) : after = 0 := by
    induction htakes with
    | taken htaken =>
      unfold hesitant at htaken
      split at htaken
      · cases htaken
      · cases htaken
        rfl
    | declined _ _ ih => exact ih
  rintro state hstate token
  obtain rfl : state = 0 := by
    cases hstate with
    | start => rfl
    | taken _ htakes => exact hzero htakes
  exact ⟨2, 0, by decide, .declined rfl (.declined rfl (.taken rfl))⟩

/-- Two texts with an end behind each, of which the second is not read any more. -/
def twoTexts : List Call :=
  "a\r\r\n\r\n\ra\r".toList.map .put ++ [Call.finish] ++ "\nb".toList.map .put ++ [Call.finish]

theorem delivered_runs_hesitant :
    YieldsWithin 3 hesitant 0 ∧
      (answerAll 3 (recording hesitant) twoTexts {} (0, [])).fault = none ∧
      (answerAll 3 (recording hesitant) twoTexts {} (0, [])).consumer.2 =
        [.run 'a' 1, .run '\n' 2, .run '\r' 1, .run 'a' 1, .run '\r' 1, .endOfText] := by
  obtain ⟨hfaults, htaken, -⟩ := delivered_runs yieldsWithin_hesitant
  obtain ⟨⟨tokens, hconsumer, hruns⟩, -⟩ := htaken twoTexts (by decide)
  refine ⟨yieldsWithin_hesitant, (hfaults twoTexts).2, ?_⟩
  rw [hconsumer, hruns.eq_runs]
  decide

end RunEncoder
end Docpress
