import Docpress.Offer

/-!
# Offers and their outcomes

A parser is offered the same symbol until it takes it.  `Declined attempt count before after`
says that `count` attempts are declined one after the other.  `offer_of_declined` turns such a
series, with an attempt at its end that is taken, into the result of `offer`.

The other lemmas do not follow the series.  `offer_cases` carries an invariant through it, to the
attempt at its end that is taken or fails.  `exists_takes_of_rank`, and `offer_taken_of_rank` for
attempts without effects, show that it ends with success when every declined attempt makes a rank
smaller; `Takes` is the outcome then, whatever the limit.  `offerTimes_add` compares different limits,
and `offerTimes_map` states that correspond.
-/

namespace Docpress

variable {σ ε : Type}

/-- From `before` on, `count` attempts are declined, and the last one leaves `after`. -/
inductive Declined (attempt : σ → Except ε (Bool × σ)) : Nat → σ → σ → Prop where
  | none (state : σ) : Declined attempt 0 state state
  | more {count : Nat} {before between after : σ}
      (hdeclined : attempt before = .ok (false, between))
      (hrest : Declined attempt count between after) :
      Declined attempt (count + 1) before after

theorem Declined.trans {attempt : σ → Except ε (Bool × σ)} {first second : Nat}
    {before between after : σ} (hfirst : Declined attempt first before between)
    (hsecond : Declined attempt second between after) :
    Declined attempt (first + second) before after := by
  induction hfirst with
  | none => rwa [Nat.zero_add]
  | more hnow _ ih =>
    rw [Nat.add_right_comm]
    exact .more hnow (ih hsecond)

theorem Declined.concat {attempt : σ → Except ε (Bool × σ)} {count : Nat}
    {before between after : σ} (hfirst : Declined attempt count before between)
    (hdeclined : attempt between = .ok (false, after)) :
    Declined attempt (count + 1) before after :=
  hfirst.trans (.more hdeclined (.none after))

/-! ## Single attempts -/

theorem offerTimes_succ_of_taken {attempt : σ → Except ε (Bool × σ)} {before after : σ}
    (attempts : Nat) (htaken : attempt before = .ok (true, after)) :
    offerTimes attempt (attempts + 1) before = .ok (true, after) := by
  rw [offerTimes, htaken]
  rfl

theorem offerTimes_succ_of_declined {attempt : σ → Except ε (Bool × σ)} {before between : σ}
    (attempts : Nat) (hdeclined : attempt before = .ok (false, between)) :
    offerTimes attempt (attempts + 1) before = offerTimes attempt attempts between := by
  rw [offerTimes, hdeclined]
  rfl

theorem offer_of_taken {attempt : σ → Except ε (Bool × σ)} {before after : σ} (limit : Nat)
    (htaken : attempt before = .ok (true, after)) :
    offer limit attempt before = .ok (true, after) := by
  obtain ⟨attempts, hattempts⟩ : ∃ attempts, max limit 1 = attempts + 1 :=
    ⟨max limit 1 - 1, by omega⟩
  rw [offer, hattempts]
  exact offerTimes_succ_of_taken attempts htaken

/-! ## Series of attempts -/

theorem offerTimes_of_declined {attempt : σ → Except ε (Bool × σ)} {count attempts : Nat}
    {before between after : σ} (hdeclined : Declined attempt count before between)
    (htaken : attempt between = .ok (true, after)) (hcount : count < attempts) :
    offerTimes attempt attempts before = .ok (true, after) := by
  induction hdeclined generalizing attempts with
  | none =>
    obtain ⟨attempts, rfl⟩ : ∃ rest, attempts = rest + 1 := ⟨attempts - 1, by omega⟩
    exact offerTimes_succ_of_taken attempts htaken
  | more hnow _ ih =>
    obtain ⟨attempts, rfl⟩ : ∃ rest, attempts = rest + 1 := ⟨attempts - 1, by omega⟩
    rw [offerTimes_succ_of_declined attempts hnow]
    exact ih htaken (by omega)

/-- A series of attempts within the limit, the last of which is taken, succeeds. -/
theorem offer_of_declined {attempt : σ → Except ε (Bool × σ)} {count limit : Nat}
    {before between after : σ} (hdeclined : Declined attempt count before between)
    (htaken : attempt between = .ok (true, after)) (hcount : count < limit) :
    offer limit attempt before = .ok (true, after) :=
  offerTimes_of_declined hdeclined htaken (by omega)

theorem offer_of_error {attempt : σ → Except ε (Bool × σ)} {state : σ} {fault : ε} (limit : Nat)
    (hfault : attempt state = .error fault) : offer limit attempt state = .error fault := by
  obtain ⟨attempts, hattempts⟩ : ∃ attempts, max limit 1 = attempts + 1 :=
    ⟨max limit 1 - 1, by omega⟩
  rw [offer, hattempts, offerTimes, hfault]
  rfl

/-- What every declined attempt preserves, a series of declined attempts preserves, and what an
attempt that is taken establishes, a series establishes that ends with one.  A series fails where an
attempt does. -/
theorem offerTimes_cases {attempt : σ → Except ε (Bool × σ)} {Inv Post : σ → Prop}
    {Fails : ε → Prop}
    (hattempt : ∀ state, Inv state →
      (∃ next, attempt state = .ok (true, next) ∧ Post next) ∨
      (∃ next, attempt state = .ok (false, next) ∧ Inv next) ∨
      ∃ fault, attempt state = .error fault ∧ Fails fault)
    (attempts : Nat) {state : σ} (hstate : Inv state) :
    (∃ next, offerTimes attempt attempts state = .ok (true, next) ∧ Post next) ∨
    (∃ next, offerTimes attempt attempts state = .ok (false, next) ∧ Inv next) ∨
    ∃ fault, offerTimes attempt attempts state = .error fault ∧ Fails fault := by
  induction attempts generalizing state with
  | zero => exact .inr (.inl ⟨state, rfl, hstate⟩)
  | succ attempts ih =>
    obtain ⟨next, hnext, hpost⟩ | ⟨next, hnext, hinv⟩ | ⟨fault, hfault, hfails⟩ :=
      hattempt state hstate
    · exact .inl ⟨next, offerTimes_succ_of_taken attempts hnext, hpost⟩
    · rw [offerTimes_succ_of_declined attempts hnext]
      exact ih hinv
    · refine .inr (.inr ⟨fault, ?_, hfails⟩)
      rw [offerTimes, hfault]
      rfl

theorem offer_cases {attempt : σ → Except ε (Bool × σ)} {Inv Post : σ → Prop}
    {Fails : ε → Prop}
    (hattempt : ∀ state, Inv state →
      (∃ next, attempt state = .ok (true, next) ∧ Post next) ∨
      (∃ next, attempt state = .ok (false, next) ∧ Inv next) ∨
      ∃ fault, attempt state = .error fault ∧ Fails fault)
    (limit : Nat) {state : σ} (hstate : Inv state) :
    (∃ next, offer limit attempt state = .ok (true, next) ∧ Post next) ∨
    (∃ next, offer limit attempt state = .ok (false, next) ∧ Inv next) ∨
    ∃ fault, offer limit attempt state = .error fault ∧ Fails fault :=
  offerTimes_cases hattempt (max limit 1) hstate

/-- More attempts go on where fewer of them stop. -/
theorem offerTimes_add (attempt : σ → Except ε (Bool × σ)) (first second : Nat) (state : σ) :
    offerTimes attempt (first + second) state = (do
      let (taken, next) ← offerTimes attempt first state
      if taken then return (true, next) else offerTimes attempt second next) := by
  induction first generalizing state with
  | zero =>
    rw [Nat.zero_add]
    rfl
  | succ first ih =>
    rw [Nat.add_right_comm, offerTimes, offerTimes]
    rcases attempt state with fault | ⟨taken, next⟩
    · rfl
    · cases taken with
      | true => rfl
      | false => exact ih next

/-- Attempts that agree on corresponding states do so one after the other. -/
theorem offerTimes_map {attempt : σ → Except ε (Bool × σ)} {f : σ → σ} {Inv : σ → Prop}
    (hattempt : ∀ state, Inv state → attempt (f state) = Prod.map id f <$> attempt state)
    (hinv : ∀ state taken next, Inv state → attempt state = .ok (taken, next) → Inv next)
    (attempts : Nat) {state : σ} (hstate : Inv state) :
    offerTimes attempt attempts (f state) =
      Prod.map id f <$> offerTimes attempt attempts state := by
  induction attempts generalizing state with
  | zero => rfl
  | succ attempts ih =>
    rw [offerTimes, offerTimes, hattempt state hstate]
    cases hresult : attempt state with
    | error fault => rfl
    | ok result =>
      obtain ⟨taken, next⟩ := result
      cases taken with
      | true => rfl
      | false => exact ih (hinv state false next hstate hresult)

/-! ## Attempts that are taken in the end -/

/-- The attempts are declined for a while, and then one is taken and leaves `after`. -/
inductive Takes (attempt : σ → Except ε (Bool × σ)) : σ → σ → Prop where
  | taken {before after : σ} (htaken : attempt before = .ok (true, after)) :
      Takes attempt before after
  | declined {before between after : σ} (hdeclined : attempt before = .ok (false, between))
      (hrest : Takes attempt between after) : Takes attempt before after

namespace Takes

variable {attempt : σ → Except ε (Bool × σ)} {before between after after' : σ}

theorem of_taken (htakes : Takes attempt before after)
    (htaken : attempt before = .ok (true, after')) : after = after' := by
  cases htakes with
  | taken htaken' =>
    rw [htaken] at htaken'
    cases htaken'
    rfl
  | declined hdeclined _ =>
    rw [htaken] at hdeclined
    cases hdeclined

theorem of_declined (htakes : Takes attempt before after)
    (hdeclined : attempt before = .ok (false, between)) : Takes attempt between after := by
  cases htakes with
  | taken htaken =>
    rw [hdeclined] at htaken
    cases htaken
  | declined hdeclined' hrest =>
    rw [hdeclined] at hdeclined'
    cases hdeclined'
    exact hrest

/-- There is one outcome. -/
theorem unique (htakes : Takes attempt before after) (hother : Takes attempt before after') :
    after = after' := by
  induction htakes with
  | taken htaken => exact (hother.of_taken htaken).symm
  | declined hdeclined _ ih => exact ih (hother.of_declined hdeclined)

end Takes

/-- Attempts that keep an invariant while they are declined are taken in the end, within the
limit, if each declined one lowers a rank that starts below the limit. -/
theorem exists_takes_of_rank {attempt : σ → Except ε (Bool × σ)} {Inv Post : σ → Prop}
    (rank : σ → Nat)
    (hattempt : ∀ state, Inv state → ∃ taken next, attempt state = .ok (taken, next) ∧ Post next ∧
      (taken = false → Inv next ∧ rank next < rank state))
    {limit : Nat} {state : σ} (hstate : Inv state) (hrank : rank state < limit) :
    ∃ next, Takes attempt state next ∧ offer limit attempt state = .ok (true, next) ∧
      Post next := by
  unfold offer
  have hattempts : rank state < max limit 1 := by omega
  clear hrank
  generalize max limit 1 = attempts at hattempts
  induction attempts generalizing state with
  | zero => omega
  | succ attempts ih =>
    obtain ⟨taken, next, hnext, hpost, hlower⟩ := hattempt state hstate
    cases taken with
    | true => exact ⟨next, .taken hnext, offerTimes_succ_of_taken attempts hnext, hpost⟩
    | false =>
      obtain ⟨hinv, hlt⟩ := hlower rfl
      obtain ⟨last, htakes, hoffer, hlast⟩ := ih hinv (by omega)
      refine ⟨last, .declined hnext htakes, ?_, hlast⟩
      rw [offerTimes_succ_of_declined attempts hnext]
      exact hoffer

/-! ## Attempts without effects -/

theorem offerTimes_id_succ (attempt : σ → Bool × σ) (attempts : Nat) (state : σ) :
    offerTimes (m := Id) attempt (attempts + 1) state =
      if (attempt state).1 then (true, (attempt state).2)
      else offerTimes (m := Id) attempt attempts (attempt state).2 := rfl

/-- Attempts without effects succeed when each declined one lowers a rank that starts below
the limit. -/
theorem offer_taken_of_rank {attempt : σ → Bool × σ} (rank : σ → Nat)
    (hrank : ∀ state, (attempt state).1 = false → rank (attempt state).2 < rank state)
    {limit : Nat} {state : σ} (hstate : rank state < limit) :
    (offer (m := Id) limit attempt state).1 = true := by
  unfold offer
  have hattempts : rank state < max limit 1 := by omega
  clear hstate
  generalize max limit 1 = attempts at hattempts
  induction attempts generalizing state with
  | zero => omega
  | succ attempts ih =>
    rw [offerTimes_id_succ]
    cases htaken : (attempt state).1 with
    | true => rfl
    | false =>
      have hlt := hrank state htaken
      exact ih (by omega)

end Docpress
