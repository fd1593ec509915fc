/-!
# Offering

The parts of the compiler push their results on.  A consumer may decline what it is offered,
typically because it had to change its state first, and is then offered the same again.
-/

namespace Docpress

variable {σ : Type} {m : Type → Type} [Monad m]

/-- Makes up to `attempts` attempts, until one is taken.  The result says whether one was. -/
def offerTimes (attempt : σ → m (Bool × σ)) : Nat → σ → m (Bool × σ)
  | 0, state => pure (false, state)
  | attempts + 1, state => do
    let (taken, state) ← attempt state
    if taken then pure (true, state) else offerTimes attempt attempts state

/-- Makes up to `limit` attempts, and at least one, until one is taken. -/
def offer (limit : Nat) (attempt : σ → m (Bool × σ)) (state : σ) : m (Bool × σ) :=
  offerTimes attempt (max limit 1) state

end Docpress
