import Docpress.Fault
import Docpress.Offer
import Docpress.Text.Blank

/-!
# Tokens

Scanners see a text as runs of equal characters, followed by its end.  Carriage returns
directly before a line feed are dropped; all other characters are kept.

`RunEncoder` is fed characters one at a time and delivers each run to a consumer as soon as
it is complete.  The consumer may decline a token and is then offered it again, up to a
limit.

The lengths of runs are natural numbers.  Counters of 64 bits are too small only for runs of
`2 ^ 64` characters and more, which no text has.  A run has at least one character; tokens without
any never come from a text, and what a consumer does with them is left open.
-/

namespace Docpress

/-- A run of equal characters, or the end of the text. -/
inductive Token where
  | run (c : Char) (count : Nat)
  | endOfText
deriving DecidableEq, Repr, Inhabited

namespace Token

/-- Whether the token is a run of the character. -/
def isRunOf (token : Token) (c : Char) : Bool :=
  match token with
  | run d _ => d == c
  | endOfText => false

/-- Whether the token is a run of blanks. -/
def isBlank : Token → Bool
  | run c _ => Text.isBlank c
  | endOfText => false

/-- The characters of the token. -/
def expand : Token → List Char
  | run c count => List.replicate count c
  | endOfText => []

/-- The number of line feeds in the token. -/
def lineFeeds : Token → Nat
  | run c count => if c = '\n' then count else 0
  | endOfText => 0

end Token

/-- Answers whether it takes a token. -/
abbrev Consumer (τ : Type) := Token → τ → Bool × τ

/-- Collects characters into runs. -/
structure RunEncoder where
  /-- the run under construction -/
  run : Option (Char × Nat) := none
  /-- carriage returns that may yet turn out to precede a line feed -/
  returns : Nat := 0
  /-- the end was reached, further calls do nothing -/
  finished : Bool := false
deriving DecidableEq, Repr, Inhabited

namespace RunEncoder

/-- The state after a call: of the encoder and of the consumer, and why the call failed if it
did. -/
structure Progress (τ : Type) where
  encoder : RunEncoder
  consumer : τ
  fault : Option Fault := none

/-- Goes on unless the call failed. -/
def Progress.andThen {τ : Type} (progress : Progress τ)
    (next : RunEncoder → τ → Progress τ) : Progress τ :=
  match progress.fault with
  | none => next progress.encoder progress.consumer
  | some _ => progress

variable {τ : Type} (limit : Nat) (consume : Consumer τ)

/-- Offers a token until it is taken. -/
def deliver (token : Token) (encoder : RunEncoder) (consumer : τ) : Progress τ :=
  match offer (m := Id) limit (consume token) consumer with
  | (true, consumer) => { encoder, consumer }
  | (false, consumer) => { encoder, consumer, fault := some (.livelock limit) }

/-- Adds a character to the run, or delivers the run and starts another one. -/
def extend (c : Char) (encoder : RunEncoder) (consumer : τ) : Progress τ :=
  match encoder.run with
  | none => { encoder := { encoder with run := some (c, 1) }, consumer }
  | some (d, count) =>
    if d = c then { encoder := { encoder with run := some (c, count + 1) }, consumer }
    else deliver limit consume (.run d count) { encoder with run := some (c, 1) } consumer

/-- Adds characters one after the other, until a delivery fails. -/
def extendAll (text : List Char) (encoder : RunEncoder) (consumer : τ) : Progress τ :=
  text.foldl (fun progress c => progress.andThen (extend limit consume c)) { encoder, consumer }

/-- Takes the next character of the text. -/
def put (c : Char) (encoder : RunEncoder) (consumer : τ) : Progress τ :=
  if encoder.finished then { encoder, consumer }
  else if c = '\r' then
    { encoder := { encoder with returns := encoder.returns + 1 }, consumer }
  else
    let returns := if c = '\n' then [] else List.replicate encoder.returns '\r'
    extendAll limit consume (returns ++ [c]) { encoder with returns := 0 } consumer

/-- Takes the characters of a text, until a delivery fails. -/
def putAll (text : List Char) (encoder : RunEncoder) (consumer : τ) : Progress τ :=
  text.foldl (fun progress c => progress.andThen (put limit consume c)) { encoder, consumer }

/-- Delivers the run under construction. -/
def flush (encoder : RunEncoder) (consumer : τ) : Progress τ :=
  match encoder.run with
  | none => { encoder, consumer }
  | some (c, count) => deliver limit consume (.run c count) { encoder with run := none } consumer

/-- Takes the end of the text. -/
def finish (encoder : RunEncoder) (consumer : τ) : Progress τ :=
  if encoder.finished then { encoder, consumer }
  else
    let returns := List.replicate encoder.returns '\r'
    (extendAll limit consume returns { encoder with returns := 0 } consumer)
      |>.andThen (flush limit consume)
      |>.andThen fun encoder consumer =>
        deliver limit consume .endOfText { encoder with finished := true } consumer

end RunEncoder

/-- A consumer that takes everything and keeps it, the last token first. -/
def Token.recorder : Consumer (List Token) := fun token tokens => (true, token :: tokens)

/-- The tokens of a text. -/
def Token.ofText (text : List Char) : Except Fault (List Token) :=
  let progress := (RunEncoder.putAll 1 recorder text {} []).andThen (RunEncoder.finish 1 recorder)
  match progress.fault with
  | some fault => .error fault
  | none => .ok progress.consumer.reverse

end Docpress
