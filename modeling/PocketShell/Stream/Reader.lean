import PocketShell.Cancellation
import PocketShell.Stream.Basic

/-!
# Reading with waiting

A read is polled: each poll either answers, or leaves the read waiting with a ticket for its place
in the queue of the stream. What is read is given by a function that serves a read from the buffer,
if anything is buffered.

* `Stream.takeChunk?`, `Stream.takeChar?`, `Stream.peekChar?` : the three ways to be served;
* `Stream.attempt` : serves a read, ends it, or queues it;
* `Stream.poll` : one poll of a read;
* `Reader` : a read in progress, as a value.
-/

namespace PocketShell

/-- The outcome of a poll: an answer, or a ticket to wait with. -/
inductive Polled (α : Type) where
  | ready (answer : Except Fault α)
  | waiting (ticket : Nat)

namespace Stream

variable {α : Type}

/-! ## Being served from the buffer -/

/-- Everything buffered. -/
def takeChunk? (s : Stream) : Option (String × Stream) := if s.isEmpty then none else some s.drain

/-- The next character. What is left goes on to the next waiting reader. -/
def takeChar? (s : Stream) : Option (Char × Stream) := s.front?.map (·, s.advance.passOn)

/-- The next character, which stays in the buffer. -/
def peekChar? (s : Stream) : Option (Char × Stream) := s.front?.map (·, s.passOn)

/-! ## Polling -/

/-- A new place at the end of the queue. -/
def enqueue (s : Stream) (live : Bool) : Stream :=
  { s with waiters := s.waiters ++ [{ ticket := s.issued, live := live }], issued := s.issued + 1 }

@[simp] theorem text_enqueue (s : Stream) (live : Bool) : (s.enqueue live).text = s.text := rfl

/-- What a read gets of a stream with nothing in its buffer: the end, a cancellation (which leaves a
dead place in the queue), or a ticket. -/
def await (s : Stream) (fired : Bool) : Stream × Except Fault Nat :=
  if s.closed then (s, .error .endOfStream)
  else if s.cancellable && fired then (s.enqueue false, .error .cancelled)
  else (s.enqueue true, .ok s.issued)

/-- Tries to serve a read at once. -/
def attempt (serve : Stream → Option (α × Stream)) (s : Stream) (fired : Bool) :
    Stream × Polled α :=
  match serve s with
  | some (answer, s) => (s, .ready (.ok answer))
  | none =>
    match s.await fired with
    | (s, .error cause) => (s, .ready (.error cause))
    | (s, .ok ticket) => (s, .waiting ticket)

/-- Whether a read that waits with this ticket would get on if it were polled. -/
def calls (s : Stream) (fired : Bool) (ticket : Nat) : Bool :=
  s.woken.contains ticket || (s.cancellable && fired)

/-- Whether a waiting read goes on as one that has been woken. -/
def goesOn (s : Stream) (c : Cancellation) (ticket : Nat) : Bool × Cancellation :=
  let woken := s.woken.contains ticket
  if woken && s.cancellable && c.fired then c.throwCoin else (woken, c)

/-- One poll of a read that is new, or waits with a ticket. A waiting read gets on when it has been
woken, and gives up when the run has been cancelled and its stream minds that. -/
def poll (serve : Stream → Option (α × Stream)) (s : Stream) (c : Cancellation) :
    Option Nat → Stream × Cancellation × Polled α
  | none =>
    let (s, out) := attempt serve s c.fired
    (s, c, out)
  | some ticket =>
    match s.goesOn c ticket with
    | (true, c) =>
      let (s, out) := attempt serve (s.abandon ticket) c.fired
      (s, c, out)
    | (false, c) =>
      if s.cancellable && c.fired then (s.abandon ticket, c, .ready (.error .cancelled))
      else (s, c, .waiting ticket)

end Stream

/-! ## Reads as values -/

/-- What a reader wants. -/
inductive Want where
  | chunk
  | char
  | peek
deriving DecidableEq, Repr

/-- Serves any want, with the answer as a text. -/
def Want.serve : Want → Stream → Option (String × Stream)
  | .chunk, s => s.takeChunk?
  | .char, s => s.takeChar?.map fun (c, s) => (c.toString, s)
  | .peek, s => s.peekChar?.map fun (c, s) => (c.toString, s)

/-- A read in progress. -/
structure Reader where
  want : Want
  ticket : Option Nat := none
deriving DecidableEq, Repr

end PocketShell
