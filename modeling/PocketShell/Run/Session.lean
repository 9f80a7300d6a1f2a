import PocketShell.Run.Meaning
import PocketShell.Source

/-!
# Sessions

A session runs something to its end while events happen to its standard input. It is polled as long
as it gets on; when it does not, the next event takes place.

* `Session.drive` : with a bound on the number of polls;
* `Session.job`, `Session.program` : for a job and for a single program.
-/

namespace PocketShell

namespace Session

/-- How a session ended. -/
inductive Ending (α : Type) where
  | finished (result : α)
  /-- It waits, and no event is left. -/
  | blocked
  /-- The bound on the number of polls was too low. -/
  | exhausted

def applyEvent (e : Event) (sc : Scene) : Scene :=
  let (stdin, c) := e.apply sc.stdin sc.world.cancellation
  { sc with stdin := stdin, world := { sc.world with cancellation := c } }

variable {σ α : Type}

/-- Polls at most `n` times. Gives the scene at the end, and the events that did not take place. -/
def drive (poll : σ → Scene → Scene × Progress σ α) (ready : σ → Stream → Bool → Bool) :
    Nat → σ → Scene → List Event → Scene × List Event × Ending α
  | 0, _, sc, events => (sc, events, .exhausted)
  | n + 1, state, sc, events =>
    match poll state sc with
    | (sc, .finished result) => (sc, events, .finished result)
    | (sc, .interrupted state) => drive poll ready n state sc events
    | (sc, .waiting state) =>
      if ready state sc.stdin sc.fired then drive poll ready n state sc events
      else
        match events with
        | [] => (sc, [], .blocked)
        | e :: events => drive poll ready n state (applyEvent e sc) events

def job (host : Host) (n : Nat) (p : Job) (sc : Scene) (events : List Event) :
    Scene × List Event × Ending Int :=
  drive (Job.poll host) Job.ready n p sc events

def program (n : Nat) (p : Program α) (sc : Scene) (events : List Event) :
    Scene × List Event × Ending α :=
  drive Suspended.resume Suspended.ready n { program := p } sc events

/-- Runs jobs one after the other and collects their statuses. -/
def jobs (host : Host) (n : Nat) :
    List Job → Scene → List Event → Scene × List Event × Ending (List Int)
  | [], sc, events => (sc, events, .finished [])
  | p :: ps, sc, events =>
    match job host n p sc events with
    | (sc, events, .finished status) =>
      match jobs host n ps sc events with
      | (sc, events, .finished statuses) => (sc, events, .finished (status :: statuses))
      | other => other
    | (sc, events, .blocked) => (sc, events, .blocked)
    | (sc, events, .exhausted) => (sc, events, .exhausted)

end Session

end PocketShell
