import PocketShell.Run.Scene

/-!
# Programs

A program is what a command does: a tree of requests, each followed by what the command does with
the answer. Programs make a monad, so commands are written with `do`.

* `Program.relay` : the one loop. It reads standard input to its end and may write something for
  every chunk it gets;
* `Program.readAll` : standard input as one text;
* `Program.Steady` : a program that never pauses;
* `Suspended` : a program that waits;
* `Program.resume` : runs a program until it ends or has to wait.
-/

namespace PocketShell

/-- Why a relay ended: output was refused, or input came to an end or failed. -/
inductive Stop where
  | refused
  | ended (cause : Fault)
deriving DecidableEq, Repr

inductive Program (α : Type) where
  | done (result : α)
  /-- Writes to standard output; the answer says whether that was possible. -/
  | write (text : String) (k : Bool → Program α)
  /-- Writes to standard error. -/
  | complain (text : String) (k : Bool → Program α)
  /-- Reads from standard input. -/
  | read (want : Want) (k : Except Fault String → Program α)
  /-- Reads chunks from standard input until it ends, and for each writes what `render` makes of it,
  if anything. The answer is all the text `seen`, and why the relay ended. -/
  | relay (render : String → Option String) (seen : String) (k : String → Stop → Program α)
  /-- Looks at a stored file. -/
  | file (name : String) (k : Option String → Program α)
  /-- Stores a file, in place of one with the same name. -/
  | save (name text : String) (k : Unit → Program α)
  /-- Lets others get on. -/
  | pause (k : Unit → Program α)
  /-- Cancels the run. -/
  | cancel (k : Unit → Program α)

namespace Program

variable {α β : Type}

def bind (p : Program α) (f : α → Program β) : Program β :=
  match p with
  | done a => f a
  | write text k => write text fun ok => (k ok).bind f
  | complain text k => complain text fun ok => (k ok).bind f
  | read want k => read want fun answer => (k answer).bind f
  | relay render seen k => relay render seen fun text stop => (k text stop).bind f
  | file name k => file name fun content => (k content).bind f
  | save name text k => save name text fun _ => (k ()).bind f
  | pause k => pause fun _ => (k ()).bind f
  | cancel k => cancel fun _ => (k ()).bind f

instance : Monad Program where
  pure := done
  bind := bind

/-! ## Single requests -/

def say (text : String) : Program Bool := write text done

def sayError (text : String) : Program Bool := complain text done

/-- Standard input as one text. -/
def readAll : Program (Except Fault String) :=
  relay (fun _ => none) "" fun text stop =>
    match stop with
    | .ended cause => if cause.isEnd then done (.ok text) else done (.error cause)
    | .refused => done (.ok text)

/-- A program that never pauses. It may have to wait for its input all the same. -/
def Steady : Program α → Prop
  | done _ => True
  | write _ k => ∀ ok, (k ok).Steady
  | complain _ k => ∀ ok, (k ok).Steady
  | read _ k => ∀ answer, (k answer).Steady
  | relay _ _ k => ∀ text stop, (k text stop).Steady
  | file _ k => ∀ content, (k content).Steady
  | save _ _ k => (k ()).Steady
  | pause _ => False
  | cancel k => (k ()).Steady

end Program

/-! ## Running -/

/-- What a program waits for: nothing, its turn in a queue, or the next time it is looked at. -/
inductive Wait where
  | nothing
  | ticket (number : Nat)
  | paused
deriving DecidableEq, Repr

def Wait.ticket? : Wait → Option Nat
  | ticket number => some number
  | _ => none

/-- A program that waits in front of its first request. -/
structure Suspended (α : Type) where
  wait : Wait := .nothing
  program : Program α

/-- How far something that runs has come. Something `interrupted` wants to go on before anything
else does. -/
inductive Progress (σ α : Type) where
  | finished (result : α)
  | waiting (state : σ)
  | interrupted (state : σ)

namespace Program

variable {α : Type}

/-- Runs a program until it ends or has to wait. After a relay has read a chunk nothing is buffered,
so it asks only whether there will be more. -/
def resume : Program α → Wait → Scene → Scene × Progress (Suspended α) α
  | done result, _, sc => (sc, .finished result)
  | write text k, _, sc =>
    let (sc, ok) := sc.write text
    resume (k ok) .nothing sc
  | complain text k, _, sc =>
    let (sc, ok) := sc.complain text
    resume (k ok) .nothing sc
  | read want k, wait, sc =>
    let (stdin, c, out) := sc.stdin.poll want.serve sc.world.cancellation wait.ticket?
    let sc := { sc with stdin := stdin, world := { sc.world with cancellation := c } }
    match out with
    | .ready answer => resume (k answer) .nothing sc
    | .waiting number => (sc, .waiting ⟨.ticket number, read want k⟩)
  | relay render seen k, wait, sc =>
    let (stdin, c, out) := sc.stdin.poll Stream.takeChunk? sc.world.cancellation wait.ticket?
    let sc := { sc with stdin := stdin, world := { sc.world with cancellation := c } }
    match out with
    | .ready (.error cause) => resume (k seen (.ended cause)) .nothing sc
    | .waiting number => (sc, .waiting ⟨.ticket number, relay render seen k⟩)
    | .ready (.ok chunk) =>
      let seen := seen ++ chunk
      let (sc, ok) := ((render chunk).map sc.write).getD (sc, true)
      if ok then
        let (stdin, more) := sc.stdin.await sc.fired
        let sc := { sc with stdin := stdin }
        match more with
        | .error cause => resume (k seen (.ended cause)) .nothing sc
        | .ok number => (sc, .waiting ⟨.ticket number, relay render seen k⟩)
      else resume (k seen .refused) .nothing sc
  | file name k, _, sc => resume (k (sc.world.store.read? name)) .nothing sc
  | save name text k, _, sc => resume (k ()) .nothing { sc with world := sc.world.save name text }
  | pause k, wait, sc =>
    if wait = .paused then resume (k ()) .nothing sc else (sc, .waiting ⟨.paused, pause k⟩)
  | cancel k, _, sc => resume (k ()) .nothing { sc with world := sc.world.cancel }

end Program

namespace Suspended

variable {α : Type}

def resume (s : Suspended α) (sc : Scene) : Scene × Progress (Suspended α) α :=
  s.program.resume s.wait sc

/-- Whether a suspended program would get on if it were resumed. -/
def ready (s : Suspended α) (stdin : Stream) (fired : Bool) : Bool :=
  match s.wait with
  | .ticket number => stdin.calls fired number
  | _ => true

end Suspended

end PocketShell
