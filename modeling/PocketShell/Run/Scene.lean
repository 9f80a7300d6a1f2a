import PocketShell.Files.Store

/-!
# Scenes

What a running command acts on.

* `World` : the stored files, the cancellation, and the calls made to the host so far;
* `Sink` : where output goes, a stream or an open file;
* `Scene` : the three standard streams and the world.
-/

namespace PocketShell

/-- A call of a script to its host. -/
inductive Call where
  | exec (argv : List String)
  | exit (name : String) (status : Int)
  | env (name : String)
  | getFile (name : String)
deriving DecidableEq, Repr

structure World where
  store : Store := {}
  cancellation : Cancellation := {}
  /-- The calls to the host, newest first. -/
  calls : List Call := []

namespace World

def record (w : World) (call : Call) : World := { w with calls := call :: w.calls }

def cancel (w : World) : World := { w with cancellation := w.cancellation.fire }

def save (w : World) (name text : String) : World := { w with store := w.store.write name text }

end World

inductive Sink where
  | stream (s : Stream)
  | file (f : OpenFile)

/-- The stream of a sink. -/
def Sink.toStream : Sink → Stream
  | stream s => s
  | file f => f.stream

/-- Writes to a sink; what goes to a file goes to the store as well. -/
def Sink.write (store : Store) (text : String) : Sink → Except Fault (Sink × Store)
  | stream s => (s.write text).map (.stream ·, store)
  | file f => (f.write store text).map fun (f, store) => (.file f, store)

structure Scene where
  stdin : Stream := {}
  stdout : Sink := .stream {}
  stderr : Stream := {}
  world : World := {}

namespace Scene

def fired (sc : Scene) : Bool := sc.world.cancellation.fired

/-- Writes to standard output, and says whether that was possible. -/
def write (sc : Scene) (text : String) : Scene × Bool :=
  match sc.stdout.write sc.world.store text with
  | .ok (sink, store) => ({ sc with stdout := sink, world := { sc.world with store := store } }, true)
  | .error _ => (sc, false)

/-- Writes to standard error, and says whether that was possible. -/
def complain (sc : Scene) (text : String) : Scene × Bool :=
  match sc.stderr.write text with
  | .ok s => ({ sc with stderr := s }, true)
  | .error _ => (sc, false)

def record (sc : Scene) (call : Call) : Scene := { sc with world := sc.world.record call }

end Scene

end PocketShell
