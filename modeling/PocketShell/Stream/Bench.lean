import PocketShell.Stream.Reader

/-!
# A stream with many readers

`Bench` is a stream together with a table of named readers, each of them polled only when asked
for. `Bench.step` performs one operation and says what came of it.
-/

namespace PocketShell

structure Bench where
  stream : Stream := {}
  cancellation : Cancellation := {}
  readers : List (String × Reader) := []

namespace Bench

inductive Op where
  | write (text : String)
  | close
  | isClosed
  | readNow
  | cancel
  /-- Starts a reader under a name and polls it once; a reader of that name is dropped before. -/
  | start (name : String) (want : Want)
  | poll (name : String)
  | drop (name : String)
deriving DecidableEq, Repr

inductive Answer where
  | done
  | flag (value : Bool)
  | text (value : String)
  | fault (cause : Fault)
  | pending
  /-- There is no reader of that name. -/
  | nobody
deriving DecidableEq, Repr

def reader? (b : Bench) (name : String) : Option Reader := b.readers.lookup name

def forget (b : Bench) (name : String) : Bench :=
  { b with readers := b.readers.filter (·.1 ≠ name) }

/-- Drops the reader of that name. Its place in the queue stays, with nobody behind it. -/
def dropReader (b : Bench) (name : String) : Bench :=
  match (b.reader? name).bind (·.ticket) with
  | some ticket => { b.forget name with stream := b.stream.abandon ticket }
  | none => b.forget name

/-- Polls a reader and keeps it under its name while it waits. -/
def pollReader (b : Bench) (name : String) (r : Reader) : Bench × Answer :=
  let (stream, cancellation, out) := b.stream.poll r.want.serve b.cancellation r.ticket
  let b := { b.forget name with stream := stream, cancellation := cancellation }
  match out with
  | .ready (.ok text) => (b, .text text)
  | .ready (.error cause) => (b, .fault cause)
  | .waiting ticket =>
    ({ b with readers := (name, { r with ticket := some ticket }) :: b.readers }, .pending)

def step (b : Bench) : Op → Bench × Answer
  | .write text =>
    match b.stream.write text with
    | .ok s => ({ b with stream := s }, .done)
    | .error cause => (b, .fault cause)
  | .close =>
    match b.stream.close with
    | .ok s => ({ b with stream := s }, .done)
    | .error cause => (b, .fault cause)
  | .isClosed => (b, .flag b.stream.closed)
  | .readNow =>
    match b.stream.readNow with
    | .ok (text, s) => ({ b with stream := s }, .text text)
    | .error cause => (b, .fault cause)
  | .cancel => ({ b with cancellation := b.cancellation.fire }, .done)
  | .start name want => (b.dropReader name).pollReader name { want := want }
  | .poll name =>
    match b.reader? name with
    | some r => b.pollReader name r
    | none => (b, .nobody)
  | .drop name => (b.dropReader name, .done)

end Bench

end PocketShell
