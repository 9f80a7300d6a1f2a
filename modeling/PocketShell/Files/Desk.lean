import PocketShell.Files.Store

/-!
# Files and many handles

`Desk` is a store with any number of handles open on it, numbered in the order of opening.
`Desk.step` performs one operation, on the store or through a handle, and says what came of it.
-/

namespace PocketShell

structure Desk where
  store : Store := {}
  handles : List OpenFile := []
deriving DecidableEq, Repr

namespace Desk

inductive Op where
  | read (name : String)
  | write (name text : String)
  | contains (name : String)
  | remove (name : String)
  | openFile (name : String)
  /-- Makes a handle that the store does not know. -/
  | detached (name text : String)
  | writeTo (handle : Nat) (text : String)
  | clear (handle : Nat)
  | close (handle : Nat)
  /-- Polls a reader once and drops it. -/
  | readFrom (handle : Nat) (want : Want)
deriving DecidableEq, Repr

inductive Answer where
  | done
  | flag (value : Bool)
  | text? (value : Option String)
  | handle (number : Nat)
  | fault (cause : Fault)
  | pending
  /-- There is no handle of that number. -/
  | nobody
deriving DecidableEq, Repr

def setHandle (d : Desk) (handle : Nat) (f : OpenFile) : Desk :=
  { d with handles := d.handles.set handle f }

def addHandle (d : Desk) (f : OpenFile) : Desk × Answer :=
  ({ d with handles := d.handles ++ [f] }, .handle d.handles.length)

/-- The outcome of an operation through a handle. -/
def through (d : Desk) (handle : Nat) (act : OpenFile → Except Fault (OpenFile × Store)) :
    Desk × Answer :=
  match d.handles[handle]? with
  | none => (d, .nobody)
  | some f =>
    match act f with
    | .ok (f, store) => ({ d.setHandle handle f with store := store }, .done)
    | .error cause => (d, .fault cause)

/-- The outcome of one read through a handle. A reader that has to wait is dropped at once. -/
def readThrough (d : Desk) (handle : Nat) (want : Want) : Desk × Answer :=
  match d.handles[handle]? with
  | none => (d, .nobody)
  | some f =>
    match f.stream.poll want.serve {} none with
    | (stream, _, .ready (.ok text)) =>
      (d.setHandle handle { f with stream := stream }, .text? (some text))
    | (stream, _, .ready (.error cause)) =>
      (d.setHandle handle { f with stream := stream }, .fault cause)
    | (stream, _, .waiting ticket) =>
      (d.setHandle handle { f with stream := stream.abandon ticket }, .pending)

def step (d : Desk) : Op → Desk × Answer
  | .read name => (d, .text? (d.store.read? name))
  | .write name text => ({ d with store := d.store.write name text }, .done)
  | .contains name => (d, .flag (d.store.contains name))
  | .remove name => ({ d with store := d.store.remove name }, .text? (d.store.read? name))
  | .openFile name => d.addHandle (d.store.openFile name)
  | .detached name text => d.addHandle (OpenFile.detached name text)
  | .writeTo handle text => d.through handle (·.write d.store text)
  | .clear handle => d.through handle (·.clear d.store)
  | .close handle => d.through handle fun f => f.close.map (·, d.store)
  | .readFrom handle want => d.readThrough handle want

end Desk

end PocketShell
