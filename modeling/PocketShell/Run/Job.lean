import PocketShell.Run.Program

/-!
# Jobs

A job is a script while it runs. Every part that has streams of its own (a pipe, a
substitution, a redirection) keeps them in the job, so a stream can only be reached from the
part that owns it.

* `Host` : what a script runs against;
* `Frame` : output or input taken from the part around it;
* `Job` : what is still to be done, in the middle of a pipe as well;
* `Job.poll` : gets on with a job until it ends or has to wait;
* `Job.ready` : whether a poll would get on at all.

The left side of a pipe is polled before the right side. The side that ends first gives the status
and closes the pipe, and the other side is polled again at once. Where that is the left side, which
has been polled before, the poll is *interrupted*: the job says from where to go on, and must be
polled again before anything else happens.
-/

namespace PocketShell

/-- What a script runs against. `exec` is asked for a non-empty list of words. -/
structure Host where
  exec : List String → Program Int
  env : String → String
  /-- Which files are handed out closed. -/
  sealed : String → Bool := fun _ => false

/-- The status of a command that was not started because the run was cancelled. -/
def cancelledStatus : Int := 130

/-! ## Frames -/

inductive Frame where
  | output (sink : Sink)
  | input (source : Stream)

namespace Frame

/-- The scene inside a frame. -/
def enter (sc : Scene) : Frame → Scene
  | output sink => { sc with stdout := sink }
  | input source => { sc with stdin := source }

/-- The frame and the scene around it, when the scene inside has become `inner`. -/
def leave (outer inner : Scene) : Frame → Frame × Scene
  | output _ => (output inner.stdout, { inner with stdout := outer.stdout })
  | input _ => (input inner.stdin, { inner with stdin := outer.stdin })

/-- The input that is read inside a frame. -/
def inputWith (stdin : Stream) : Frame → Stream
  | output _ => stdin
  | input source => source

/-- The stream that a frame owns. -/
def stream : Frame → Stream
  | output sink => sink.toStream
  | input source => source

/-- Everything that has been written to a frame and not been read. -/
def text (f : Frame) : String := f.stream.drain.1

end Frame

/-! ## Jobs -/

inductive Side where
  | left
  | right
deriving DecidableEq, Repr

inductive Job where
  | exit (status : Int)
  /-- Writes to standard output, whether or not that is possible. -/
  | emit (text : String) (k : Job)
  | lookup (name : String) (k : String → Job)
  /-- Opens a file, and empties it if it is to be overwritten. -/
  | openFile (name : String) (overwrite : Bool) (k : OpenFile → Job)
  /-- Starts a command, unless the run is cancelled and minds that. -/
  | exec (cancellable : Bool) (argv : List String) (k : Int → Job)
  /-- A command that has been started. -/
  | command (name : String) (state : Suspended Int) (k : Int → Job)
  | within (frame : Frame) (inner : Job) (k : Frame → Int → Job)
  /-- The side that is polled next is `turn`. -/
  | pipe (turn : Side) (buffer : Stream) (left right : Job) (k : Int → Job)
  /-- A pipe of which one side has ended with `status`; `side` is the other one. -/
  | settle (side : Side) (status : Int) (buffer : Stream) (rest : Job) (k : Int → Job)

namespace Job

/-- The scene of one side of a pipe. -/
def sideScene (sc : Scene) (buffer : Stream) : Side → Scene
  | .left => { sc with stdout := .stream buffer }
  | .right => { sc with stdin := buffer }

/-- The buffer of a pipe and the scene around it, when the scene of one side has become `inner`. -/
def leaveSide (outer inner : Scene) : Side → Stream × Scene
  | .left => (inner.stdout.toStream, { inner with stdout := outer.stdout })
  | .right => (inner.stdin, { inner with stdin := outer.stdin })

/-- How a pipe goes on after its right side has been polled while its left side waits. -/
def afterRight (outer : Scene) (left : Job) (k : Int → Job) :
    Scene × Progress Job Int → Scene × Progress Job Int
  | (inner, progress) =>
    let (buffer, sc) := leaveSide outer inner .right
    match progress with
    | .finished status => (sc, .interrupted (settle .left status buffer.shut left k))
    | .waiting right => (sc, .waiting (pipe .left buffer left right k))
    | .interrupted right => (sc, .interrupted (pipe .right buffer left right k))

/-- The file that the host hands out for a name. -/
def handOut (host : Host) (sc : Scene) (name : String) (overwrite : Bool) : Scene × OpenFile :=
  let sc := sc.record (.getFile name)
  let file := sc.world.store.openFile name
  let file := if host.sealed name then file.shut else file
  if overwrite then
    match file.clear sc.world.store with
    | .ok (file, store) => ({ sc with world := { sc.world with store := store } }, file)
    | .error _ => (sc, file)
  else (sc, file)

def poll (host : Host) : Job → Scene → Scene × Progress Job Int
  | exit status, sc => (sc, .finished status)
  | emit text k, sc => poll host k (sc.write text).1
  | lookup name k, sc => poll host (k (host.env name)) (sc.record (.env name))
  | openFile name overwrite k, sc =>
    let (sc, file) := handOut host sc name overwrite
    poll host (k file) sc
  | exec cancellable argv k, sc =>
    if cancellable && sc.fired then poll host (k cancelledStatus) sc
    else
      let name := argv.headD ""
      match (host.exec argv).resume .nothing (sc.record (.exec argv)) with
      | (sc, .finished status) => poll host (k status) (sc.record (.exit name status))
      | (sc, .waiting state) => (sc, .waiting (command name state k))
      | (sc, .interrupted state) => (sc, .interrupted (command name state k))
  | command name state k, sc =>
    match state.resume sc with
    | (sc, .finished status) => poll host (k status) (sc.record (.exit name status))
    | (sc, .waiting state) => (sc, .waiting (command name state k))
    | (sc, .interrupted state) => (sc, .interrupted (command name state k))
  | within frame inner k, outer =>
    let (sc, progress) := poll host inner (frame.enter outer)
    let (frame, sc) := frame.leave outer sc
    match progress with
    | .finished status => poll host (k frame status) sc
    | .waiting inner => (sc, .waiting (within frame inner k))
    | .interrupted inner => (sc, .interrupted (within frame inner k))
  | pipe .left buffer left right k, outer =>
    let (sc, progress) := poll host left (sideScene outer buffer .left)
    let (buffer, sc) := leaveSide outer sc .left
    match progress with
    | .finished status =>
      let (inner, progress) := poll host right (sideScene sc buffer.shut .right)
      let (buffer, sc) := leaveSide sc inner .right
      match progress with
      | .finished _ => poll host (k status) sc
      | .waiting right => (sc, .waiting (settle .right status buffer right k))
      | .interrupted right => (sc, .interrupted (settle .right status buffer right k))
    | .waiting left => afterRight sc left k (poll host right (sideScene sc buffer .right))
    | .interrupted left => (sc, .interrupted (pipe .left buffer left right k))
  | pipe .right buffer left right k, sc =>
    afterRight sc left k (poll host right (sideScene sc buffer .right))
  | settle side status buffer rest k, outer =>
    let (inner, progress) := poll host rest (sideScene outer buffer side)
    let (buffer, sc) := leaveSide outer inner side
    match progress with
    | .finished _ => poll host (k status) sc
    | .waiting rest => (sc, .waiting (settle side status buffer rest k))
    | .interrupted rest => (sc, .interrupted (settle side status buffer rest k))

/-- Whether a job would get on if it were polled with this standard input. -/
def ready : Job → Stream → Bool → Bool
  | command _ state _, stdin, fired => state.ready stdin fired
  | within frame inner _, stdin, fired => ready inner (frame.inputWith stdin) fired
  | pipe _ buffer left right _, stdin, fired => ready left stdin fired || ready right buffer fired
  | settle .left _ _ rest _, stdin, fired => ready rest stdin fired
  | settle .right _ buffer rest _, _, fired => ready rest buffer fired
  | _, _, _ => true

end Job

end PocketShell
