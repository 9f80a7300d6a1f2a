import PocketShell.Shell

/-!
# Scripts, one step after the other

The plain meaning of a script: every part is done before the next one begins. There are no streams
here and nothing waits; input and output are texts.

* `Sequential.State` : what is left of the input, what has been written, and the files;
* `Sequential.perform` : what a command does;
* `Sequential.eval` : what a part of a script does. `l | r` does all of `l` first, then `r` with the
  output of `l` as its input, and reports the status of `l`;
* `Sequential.run` : what a shell does with statements.
-/

namespace PocketShell.Sequential

structure State where
  /-- Standard input that has not been read. -/
  input : String
  /-- What is in the buffer, or in the file, that standard output goes to. -/
  output : String := ""
  errors : String := ""
  store : Store
  cancellation : Cancellation

namespace State

/-- Writes to standard output. What goes to a file is stored under its name at once. -/
def write (dest : Option String) (s : State) (text : String) : State :=
  match dest with
  | none => { s with output := s.output ++ text }
  | some name =>
    { s with
      output := s.output ++ text
      store := ⟨s.store.files.insert name (s.output ++ text)⟩ }

/-- Writes a text, if there is one. -/
def writeSome (dest : Option String) (s : State) : Option String → State
  | none => s
  | some text => s.write dest text

def complain (s : State) (text : String) : State := { s with errors := s.errors ++ text }

/-- Reads from standard input. -/
def read (s : State) (want : Want) : State × Except Fault String :=
  match want, s.input.toList with
  | _, [] => (s, .error .endOfStream)
  | .chunk, _ => ({ s with input := "" }, .ok s.input)
  | .char, c :: cs => ({ s with input := String.ofList cs }, .ok c.toString)
  | .peek, c :: _ => (s, .ok c.toString)

/-- Does something with its output in a new buffer, and gives what it has written. -/
def capture (act : State → State × Int) (s : State) : State × String × Int :=
  let (inner, status) := act { s with output := "" }
  ({ inner with output := s.output }, inner.output, status)

/-- Does something with another text as its input. -/
def feed (text : String) (act : State → State × Int) (s : State) : State × Int :=
  let (inner, status) := act { s with input := text }
  ({ inner with input := s.input }, status)

/-- Lets standard output go to a file, after what is there already unless it is overwritten. -/
def openFile (overwrite : Bool) (key : String) (s : State) : State :=
  if overwrite then { s with output := "", store := ⟨s.store.files.insert key ""⟩ }
  else { s with output := (s.store.files.get? key).getD "" }

/-- Does something with its output in the file of that name. -/
def divert (overwrite : Bool) (name : String) (act : String → State → State × Int) (s : State) :
    State × Int :=
  let key := FileName.normalize name
  let (inner, status) := act key (s.openFile overwrite key)
  ({ inner with output := s.output }, status)

end State

/-! ## Commands -/

variable {α : Type}

/-- Does what a command asks for, request by request. -/
def perform (dest : Option String) : Program α → State → State × α
  | .done result, s => (s, result)
  | .write text k, s => perform dest (k true) (s.write dest text)
  | .complain text k, s => perform dest (k true) (s.complain text)
  | .read want k, s =>
    let (s, answer) := s.read want
    perform dest (k answer) s
  | .relay render seen k, s =>
    if s.input.isEmpty then perform dest (k seen (.ended .endOfStream)) s
    else
      let taken := { s with input := "" }
      perform dest (k (seen ++ s.input) (.ended .endOfStream))
        (taken.writeSome dest (render s.input))
  | .file name k, s => perform dest (k (s.store.read? name)) s
  | .save name text k, s => perform dest (k ()) { s with store := s.store.write name text }
  | .pause k, s => perform dest (k ()) s
  | .cancel k, s => perform dest (k ()) { s with cancellation := s.cancellation.fire }

/-- Runs a command, unless the run is cancelled and minds that. -/
def launch (host : Host) (cancellable : Bool) (dest : Option String) (argv : List String)
    (s : State) : State × Int :=
  if cancellable && s.cancellation.fired then (s, cancelledStatus)
  else perform dest (host.exec argv) s

/-! ## Scripts -/

/-- The value of a variable; a `$` without a name stands for itself. -/
def variableText (host : Host) (name : String) : String :=
  if name.isEmpty then "$" else host.env name

mutual

/-- Does one part of a script. Its output goes to a buffer, or to the file `dest`. -/
def eval (host : Host) (cancellable : Bool) : Tree → Option String → State → State × Int
  | .seq .script body, dest, s | .seq (.group _) body, dest, s =>
    evalAll host cancellable body dest 0 s
  | .seq (.command false) body, dest, s =>
    match evalGroup? host cancellable body dest s with
    | some done => done
    | none =>
      let (s, parts, status) := segments host cancellable body s
      match Words.split parts with
      | [] => (s, status.getD 0)
      | argv => launch host cancellable dest argv s
  | .seq (.command true) body, dest, s =>
    let (s, parts, _) := segments host cancellable body s
    (s.write dest (Words.join parts), 0)
  | .seq .dblQuote body, dest, s =>
    let (s, text) := expandAll host cancellable body s
    (s.write dest text, 0)
  | .seq (.sub _ _) body, dest, s =>
    let (s, text, status) := s.capture (evalAll host cancellable body none 0)
    (s.write dest (Tree.chomp text), status)
  | .join .pipe left right, dest, s =>
    let (s, text, status) := s.capture (eval host cancellable left none)
    let (s, _) := s.feed text (eval host cancellable right dest)
    (s, status)
  | .join .and left right, dest, s =>
    let (s, status) := eval host cancellable left dest s
    if status = 0 then eval host cancellable right dest s else (s, status)
  | .join .or left right, dest, s =>
    let (s, status) := eval host cancellable left dest s
    if status ≠ 0 then eval host cancellable right dest s else (s, status)
  | .join .write left right, _, s =>
    let (s, name, _) := s.capture (eval host cancellable right none)
    if name.isEmpty then (s, Tree.redirectFailed)
    else s.divert true name fun key => eval host cancellable left (some key)
  | .join .append left right, _, s =>
    let (s, name, _) := s.capture (eval host cancellable right none)
    if name.isEmpty then (s, Tree.redirectFailed)
    else s.divert false name fun key => eval host cancellable left (some key)
  | .join .read left right, dest, s =>
    let (s, name, _) := s.capture (eval host cancellable right none)
    if name.isEmpty then (s, Tree.redirectFailed)
    else s.feed ((s.store.read? name).getD "") (eval host cancellable left dest)
  | .join .readStr left right, dest, s =>
    let (s, text, _) := s.capture (eval host cancellable right none)
    s.feed text (eval host cancellable left dest)
  | .dangling _ _, _, s => (s, 1)
  | .leaf (.ident text), dest, s | .leaf (.whitespace text), dest, s
  | .leaf (.quote text), dest, s => (s.write dest text, 0)
  | .leaf (.var name), dest, s => (s.write dest (variableText host name), 0)
  | .leaf .comment, _, s => (s, 0)

/-- Does statements in order; `status` is the status so far. -/
def evalAll (host : Host) (cancellable : Bool) :
    List Tree → Option String → Int → State → State × Int
  | [], _, status, s => (s, status)
  | t :: ts, dest, _, s =>
    let (s, status) := eval host cancellable t dest s
    evalAll host cancellable ts dest status s

/-- Does the first group among the parts of a command, if there is one. -/
def evalGroup? (host : Host) (cancellable : Bool) :
    List Tree → Option String → State → Option (State × Int)
  | [], _, _ => none
  | .seq (.group closed) body :: _, dest, s =>
    some (eval host cancellable (.seq (.group closed) body) dest s)
  | _ :: ts, dest, s => evalGroup? host cancellable ts dest s

/-- The parts of a command, and the status of its last substitution. -/
def segments (host : Host) (cancellable : Bool) :
    List Tree → State → State × List Segment × Option Int
  | [], s => (s, [], none)
  | .leaf (.whitespace _) :: ts, s | .leaf .comment :: ts, s =>
    let (s, parts, status) := segments host cancellable ts s
    (s, .gap :: parts, status)
  | .leaf (.ident text) :: ts, s | .leaf (.quote text) :: ts, s =>
    let (s, parts, status) := segments host cancellable ts s
    (s, .literal text :: parts, status)
  | .leaf (.var name) :: ts, s =>
    let (s, parts, status) := segments host cancellable ts s
    (s, .expansion (variableText host name) :: parts, status)
  | .seq .dblQuote body :: ts, s =>
    let (s, text) := expandAll host cancellable body s
    let (s, parts, status) := segments host cancellable ts s
    (s, .literal text :: parts, status)
  | .seq (.sub _ quoted) body :: ts, s =>
    let (s, text, status) := s.capture (evalAll host cancellable body none 0)
    let text := Tree.chomp text
    let (s, parts, later) := segments host cancellable ts s
    (s, (if quoted then .literal text else .expansion text) :: parts, later.or (some status))
  | _ :: ts, s => segments host cancellable ts s

/-- The text of a part inside double quotes. -/
def expand (host : Host) (cancellable : Bool) : Tree → State → State × String
  | .leaf (.ident text), s | .leaf (.whitespace text), s | .leaf (.quote text), s => (s, text)
  | .leaf (.var name), s => (s, variableText host name)
  | .seq .dblQuote body, s => expandAll host cancellable body s
  | .seq (.sub _ _) body, s =>
    let (s, text, _) := s.capture (evalAll host cancellable body none 0)
    (s, Tree.chomp text)
  | _, s => (s, "")

def expandAll (host : Host) (cancellable : Bool) : List Tree → State → State × String
  | [], s => (s, "")
  | t :: ts, s =>
    let (s, text) := expand host cancellable t s
    let (s, rest) := expandAll host cancellable ts s
    (s, text ++ rest)

end

/-! ## Shells -/

/-- The state in which a script starts. -/
def initial (sh : Shell) (input : String) : State where
  input := input
  store := sh.store
  cancellation := sh.cancellation

/-- Does statements for a shell. -/
def run (sh : Shell) (ts : List Tree) (input : String) : Shell × Command.Result :=
  let (s, status) := evalAll sh.host sh.cancellable ts none 0 (initial sh input)
  ({ sh with store := s.store, cancellation := s.cancellation },
    { stdout := s.output, stderr := s.errors, exitCode := status })

end PocketShell.Sequential
