import PocketShell.Command.Registry
import PocketShell.Config.Options
import PocketShell.Run.Meaning
import PocketShell.Script.Parsing
import PocketShell.Text.Blank

/-!
# Shells

A shell runs scripts against an environment, files and commands of its own. What a script writes to
files stays; its input and its output are texts.

* `Shell.ofOptions` : a shell with the built-in commands;
* `Shell.exec` : runs a script.

The input of a script is there from the start, and a pipe is closed before anybody reads from it. So
no command ever waits, and a script is done when it has been polled once.
-/

namespace PocketShell

structure Shell where
  env : Bindings String := {}
  store : Store := {}
  registry : Registry := Registry.builtin
  /-- Whether scripts mind the cancellation. -/
  cancellable : Bool := false
  cancellation : Cancellation := {}

namespace Shell

/-- The environment of a shell that is told nothing. -/
def defaultEnv : Bindings String :=
  Bindings.ofList [("HOME", "/home/user"), ("PATH", "/usr/bin:/bin")]

def ofOptions (options : Options) : Shell where
  env := defaultEnv.insertAll options.env.entries
  store := Store.ofList options.files.entries

/-- Adds a command, in place of one with the same name. -/
def register (sh : Shell) (c : Command) : Shell := { sh with registry := sh.registry.register c }

def setEnv (sh : Shell) (name value : String) : Shell :=
  { sh with env := sh.env.insert name value }

def file? (sh : Shell) (name : String) : Option String := sh.store.read? name

def writeFile (sh : Shell) (name text : String) : Shell :=
  { sh with store := sh.store.write name text }

def cancel (sh : Shell) : Shell := { sh with cancellation := sh.cancellation.fire }

/-! ## Running -/

/-- The status of a command that the shell does not know. -/
def commandNotFound : Int := 127

/-- The status of a script that cannot be read. -/
def syntaxFailure : Int := 2

/-- Writes what a command reports to the standard streams. -/
def report (r : Command.Result) : Program Int := do
  if !r.stdout.isEmpty then let _ ← Program.say r.stdout
  if !r.stderr.isEmpty then let _ ← Program.sayError r.stderr
  return r.exitCode

def execute (sh : Shell) (name : String) (args : List String) : Program Int :=
  match sh.registry.get? name with
  | some c => (c.run sh.env args).bind report
  | none => do
    let _ ← Program.sayError ("bashlet: " ++ name ++ ": command not found\n")
    return commandNotFound

def host (sh : Shell) : Host where
  exec argv := sh.execute (argv.headD "") argv.tail
  env name := (sh.env.get? name).getD ""

/-- The scene in which a script starts. -/
def scene (sh : Shell) (input : String) : Scene where
  stdin := Stream.ofText input
  world := { store := sh.store, cancellation := sh.cancellation }

/-- Runs statements; nothing comes out if they had to wait. -/
def run (sh : Shell) (ts : List Tree) (input : String) : Shell × Option Command.Result :=
  let (sc, progress) := (Tree.statements sh.cancellable ts 0 .exit).poll sh.host (sh.scene input)
  let sh := { sh with store := sc.world.store, cancellation := sc.world.cancellation }
  match progress with
  | .finished status =>
    (sh, some {
      stdout := sc.stdout.toStream.drain.1
      stderr := sc.stderr.drain.1
      exitCode := status })
  | _ => (sh, none)

/-- What a script that cannot be read reports. -/
def syntaxComplaint (e : SyntaxError) : Command.Result where
  stderr := "bashlet: syntax error: " ++ e.message ++ "\n"
  exitCode := syntaxFailure

/-- Reads a script and runs it. -/
def interpret (sh : Shell) (script input : String) : Shell × Option Command.Result :=
  match Forest.parse (Source.ofText script) with
  | .error .blocked => (sh, none)
  | .error (.wrong e) => (sh, some (syntaxComplaint e))
  | .ok f => sh.run f.statements input

/-- Runs a script, if it holds anything but blanks. -/
def exec (sh : Shell) (script : String) (input : String := "") : Shell × Option Command.Result :=
  if Text.isAllBlank script.toList then (sh, some {}) else sh.interpret script input

end Shell

end PocketShell
