import PocketShell.CommandLine

/-!
# The program

The outer layer: files, standard input and the environment of the process.
-/

namespace PocketShell

/-- The number of a system error, which may come with either sign. -/
def errorNumber (code : UInt32) : Nat := min code.toNat (0 - code).toNat

/-- Why a file cannot be read. -/
def problemOf (e : IO.Error) : String :=
  match e with
  | .noFileOrDirectory .. => Refusal.missing.message
  | .inappropriateType _ code _ =>
    if errorNumber code = 20 then Refusal.notDirectory.message else Refusal.isDirectory.message
  | .invalidArgument _ code _ =>
    if errorNumber code = 36 then Refusal.nameTooLong.message else toString e
  | _ => toString e

/-- The result of an action, or why it failed. -/
def attempt {α : Type} (action : IO α) : IO (Except String α) := do
  match ← action.toBaseIO with
  | .ok a => return .ok a
  | .error e => return .error (problemOf e)

/-- Standard input to its end. -/
def readStdin : IO (Except String String) := do
  let stdin ← IO.getStdin
  if ← stdin.isTty then
    return .error ("No script provided. Use -c 'script', provide a script file, " ++
      "or pipe via stdin.")
  match ← attempt (IO.FS.Stream.readToEnd stdin) with
  | .ok text => return .ok text
  | .error problem => return .error ("Cannot read stdin: " ++ problem)

def processEnvironment : IO (List String) := do
  match ← attempt (IO.FS.readFile "/proc/self/environ") with
  | .ok text => return text.splitOn "\x00"
  | .error _ => return []

def processSurroundings : Surroundings IO where
  readFile path := attempt (IO.FS.readFile path)
  readInput := readStdin
  environment := processEnvironment

end PocketShell

def main (args : List String) : IO UInt32 := do
  let outcome ← PocketShell.CommandLine.run PocketShell.processSurroundings args
  IO.print outcome.stdout
  IO.eprint outcome.stderr
  return outcome.code.toUInt32
