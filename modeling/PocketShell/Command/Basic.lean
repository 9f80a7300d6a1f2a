import PocketShell.Bindings
import PocketShell.Run.Program

/-!
# What commands have in common

* `Command.Result` : what a command reports when it ends. A command that passes text on while it
  runs writes it itself and leaves `stdout` empty;
* `Command.readInput` : the text of an input, `-` being standard input.
-/

namespace PocketShell.Command

structure Result where
  stdout : String := ""
  stderr : String := ""
  exitCode : Int := 0
deriving DecidableEq, Repr

def success (stdout : String) : Result := { stdout := stdout }

def failure (stderr : String) : Result := { stderr := stderr, exitCode := 1 }

/-- The complaint of a command about an input. -/
def complaint (command input problem : String) : String :=
  command ++ ": " ++ input ++ ": " ++ problem ++ "\n"

/-- The complaint of a command about a word that begins with `-`. -/
def invalidOption (command arg : String) : Result :=
  failure (command ++ ": invalid option -- '" ++ String.ofList (arg.toList.drop 1) ++ "'\n")

/-- Whether a word can only be an option. -/
def looksLikeOption (arg : String) : Bool := arg.toList.head? = some '-' && arg != "-"

/-- What can be wrong with an input. -/
inductive Trouble where
  | missing
  | unreadable (cause : Fault)
deriving DecidableEq, Repr

def Trouble.message (command input : String) : Trouble → String
  | missing => complaint command input "No such file or directory"
  | unreadable cause => complaint command input cause.message

/-- An input as a text. -/
def readInput (input : String) : Program (Except Trouble String) :=
  if input = "-" then
    Program.readAll.bind fun
      | .ok text => return .ok text
      | .error cause => return .error (.unreadable cause)
  else
    .file input fun
      | some text => return .ok text
      | none => return .error .missing

end PocketShell.Command
