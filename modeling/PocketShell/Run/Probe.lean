import PocketShell.Bindings
import PocketShell.Run.Job
import PocketShell.Text.Numeral

/-!
# The probing host

A host with small commands that make every turn of a run visible: they write, read in pieces, let
others get on, or cancel the run. Names that begin with `closed` give files that are closed.
-/

namespace PocketShell.Probe

/-- The status of a command that could not write. -/
def unwritten : Int := 4

def written (ok : Bool) : Int := if ok then 0 else unwritten

/-- The status of a command whose read failed. -/
def unread (atEnd : Int) (cause : Fault) : Int := if cause.isEnd then atEnd else 5

/-- The first argument as a number of 32 bits. -/
def number? (args : List String) : Option Int :=
  args.head?.bind fun arg => Numeral.toInt? 32 10 arg.toList

/-- How often a command repeats itself: once, unless it is told. -/
def count (args : List String) : Nat := ((number? args).getD 1).toNat

def pauses : Nat → Program Int
  | 0 => .done 0
  | n + 1 => .pause fun _ => pauses n

/-- Reads characters one by one and writes each. -/
def characters (name : String) (want : Want) : Nat → Program Int
  | 0 => .done 0
  | n + 1 =>
    .read want fun
      | .ok c => .write c fun _ => characters name want n
      | .error cause =>
        .complain (name ++ ": " ++ cause.message ++ "\n") fun _ => .done (unread 6 cause)

def copy : Program Int :=
  .relay (fun chunk => some ("<" ++ chunk ++ ">")) "" fun _ stop =>
    match stop with
    | .refused => .done unwritten
    | .ended cause => .done (unread 0 cause)

def command (name : String) (args : List String) : Program Int :=
  match name with
  | "true" => .done 0
  | "false" => .done 1
  | "status" => .done ((number? args).getD 255)
  | "echo" => .write (" ".intercalate args ++ "\n") fun ok => .done (written ok)
  | "out" => .write (String.join args) fun ok => .done (written ok)
  | "args" =>
    .write (String.join (args.map fun arg => "[" ++ arg ++ "]")) fun ok => .done (written ok)
  | "err" => .complain (String.join args) fun ok => .done (written ok)
  | "yield" => pauses (count args)
  | "cancel" => .cancel fun _ => .done 0
  | "cat" => copy
  | "getc" => characters name .char (count args)
  | "peek" => characters name .peek (count args)
  | _ => .done 127

def host (env : Bindings String) : Host where
  exec argv := command (argv.headD "") argv.tail
  env name := (env.get? name).getD ""
  sealed name := "closed".toList.isPrefixOf name.toList

end PocketShell.Probe
