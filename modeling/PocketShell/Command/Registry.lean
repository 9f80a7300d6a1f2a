import PocketShell.Command.Cat
import PocketShell.Command.Echo
import PocketShell.Command.Env
import PocketShell.Command.Printf
import PocketShell.Command.Rev
import PocketShell.Command.Tr
import PocketShell.Command.Wc

/-!
# The registry of commands

* `Command` : the built-in commands, and commands that a shell is given;
* `Command.run` : what a command does;
* `Registry.builtin` : all built-in commands under their names.
-/

namespace PocketShell

inductive Command where
  | cat
  | echo
  | env
  | «false»
  | printf
  | rev
  | tr
  | «true»
  | wc
  /-- A command that always reports `result`. -/
  | constant (name : String) (result : Command.Result)
  /-- Any other command: what it does with its words and the environment is up to whoever made it,
  as long as it does not pause. -/
  | custom (name : String) (program : Bindings String → List String → Program Command.Result)
    (steady : ∀ env args, (program env args).Steady)

namespace Command

def name : Command → String
  | cat => "cat"
  | echo => "echo"
  | env => "env"
  | «false» => "false"
  | printf => "printf"
  | rev => "rev"
  | tr => "tr"
  | «true» => "true"
  | wc => "wc"
  | constant name _ => name
  | custom name _ _ => name

def run (bindings : Bindings String) (args : List String) : Command → Program Result
  | cat => Cat.run args
  | echo => Echo.run args
  | env => Env.run bindings args
  | «false» => return { exitCode := 1 }
  | printf => Printf.run args
  | rev => Rev.run args
  | tr => Tr.run args
  | «true» => return {}
  | wc => Wc.run args
  | constant _ result => return result
  | custom _ program _ => program bindings args

/-- Whether a command is neither built in nor constant. -/
def isCustom : Command → Bool
  | custom .. => Bool.true
  | _ => Bool.false

end Command

abbrev Registry := Bindings Command

namespace Registry

/-- Adds a command, in place of one with the same name. -/
def register (r : Registry) (c : Command) : Registry := r.insert c.name c

def builtin : Registry :=
  [.cat, .echo, .env, .false, .printf, .rev, .tr, .true, .wc].foldl register {}

end Registry

end PocketShell
