import PocketShell.Command.Basic

/-!
# `env`

Lists the environment in the order of the names, after the changes that its arguments ask for. It
cannot run anything in it.
-/

namespace PocketShell.Command.Env

/-- The changes asked for: start with nothing, names to leave out, names to bind. -/
structure Changes where
  fresh : Bool := false
  unset : List String := []
  bind : List (String × String) := []
deriving DecidableEq, Repr

/-- A text before and after the first `=`. -/
def splitBinding? (arg : String) : Option (String × String) :=
  match arg.toList.span (· ≠ '=') with
  | (name, _ :: value) => some (String.ofList name, String.ofList value)
  | (_, []) => none

def unsetOption : List Char := "--unset=".toList

/-- The changes that the arguments ask for, or what is wrong with them. -/
def readChanges (c : Changes) : List String → Except Result Changes
  | [] => .ok c
  | "-i" :: args | "--ignore-environment" :: args => readChanges { c with fresh := true } args
  | ["-u"] => .error (failure "env: option requires an argument -- 'u'\n")
  | "-u" :: name :: args => readChanges { c with unset := c.unset ++ [name] } args
  | arg :: args =>
    if unsetOption.isPrefixOf arg.toList then
      let name := String.ofList (arg.toList.drop unsetOption.length)
      readChanges { c with unset := c.unset ++ [name] } args
    else
      match splitBinding? arg with
      | some binding => readChanges { c with bind := c.bind ++ [binding] } args
      | none =>
        if arg.toList.head? = some '-' then
          .error (failure ("env: invalid option '" ++ arg ++ "'\n"))
        else .error { stderr := "env: '" ++ arg ++ "': cannot run commands\n", exitCode := 126 }

def Changes.apply (c : Changes) (env : Bindings String) : Bindings String :=
  (c.unset.foldl Bindings.erase (if c.fresh then {} else env)).insertAll c.bind

def listing (env : Bindings String) : String :=
  String.join (env.entries.map fun (name, value) => name ++ "=" ++ value ++ "\n")

def run (env : Bindings String) (args : List String) : Program Result :=
  match readChanges {} args with
  | .ok changes => return success (listing (changes.apply env))
  | .error result => return result

end PocketShell.Command.Env
