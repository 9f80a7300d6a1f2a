import PocketShell.Disk
import PocketShell.Shell
import PocketShell.Text.Json

/-!
# The command line

* `Invocation` : what the arguments ask for;
* `Surroundings` : the files, the standard input and the environment of the program. They are
  reached through a monad, so the same `CommandLine.run` serves the program and a given disk;
* `CommandLine.run` : from arguments to what is printed and the exit code.
-/

namespace PocketShell

/-- What a command line asks for, apart from help and version. -/
structure Invocation where
  script : Option String := none
  config : Option String := none
  inheritEnv : Bool := false
  json : Bool := false
  file : Option String := none
deriving DecidableEq, Repr

/-- What a command line comes to. -/
inductive Request where
  | run (invocation : Invocation)
  | version
  | help
  | misuse
deriving DecidableEq, Repr

namespace Invocation

def setScript (inv : Invocation) (text : String) : Option Invocation :=
  if inv.script.isSome then none else some { inv with script := some text }

def setConfig (inv : Invocation) (path : String) : Option Invocation :=
  if inv.config.isSome then none else some { inv with config := some path }

def setFile (inv : Invocation) (path : String) : Option Invocation :=
  if inv.file.isSome then none else some { inv with file := some path }

def setInheritEnv (inv : Invocation) : Option Invocation :=
  if inv.inheritEnv then none else some { inv with inheritEnv := true }

def setJson (inv : Invocation) : Option Invocation :=
  if inv.json then none else some { inv with json := true }

end Invocation

namespace Request

/-- Whether an argument cannot be the value of the option before it. -/
def isOption (arg : String) : Bool := arg.toList.head? = some '-' && arg != "-"

/-- The text after the equals sign of an option, or after the option itself. -/
def attached (cs : List Char) : String :=
  String.ofList (match cs with
    | '=' :: rest => rest
    | cs => cs)

def textAfter? (start arg : String) : Option (List Char) :=
  if start.toList.isPrefixOf arg.toList then some (arg.toList.drop start.toList.length) else none

/-- Takes the arguments after `--`, none of which is an option. -/
def files : Invocation → List String → Request
  | inv, [] => .run inv
  | inv, arg :: rest =>
    match inv.setFile arg with
    | some inv => files inv rest
    | none => .misuse

/-- Takes arguments from left to right. An option that takes a value takes the next argument, if it
has none attached; every option and the file may be given once. Letters after a dash are options one
by one: `-c` takes the rest as its value, `-V` and `-h` end the matter. -/
def ofArgsFrom : Invocation → List String → Request
  | inv, [] => .run inv
  | _, "--version" :: _ => .version
  | _, "--help" :: _ => .help
  | inv, "--" :: rest => files inv rest
  | inv, "--inherit-env" :: rest => inv.setInheritEnv.elim .misuse (ofArgsFrom · rest)
  | inv, "--json" :: rest => inv.setJson.elim .misuse (ofArgsFrom · rest)
  | inv, "-c" :: value :: rest =>
    if isOption value then .misuse else (inv.setScript value).elim .misuse (ofArgsFrom · rest)
  | inv, "--config" :: value :: rest =>
    if isOption value then .misuse else (inv.setConfig value).elim .misuse (ofArgsFrom · rest)
  | inv, arg :: rest =>
    match arg.toList with
    | '-' :: 'V' :: _ => .version
    | '-' :: 'h' :: _ => .help
    | '-' :: 'c' :: c :: cs =>
      (inv.setScript (attached (c :: cs))).elim .misuse (ofArgsFrom · rest)
    | _ =>
      match textAfter? "--config=" arg with
      | some path => (inv.setConfig (String.ofList path)).elim .misuse (ofArgsFrom · rest)
      | none =>
        if isOption arg then .misuse else (inv.setFile arg).elim .misuse (ofArgsFrom · rest)

def ofArgs (args : List String) : Request := ofArgsFrom {} args

end Request

/-! ## Surroundings -/

structure Surroundings (m : Type → Type) where
  /-- The content of a file, or why it cannot be read. -/
  readFile : String → m (Except String String)
  /-- Standard input, or why it cannot be read. -/
  readInput : m (Except String String)
  /-- The environment, one `name=value` each. -/
  environment : m (List String)

namespace Surroundings

/-- The name and the value of a definition. They are divided by the first equals sign that does not
stand in front. -/
def definition? (text : String) : Option (String × String) :=
  match text.toList with
  | [] => none
  | first :: rest =>
    match rest.span (· ≠ '=') with
    | (name, _ :: value) => some (String.ofList (first :: name), String.ofList value)
    | (_, []) => none

/-- Takes all of standard input. -/
def takeInput : StateM String String := do
  let text ← get
  set ""
  return text

/-- Surroundings with the given disk and environment. The state is what is left of standard
input. -/
def ofDisk (disk : Disk) (environment : List (String × String)) :
    Surroundings (StateM String) where
  readFile path :=
    match disk.find path with
    | .ok (.text content) => return .ok content
    | .ok .input => return .ok (← takeInput)
    | .error refusal => return .error refusal.message
  readInput := return .ok (← takeInput)
  environment := return environment.map fun (name, value) => name ++ "=" ++ value

end Surroundings

/-! ## Running -/

/-- What the program prints, and its exit code. -/
structure Outcome where
  stdout : String := ""
  stderr : String := ""
  code : Nat := 0
deriving DecidableEq, Repr

namespace CommandLine

def versionText : String := "bashlet 0.1.0\n"

def helpText : String :=
  "Run shell scripts against an in-memory environment\n\n" ++
  "Usage: bashlet [OPTIONS] [SCRIPT_FILE]\n\n" ++
  "Arguments:\n" ++
  "  [SCRIPT_FILE]  Script file to execute\n\n" ++
  "Options:\n" ++
  "  -c <SCRIPT>            Execute the script from command line argument\n" ++
  "      --config <CONFIG>  TOML file with initial environment and files\n" ++
  "      --inherit-env      Seed the environment from this process\n" ++
  "      --json             Output results as JSON (stdout, stderr, exitCode)\n" ++
  "  -h, --help             Print help\n" ++
  "  -V, --version          Print version\n"

def misuseText : String :=
  "error: unexpected arguments\n\nUsage: bashlet [OPTIONS] [SCRIPT_FILE]\n\n" ++
  "For more information, try '--help'.\n"

def failed (problem : String) : Outcome := { stderr := "Error: " ++ problem ++ "\n", code := 1 }

/-- A result on one line. -/
def jsonLine (r : Command.Result) : String :=
  "\x7b\"stdout\":" ++ Text.json r.stdout ++ ",\"stderr\":" ++ Text.json r.stderr ++
    ",\"exitCode\":" ++ String.ofList (Numeral.ofInt r.exitCode) ++ "\x7d\n"

/-- The outcome of a run; a system keeps eight bits of an exit code. -/
def outcome (json : Bool) (r : Command.Result) : Outcome :=
  let code := (r.exitCode % 256).toNat
  if json then { stdout := jsonLine r, code := code }
  else { stdout := r.stdout, stderr := r.stderr, code := code }

variable {m : Type → Type} [Monad m]

/-- The script: given as an argument, in a file, or as standard input. -/
def script (s : Surroundings m) (inv : Invocation) : m (Except String String) :=
  match inv.script, inv.file with
  | some text, _ => return .ok text
  | none, some path => do
    match ← s.readFile path with
    | .ok text => return .ok text
    | .error problem =>
      return .error ("Cannot read script file: " ++ path ++ ": " ++ problem)
  | none, none => s.readInput

def options (s : Surroundings m) (inv : Invocation) : m (Except String Options) :=
  match inv.config with
  | none => return .ok {}
  | some path => do
    match ← s.readFile path with
    | .error problem => return .error ("cannot read " ++ path ++ ": " ++ problem)
    | .ok text =>
      match Options.ofToml? text with
      | some options => return .ok options
      | none => return .error "invalid config: malformed TOML"

/-- The options, with the environment of the program behind them if that is wanted. -/
def inherit (s : Surroundings m) (inv : Invocation) (options : Options) : m Options := do
  if inv.inheritEnv then
    let definitions := (← s.environment).filterMap Surroundings.definition?
    return { options with env := options.env.insertMissing definitions }
  else return options

def invoke (s : Surroundings m) (inv : Invocation) : m Outcome := do
  match ← script s inv with
  | .error problem => return failed problem
  | .ok script =>
    match ← options s inv with
    | .error problem => return failed problem
    | .ok options =>
      let options ← inherit s inv options
      let (_, result) := (Shell.ofOptions options).exec script
      return outcome inv.json (result.getD {})

def run (s : Surroundings m) (args : List String) : m Outcome :=
  match Request.ofArgs args with
  | .run inv => invoke s inv
  | .version => return { stdout := versionText }
  | .help => return { stdout := helpText }
  | .misuse => return { stderr := misuseText, code := 2 }

end CommandLine

end PocketShell
