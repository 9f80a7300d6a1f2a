import PocketShell.Command.Basic
import PocketShell.Text.Align
import PocketShell.Text.Numeral
import PocketShell.Text.Pieces

/-!
# `cat`

Passes its inputs on, standard input chunk by chunk as it comes. With `-n` it numbers the lines
instead, across all inputs.
-/

namespace PocketShell.Command.Cat

/-! ## Numbered lines -/

/-- A line with its number. -/
def numberedLine (number : Nat) (line : List Char) : List Char :=
  Text.alignRight 6 (Numeral.ofNat number) ++ '\t' :: line

def numberedFrom (number : Nat) : List (List Char) → List (List Char)
  | [] => []
  | line :: lines => numberedLine number line :: numberedFrom (number + 1) lines

/-- A text with its lines numbered from `start` on, and the number of the line that follows it. The
text after the last line break is a line unless it is empty and there is a line before it. -/
def numberLines (start : Nat) (text : List Char) : List Char × Nat :=
  let lines := Text.splitAt '\n' text
  if text.getLast? = some '\n' then
    let lines := lines.dropLast
    (Text.join '\n' (numberedFrom start lines) ++ ['\n'], start + lines.length)
  else (Text.join '\n' (numberedFrom start lines), start + lines.length)

/-! ## The command -/

/-- Passes standard input on. It does not matter whether anybody takes it. -/
def passOn : Program (Except Fault Unit) :=
  .relay some "" fun _ stop =>
    match stop with
    | .refused => .done (.ok ())
    | .ended cause => .done (if cause.isEnd then .ok () else .error cause)

def complain (result : Result) (message : String) : Result :=
  { result with stderr := result.stderr ++ message, exitCode := 1 }

def plain : List String → Result → Program Result
  | [], result => return result
  | file :: files, result => do
    if file = "-" then
      match ← passOn with
      | .ok () => plain files result
      | .error cause =>
        plain files (complain result ((Trouble.unreadable cause).message "cat" file))
    else
      match ← readInput file with
      | .ok text =>
        let _ ← Program.say text
        plain files result
      | .error trouble => plain files (complain result (trouble.message "cat" file))

def numbered : List String → Nat → Result → Program Result
  | [], _, result => return result
  | file :: files, number, result => do
    match ← readInput file with
    | .ok text =>
      let (lines, next) := numberLines number text.toList
      numbered files next { result with stdout := result.stdout ++ String.ofList lines }
    | .error trouble => numbered files number (complain result (trouble.message "cat" file))

def isNumberOption (arg : String) : Bool := arg = "-n" || arg = "--number"

def run (args : List String) : Program Result :=
  let others := args.filter fun arg => !isNumberOption arg
  match others.find? looksLikeOption with
  | some arg => return invalidOption "cat" arg
  | none =>
    let files := if others.isEmpty then ["-"] else others
    if args.any isNumberOption then numbered files 1 {} else plain files {}

end PocketShell.Command.Cat
