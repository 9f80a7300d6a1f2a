import PocketShell.Command.Basic
import PocketShell.Text.Pieces

/-!
# `rev`

Reverses every line of its inputs and leaves the line breaks where they are.
-/

namespace PocketShell.Command.Rev

/-- A text without a line break at its end, and that line break. -/
def splitEnd (text : List Char) : List Char × List Char :=
  if text.getLast? = some '\n' then (text.dropLast, ['\n']) else (text, [])

/-- Reverses each line. A line break at the end begins no further line: it is taken off and put
back. -/
def reverseLines (text : List Char) : List Char :=
  let (body, trailing) := splitEnd text
  if body.isEmpty && trailing.isEmpty then []
  else Text.join '\n' ((Text.splitAt '\n' body).map List.reverse) ++ trailing

/-- The inputs, or an option that `rev` does not know. Nothing after `--` is an option. -/
def readArgs : List String → Except String (List String)
  | [] => .ok []
  | "--" :: args => .ok args
  | arg :: args =>
    if looksLikeOption arg then .error arg else (readArgs args).map (arg :: ·)

/-- The complaint of `rev`, which does not name standard input. -/
def troubleMessage (file : String) : Trouble → String
  | .missing => Trouble.missing.message "rev" file
  | .unreadable cause => "rev: " ++ cause.message ++ "\n"

/-- The text of all inputs after the text `done`, or the first complaint. -/
def readFrom (done : String) : List String → Program (Except String String)
  | [] => return .ok done
  | file :: files => do
    match ← readInput file with
    | .error trouble => return .error (troubleMessage file trouble)
    | .ok text => readFrom (done ++ text) files

def readFiles (files : List String) : Program (Except String String) := readFrom "" files

def run (args : List String) : Program Result :=
  match readArgs args with
  | .error arg => return invalidOption "rev" arg
  | .ok files => do
    match ← readFiles (if files.isEmpty then ["-"] else files) with
    | .ok text => return success (String.ofList (reverseLines text.toList))
    | .error message => return failure message

end PocketShell.Command.Rev
