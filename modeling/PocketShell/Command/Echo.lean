import PocketShell.Command.Basic
import PocketShell.Command.Escape

/-!
# `echo`

Writes its arguments with spaces between them. Words of the letters `n`, `e` and `E` after a dash, in
front of everything else, are options: no line break at the end, escapes carried out, escapes left.
-/

namespace PocketShell.Command.Echo

structure Options where
  lineBreak : Bool := true
  escapes : Bool := false
deriving DecidableEq, Repr

def Options.set (o : Options) : Char → Options
  | 'n' => { o with lineBreak := false }
  | 'e' => { o with escapes := true }
  | _ => { o with escapes := false }

/-- The letters of a word that is an option. -/
def flags? (arg : String) : Option (List Char) :=
  match arg.toList with
  | '-' :: c :: cs =>
    if (c :: cs).all fun c => c = 'n' || c = 'e' || c = 'E' then some (c :: cs) else none
  | _ => none

/-- The options in front, and the words after them. -/
def readOptions (o : Options) : List String → Options × List String
  | [] => (o, [])
  | arg :: args =>
    match flags? arg with
    | some letters => readOptions (letters.foldl Options.set o) args
    | none => (o, arg :: args)

def output (args : List String) : String :=
  let (o, words) := readOptions {} args
  let text := " ".intercalate words
  let lineEnd := if o.lineBreak then "\n" else ""
  if o.escapes then
    let u := Escape.unescape text.toList
    if u.stop then String.ofList u.output else String.ofList u.output ++ lineEnd
  else text ++ lineEnd

def run (args : List String) : Program Result := return success (output args)

end PocketShell.Command.Echo
