import PocketShell.Command.Basic
import PocketShell.Text.Align
import PocketShell.Text.Blank
import PocketShell.Text.Numeral

/-!
# `wc`

Counts lines, words and bytes of its inputs, in columns that line up, with a total if there is more
than one input.
-/

namespace PocketShell.Command.Wc

structure Counts where
  lines : Nat := 0
  words : Nat := 0
  bytes : Nat := 0
deriving DecidableEq, Repr

def count (text : String) : Counts where
  lines := text.toList.count '\n'
  words := (Text.blankWords text.toList).length
  bytes := text.utf8ByteSize

def Counts.add (a b : Counts) : Counts := ⟨a.lines + b.lines, a.words + b.words, a.bytes + b.bytes⟩

def sum (counts : List Counts) : Counts := counts.foldl Counts.add {}

/-- The columns that are shown. -/
structure Columns where
  lines : Bool := false
  words : Bool := false
  bytes : Bool := false
deriving DecidableEq, Repr

def Columns.select (c : Columns) (counts : Counts) : List Nat :=
  (if c.lines then [counts.lines] else []) ++ (if c.words then [counts.words] else [])
    ++ (if c.bytes then [counts.bytes] else [])

/-- The counts of one row, each at the right of its column. -/
def Columns.render (c : Columns) (width : Nat) (counts : Counts) : List Char :=
  [' '].intercalate ((c.select counts).map fun n => Text.alignRight width (Numeral.ofNat n))

/-- A row: the counts, and the name of the input unless it is standard input. -/
structure Row where
  counts : Counts
  name : Option String
deriving DecidableEq, Repr

/-- The width of a column: no count is longer than a total. A count that stands alone needs none. -/
def columnWidth (c : Columns) (rows : List Row) : Nat :=
  let total := sum (rows.map (·.counts))
  if rows.length = 1 ∧ (c.select total).length = 1 then 0
  else
    max (max (max (if rows.length > 1 then 7 else 0) (Numeral.ofNat total.lines).length)
      (Numeral.ofNat total.words).length) (Numeral.ofNat total.bytes).length

def renderRow (c : Columns) (width : Nat) (row : Row) : List Char :=
  c.render width row.counts ++ (row.name.elim [] fun name => ' ' :: name.toList) ++ ['\n']

/-- All rows, with a total after two or more. -/
def table (c : Columns) (rows : List Row) : List Char :=
  let total : Row := ⟨sum (rows.map (·.counts)), some "total"⟩
  (if rows.length > 1 then rows ++ [total] else rows).flatMap (renderRow c (columnWidth c rows))

/-! ## The command -/

/-- Counts the inputs, after those with the `rows`, newest first. Also gives the complaints about
those that cannot be read. -/
def countFrom (rows : List Row) (complaints : String) : List String → Program (List Row × String)
  | [] => return (rows.reverse, complaints)
  | file :: files => do
    match ← readInput file with
    | .ok text =>
      let row : Row := ⟨count text, if file = "-" then none else some file⟩
      countFrom (row :: rows) complaints files
    | .error trouble => countFrom rows (complaints ++ trouble.message "wc" file) files

def countInputs (files : List String) : Program (List Row × String) := countFrom [] "" files

def isLines (arg : String) : Bool := arg = "-l" || arg = "--lines"

def isWords (arg : String) : Bool := arg = "-w" || arg = "--words"

def isBytes (arg : String) : Bool := arg = "-c" || arg = "--bytes"

/-- All columns, unless some are asked for. -/
def columns (args : List String) : Columns :=
  if args.any fun arg => isLines arg || isWords arg || isBytes arg then
    ⟨args.any isLines, args.any isWords, args.any isBytes⟩
  else ⟨true, true, true⟩

def run (args : List String) : Program Result :=
  let files := args.filter fun arg => !(isLines arg || isWords arg || isBytes arg)
  match files.find? looksLikeOption with
  | some arg => return invalidOption "wc" arg
  | none => do
    let (rows, complaints) ← countInputs (if files.isEmpty then ["-"] else files)
    return { stdout := String.ofList (table (columns args) rows), stderr := complaints,
             exitCode := if complaints.isEmpty then 0 else 1 }

end PocketShell.Command.Wc
