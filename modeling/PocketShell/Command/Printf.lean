import PocketShell.Command.Basic
import PocketShell.Command.Escape
import PocketShell.Text.Align
import PocketShell.Text.Blank

/-!
# `printf`

* `Printf.Piece` : a format is literal text and directives `%[-0][width]conversion`;
* `Printf.round` : the format once, with the arguments it takes;
* `Printf.rounds` : the outputs of the format, again while it takes arguments and some are left;
* `Printf.integer?` : an argument as a number.
-/

namespace PocketShell.Command.Printf

/-! ## Formats -/

structure Directive where
  /-- The directive as it is written. -/
  text : List Char
  left : Bool
  zero : Bool
  width : Nat
  conversion : Char
deriving DecidableEq, Repr

inductive Piece where
  | literal (text : List Char)
  | directive (d : Directive)
deriving DecidableEq, Repr

def isFlag (c : Char) : Bool := c = '-' || c = '0'

/-- The directive after a `%`, and the text after it. A `%` that ends too early is written as a
`%`. -/
def readDirective (cs : List Char) : Directive × List Char :=
  let flags := cs.takeWhile isFlag
  let digits := (cs.dropWhile isFlag).takeWhile Char.isDigit
  let after := (cs.dropWhile isFlag).dropWhile Char.isDigit
  let d : Directive :=
    { text := '%' :: (flags ++ digits ++ after.take 1)
      left := flags.contains '-'
      zero := flags.contains '0'
      width := (Numeral.toNat? 10 digits).getD 0
      conversion := after.headD '%' }
  (d, after.drop 1)

theorem length_readDirective (cs : List Char) : (readDirective cs).2.length ≤ cs.length := by
  have h₁ := (List.dropWhile_sublist Char.isDigit (l := cs.dropWhile isFlag)).length_le
  have h₂ := (List.dropWhile_sublist isFlag (l := cs)).length_le
  simp only [readDirective, List.length_drop]
  omega

/-- The pieces of a format; `literal` is the text since the last directive, newest first. -/
def readFormat (literal : List Char) : List Char → List Piece
  | [] => [.literal literal.reverse]
  | c :: cs =>
    if c = '%' then
      .literal literal.reverse :: .directive (readDirective cs).1
        :: readFormat [] (readDirective cs).2
    else readFormat (c :: literal) cs
termination_by cs => cs.length
decreasing_by
  · exact Nat.lt_succ_of_le (length_readDirective cs)
  · simp

/-! ## Arguments -/

/-- The code of the character after a quote, `0` if there is none. -/
def charCode : List Char → Int
  | [] => 0
  | c :: _ => c.toNat

/-- An argument as a number: a decimal or hexadecimal numeral of 64 bits, or a quote with a
character; nothing at all counts as zero. -/
def integer? (arg : List Char) : Option Int :=
  match Text.trim arg with
  | [] => some 0
  | '\'' :: rest => some (charCode rest)
  | '"' :: rest => some (charCode rest)
  | '0' :: 'x' :: hex => Numeral.toInt? 64 16 hex
  | '0' :: 'X' :: hex => Numeral.toInt? 64 16 hex
  | cs => Numeral.toInt? 64 10 cs

/-- The widest field. -/
def maxWidth : Nat := Nat.pow 2 20

def Directive.isInteger (d : Directive) : Bool := d.conversion = 'd' || d.conversion = 'i'

def pad (d : Directive) (value : List Char) : List Char :=
  if d.left then Text.alignLeft d.width value
  else if d.zero && d.isInteger then Text.fillZeros d.width value
  else Text.alignRight d.width value

/-- Whether a directive takes an argument. -/
def Directive.takesArgument (d : Directive) : Bool :=
  d.conversion = 's' || d.conversion = 'b' || d.conversion = 'c' || d.isInteger

/-! ## Output -/

structure Output where
  stdout : List Char := []
  stderr : List Char := []
  failed : Bool := false
deriving DecidableEq, Repr

def Output.append (a b : Output) : Output :=
  ⟨a.stdout ++ b.stdout, a.stderr ++ b.stderr, a.failed || b.failed⟩

def invalidNumber (arg : List Char) : List Char :=
  "printf: '".toList ++ Text.trim arg ++ "': invalid number\n".toList

def invalidWidth (d : Directive) : List Char :=
  "printf: ".toList ++ d.text ++ ": invalid field width\n".toList

/-- What a directive makes of an argument. -/
def render (d : Directive) (arg : List Char) : Output :=
  if d.conversion = '%' then { stdout := ['%'] }
  else if d.conversion = 's' then { stdout := pad d arg }
  else if d.conversion = 'b' then { stdout := pad d (Escape.unescape arg).output }
  else if d.conversion = 'c' then { stdout := pad d (arg.take 1) }
  else if d.isInteger then
    match integer? arg with
    | some n => { stdout := pad d (Numeral.ofInt n) }
    | none =>
      { stdout := pad d (Numeral.ofInt 0), stderr := invalidNumber arg, failed := true }
  else { stdout := d.text }

/-- The format once: its output, and the arguments that are left unless the output ends here. -/
def round : List Piece → List (List Char) → Output × Option (List (List Char))
  | [], args => ({}, some args)
  | .literal text :: pieces, args =>
    let u := Escape.unescape text
    if u.stop then ({ stdout := u.output }, none)
    else
      let (o, rest) := round pieces args
      (Output.append { stdout := u.output } o, rest)
  | .directive d :: pieces, args =>
    if d.width > maxWidth then ({ stderr := invalidWidth d, failed := true }, none)
    else
      let (o, rest) := round pieces (if d.takesArgument then args.tail else args)
      ((render d (args.headD [])).append o, rest)

def Piece.takesArgument : Piece → Bool
  | .literal _ => false
  | .directive d => d.takesArgument

/-- The number of arguments that a format takes. -/
def taken (pieces : List Piece) : Nat := pieces.countP Piece.takesArgument

theorem length_round {pieces : List Piece} {args rest : List (List Char)}
    (h : (round pieces args).2 = some rest) : rest.length = args.length - taken pieces := by
  induction pieces generalizing args with
  | nil => simp_all [round, taken]
  | cons piece pieces ih =>
    cases piece with
    | literal text =>
      simp only [round] at h
      split at h
      · simp at h
      · simpa [taken, Piece.takesArgument] using ih h
    | directive d =>
      simp only [round] at h
      split at h
      · simp at h
      · have := ih h
        cases hd : d.takesArgument with
        | false => simp_all [taken, Piece.takesArgument]
        | true =>
          simp_all [taken, Piece.takesArgument]
          omega

/-- The outputs of the rounds it takes to use up the arguments, after those in `done`, newest
first. -/
def roundsFrom (done : List Output) (pieces : List Piece) (args : List (List Char)) :
    List Output :=
  match _h : round pieces args with
  | (o, none) => (o :: done).reverse
  | (o, some rest) =>
    if _more : 0 < taken pieces ∧ rest ≠ [] then roundsFrom (o :: done) pieces rest
    else (o :: done).reverse
termination_by args.length
decreasing_by
  have hlen : rest.length = args.length - taken pieces :=
    length_round (by rw [_h])
  have := List.length_pos_iff.2 _more.2
  omega

/-- The format as often as it takes to use up the arguments, and at least once. -/
def rounds (pieces : List Piece) (args : List (List Char)) : List Output :=
  roundsFrom [] pieces args

def output (format : List Char) (args : List (List Char)) : Output :=
  let outputs := rounds (readFormat [] format) args
  { stdout := outputs.flatMap (·.stdout)
    stderr := outputs.flatMap (·.stderr)
    failed := outputs.any (·.failed) }

def usage : Result := { stderr := "printf: usage: printf format [arguments]\n", exitCode := 2 }

def run : List String → Program Result
  | [] => return usage
  | format :: args =>
    let o := output format.toList (args.map String.toList)
    return { stdout := String.ofList o.stdout, stderr := String.ofList o.stderr,
             exitCode := if o.failed then 1 else 0 }

end PocketShell.Command.Printf
