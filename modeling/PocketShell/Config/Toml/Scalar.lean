import PocketShell.Config.Toml.Text
import PocketShell.Text.Align
import PocketShell.Text.Pieces

/-!
# Numbers, truth values and dates in TOML

* `Scalar` : the values that hold no others;
* `scalar?` : the scalar at the start of a text.

A scalar other than a string is a word of letters, digits and `+ - _ . :`; a date and a time may
have a space between them.
-/

namespace PocketShell.Toml

inductive Scalar where
  | string (text : String)
  | integer (value : Int)
  /-- A number with a fraction or an exponent, an infinity or no number, as it is written. -/
  | float (text : String)
  | boolean (value : Bool)
  | dateTime (text : String)
deriving DecidableEq, Repr

/-! ## Numbers -/

/-- The digits of a numeral without the underscores that may stand between two of them. -/
def digits? (radix : Nat) (cs : List Char) : Option (List Char) :=
  let groups := Text.splitAt '_' cs
  if groups.all fun g => !g.isEmpty && g.all fun c => (Numeral.digit? radix c).isSome then
    some groups.flatten
  else none

/-- Decimal digits with no zero in front. -/
def decimal? (cs : List Char) : Option (List Char) :=
  (digits? 10 cs).filter fun ds => ds.length = 1 || ds.head? ≠ some '0'

/-- The sign of a numeral, and the rest of it. -/
def sign : List Char → Bool × List Char
  | '-' :: rest => (true, rest)
  | '+' :: rest => (false, rest)
  | cs => (false, cs)

def natOf (radix : Nat) (digits : List Char) : Nat := (Numeral.toNat? radix digits).getD 0

def integer? (cs : List Char) : Option Int :=
  let value : Option Int :=
    match cs with
    | '0' :: 'x' :: rest => (digits? 16 rest).map fun ds => (natOf 16 ds : Int)
    | '0' :: 'o' :: rest => (digits? 8 rest).map fun ds => (natOf 8 ds : Int)
    | '0' :: 'b' :: rest => (digits? 2 rest).map fun ds => (natOf 2 ds : Int)
    | cs =>
      let (negative, rest) := sign cs
      (decimal? rest).map fun ds =>
        if negative then -(natOf 10 ds : Int) else (natOf 10 ds : Int)
  value.filter (Numeral.fits 64)

/-- Whether digits with a decimal exponent are rounded to an infinity in double precision. -/
def overflows (digits : List Char) (exponent : Int) : Bool :=
  let m := natOf 10 digits
  let magnitude : Int := (Nat.toDigits 10 m).length + exponent
  if m = 0 || magnitude < 300 then false
  else if magnitude > 320 then true
  else
    let limit := Nat.pow 2 1024 - Nat.pow 2 970
    let scale := Nat.pow 10 exponent.natAbs
    if exponent < 0 then decide (limit * scale ≤ m) else decide (limit ≤ m * scale)

/-- The exponent of a number, `0` if there is none. -/
def exponent? : List Char → Option Int
  | [] => some 0
  | c :: rest =>
    if c = 'e' || c = 'E' then
      let (negative, digits) := sign rest
      (digits? 10 digits).map fun ds =>
        if negative then -(natOf 10 ds : Int) else (natOf 10 ds : Int)
    else none

/-- The digits after the point, and what comes after them. -/
def fraction? : List Char → Option (List Char × List Char)
  | '.' :: rest =>
    let (digits, after) := rest.span fun c => c ≠ 'e' && c ≠ 'E'
    (digits? 10 digits).map (·, after)
  | cs => some ([], cs)

/-- Whether a word is a number with a fraction, an exponent or both, and no infinity by accident. -/
def isFloat (cs : List Char) : Bool :=
  let (negative, rest) := sign cs
  if rest = "inf".toList || rest = "nan".toList then true
  else
    let (whole, after) := rest.span fun c => c ≠ '.' && c ≠ 'e' && c ≠ 'E'
    match decimal? whole, fraction? after with
    | some whole, some (fraction, tail) =>
      match exponent? tail with
      | some e =>
        !after.isEmpty && (negative || !overflows (whole ++ fraction) (e - fraction.length))
      | none => false
    | _, _ => false

/-! ## Dates and times -/

/-- A number of exactly that many digits. -/
def fixed? (digits : Nat) (cs : List Char) : Option (Nat × List Char) :=
  let ds := cs.take digits
  if ds.length = digits && ds.all Char.isDigit then some (natOf 10 ds, cs.drop digits) else none

/-- The same, within bounds. -/
def fixedIn? (digits low high : Nat) (cs : List Char) : Option (Nat × List Char) :=
  (fixed? digits cs).filter fun (n, _) => low ≤ n && n ≤ high

def after? (c : Char) : List Char → Option (List Char)
  | d :: rest => if d = c then some rest else none
  | [] => none

def daysIn (year month : Nat) : Nat :=
  if month = 2 then
    if year % 4 = 0 && (year % 100 ≠ 0 || year % 400 = 0) then 29 else 28
  else if month = 4 || month = 6 || month = 9 || month = 11 then 30
  else 31

/-- A number with two digits. -/
def two (n : Nat) : List Char := Text.fillZeros 2 (Numeral.ofNat n)

/-- A date as it is shown, and what comes after it. -/
def date? (cs : List Char) : Option (List Char × List Char) := do
  let (year, cs) ← fixed? 4 cs
  let cs ← after? '-' cs
  let (month, cs) ← fixedIn? 2 1 12 cs
  let cs ← after? '-' cs
  let (day, cs) ← fixedIn? 2 1 (daysIn year month) cs
  return (Text.fillZeros 4 (Numeral.ofNat year) ++ '-' :: two month ++ '-' :: two day, cs)

/-- The fraction of a second as it is shown, to nine digits and without zeros at the end. -/
def secondFraction? : List Char → Option (List Char × List Char)
  | '.' :: rest =>
    let digits := rest.takeWhile Char.isDigit
    if digits.isEmpty then none
    else
      let shown := ((digits.take 9).reverse.dropWhile (· = '0')).reverse
      some (if shown.isEmpty then [] else '.' :: shown, rest.dropWhile Char.isDigit)
  | cs => some ([], cs)

/-- A time of day as it is shown, and what comes after it. -/
def time? (cs : List Char) : Option (List Char × List Char) := do
  let (hour, cs) ← fixedIn? 2 0 23 cs
  let cs ← after? ':' cs
  let (minute, cs) ← fixedIn? 2 0 59 cs
  let cs ← after? ':' cs
  let (second, cs) ← fixedIn? 2 0 60 cs
  let (fraction, cs) ← secondFraction? cs
  return (two hour ++ ':' :: two minute ++ ':' :: two second ++ fraction, cs)

/-- The offset of a time from universal time as it is shown; none at all is shown with a plus. -/
def offset? : List Char → Option (List Char)
  | ['Z'] | ['z'] => some ['Z']
  | c :: cs =>
    if c = '+' || c = '-' then do
      let (hour, cs) ← fixedIn? 2 0 23 cs
      let cs ← after? ':' cs
      let (minute, cs) ← fixedIn? 2 0 59 cs
      let mark := if hour = 0 && minute = 0 then '+' else c
      if cs.isEmpty then return mark :: two hour ++ ':' :: two minute else none
    else none
  | [] => some []

/-- A word that is a time with or without an offset. -/
def timeWord? (cs : List Char) : Option (List Char) := do
  let (time, rest) ← time? cs
  let offset ← offset? rest
  return time ++ offset

/-- A word that is a date, a time, or both with a `T` between them. -/
def dateTimeWord? (cs : List Char) : Option (List Char) :=
  match date? cs with
  | some (date, []) => some date
  | some (date, c :: rest) =>
    if c = 'T' || c = 't' then (timeWord? rest).map fun time => date ++ 'T' :: time else none
  | none =>
    match time? cs with
    | some (time, []) => some time
    | _ => none

/-! ## Words -/

def isWordChar (c : Char) : Bool :=
  c.isAlphanum || c = '+' || c = '-' || c = '_' || c = '.' || c = ':'

def word? (cs : List Char) : Option Scalar :=
  if cs = "true".toList then some (.boolean true)
  else if cs = "false".toList then some (.boolean false)
  else
    match dateTimeWord? cs with
    | some text => some (.dateTime (String.ofList text))
    | none =>
      if isFloat cs then some (.float (String.ofList cs)) else (integer? cs).map .integer

/-- A time that follows a date after a space. -/
def spacedTime? (cs : List Char) : Option (List Char × List Char) :=
  match cs with
  | ' ' :: rest => (timeWord? (rest.takeWhile isWordChar)).map (·, rest.dropWhile isWordChar)
  | _ => none

def scalar? (cs : List Char) : Option (Scalar × List Char) :=
  match string? cs with
  | some (text, rest) => some (.string text, rest)
  | none =>
    let word := cs.takeWhile isWordChar
    let rest := cs.dropWhile isWordChar
    match date? word, spacedTime? rest with
    | some (date, []), some (time, rest) =>
      some (.dateTime (String.ofList (date ++ 'T' :: time)), rest)
    | _, _ => (word? word).map (·, rest)

end PocketShell.Toml
