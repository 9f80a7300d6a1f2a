import PocketShell.Text.Numeral

/-!
# Texts in TOML

The four kinds of strings, each read after its opening quotes: the text, and what comes after the
closing quotes.

* `basic`, `literal` : on one line, with and without escapes;
* `multiline`, `multilineLiteral` : over several lines. Two quotes may stand inside, and up to two
  more before the closing ones.
-/

namespace PocketShell.Toml

/-- Characters that may stand in comments and strings. -/
def isPlain (c : Char) : Bool := c = '\t' || (0x20 ≤ c.toNat && c.toNat ≠ 0x7F)

def isGap (c : Char) : Bool := c = ' ' || c = '\t'

def skipGap (cs : List Char) : List Char := cs.dropWhile isGap

/-- What comes after a line break. -/
def afterBreak? : List Char → Option (List Char)
  | '\n' :: rest => some rest
  | '\r' :: '\n' :: rest => some rest
  | _ => none

/-- What comes after a line break, if there is one. -/
def skipBreak (cs : List Char) : List Char := (afterBreak? cs).getD cs

/-! ## Escapes -/

def escape? : Char → Option Char
  | 'b' => some '\x08'
  | 't' => some '\t'
  | 'n' => some '\n'
  | 'f' => some '\x0c'
  | 'r' => some '\r'
  | '"' => some '"'
  | '\\' => some '\\'
  | _ => none

/-- The character with a code point that is written with exactly `digits` hexadecimal digits. -/
def codePoint? (digits : Nat) (cs : List Char) : Option (Char × List Char) :=
  if cs.length < digits then none
  else
    (Numeral.toNat? 16 (cs.take digits)).bind fun n =>
      if n.isValidChar then some (Char.ofNat n, cs.drop digits) else none

/-- The character after a backslash. -/
def escaped? : List Char → Option (Char × List Char)
  | 'u' :: rest => codePoint? 4 rest
  | 'U' :: rest => codePoint? 8 rest
  | c :: rest => (escape? c).map (·, rest)
  | [] => none

/-- What comes after blanks and line breaks. -/
def skipBlank : List Char → List Char
  | '\r' :: '\n' :: rest => skipBlank rest
  | c :: rest => if isGap c || c = '\n' then skipBlank rest else c :: rest
  | [] => []

/-- What comes after a backslash at the end of a line, without the blanks in front. -/
def continued? (cs : List Char) : Option (List Char) :=
  (afterBreak? (skipGap cs)).map skipBlank

/-! ## Strings

All are read with a bound on the number of steps; `done` is the text so far, newest first. -/

def basicFrom : Nat → List Char → List Char → Option (String × List Char)
  | 0, _, _ => none
  | _ + 1, done, '"' :: rest => some (String.ofList done.reverse, rest)
  | n + 1, done, '\\' :: rest =>
    (escaped? rest).bind fun (c, rest) => basicFrom n (c :: done) rest
  | n + 1, done, c :: rest => if isPlain c then basicFrom n (c :: done) rest else none
  | _ + 1, _, [] => none

def basic (cs : List Char) : Option (String × List Char) := basicFrom (cs.length + 1) [] cs

def literalFrom : List Char → List Char → Option (String × List Char)
  | done, '\'' :: rest => some (String.ofList done.reverse, rest)
  | done, c :: rest => if isPlain c then literalFrom (c :: done) rest else none
  | _, [] => none

def literal (cs : List Char) : Option (String × List Char) := literalFrom [] cs

/-- Whether a text begins with this many quotes. -/
def startsWith (quote : Char) (count : Nat) (cs : List Char) : Bool :=
  (List.replicate count quote).isPrefixOf cs

/-- The text after the closing quotes of a text over several lines, with the quotes before them that
belong to the text. -/
def closing? (quote : Char) (cs : List Char) : Option (List Char × List Char) :=
  if startsWith quote 5 cs then some ([quote, quote], cs.drop 5)
  else if startsWith quote 4 cs then some ([quote], cs.drop 4)
  else if startsWith quote 3 cs then some ([], cs.drop 3)
  else none

def multilineFrom : Nat → List Char → List Char → Option (String × List Char)
  | 0, _, _ => none
  | n + 1, done, cs =>
    match closing? '"' cs with
    | some (quotes, rest) => some (String.ofList (done.reverse ++ quotes), rest)
    | none =>
      match afterBreak? cs with
      | some rest => multilineFrom n ('\n' :: done) rest
      | none =>
        match cs with
        | '\\' :: rest =>
          match continued? rest with
          | some rest => multilineFrom n done rest
          | none => (escaped? rest).bind fun (c, rest) => multilineFrom n (c :: done) rest
        | c :: rest => if isPlain c then multilineFrom n (c :: done) rest else none
        | [] => none

def multiline (cs : List Char) : Option (String × List Char) :=
  multilineFrom (cs.length + 1) [] (skipBreak cs)

def multilineLiteralFrom : Nat → List Char → List Char → Option (String × List Char)
  | 0, _, _ => none
  | n + 1, done, cs =>
    match closing? '\'' cs with
    | some (quotes, rest) => some (String.ofList (done.reverse ++ quotes), rest)
    | none =>
      match afterBreak? cs with
      | some rest => multilineLiteralFrom n ('\n' :: done) rest
      | none =>
        match cs with
        | c :: rest => if isPlain c then multilineLiteralFrom n (c :: done) rest else none
        | [] => none

def multilineLiteral (cs : List Char) : Option (String × List Char) :=
  multilineLiteralFrom (cs.length + 1) [] (skipBreak cs)

/-- Any string, with its quotes. -/
def string? : List Char → Option (String × List Char)
  | '"' :: '"' :: '"' :: rest => multiline rest
  | '"' :: rest => basic rest
  | '\'' :: '\'' :: '\'' :: rest => multilineLiteral rest
  | '\'' :: rest => literal rest
  | _ => none

end PocketShell.Toml
