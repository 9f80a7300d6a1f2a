import PocketShell.Source

/-!
# Tokens

* `TokenKind`, `Token` : the units of a script, with the position where they begin;
* `TokenKind.ofStart?`, `TokenKind.longer?` : the operators, as a first character and the character
  that makes a longer operator of one;
* `isGap`, `isWordChar` : the characters of white space, and the ones words are made of.
-/

namespace PocketShell

inductive TokenKind where
  | whitespace
  | identifier
  | newline
  /-- A backslash at the end of a line, which joins it with the next. -/
  | backslash
  | quote
  | dblQuote
  | backtick
  | hash
  | dollar
  | lparen
  | rparen
  | semicolon
  | amp
  | pipe
  | pipePipe
  | ampAmp
  | lt
  | ltLt
  | ltLtLt
  | gt
  | gtGt
  | dollarParen
deriving DecidableEq, Repr

namespace TokenKind

def text : TokenKind → String
  | whitespace => "WHITESPACE"
  | identifier => "IDENTIFIER"
  | newline => "NEWLINE"
  | backslash => "\\"
  | quote => "'"
  | dblQuote => "\""
  | backtick => "`"
  | hash => "#"
  | dollar => "$"
  | lparen => "("
  | rparen => ")"
  | semicolon => ";"
  | amp => "&"
  | pipe => "|"
  | pipePipe => "||"
  | ampAmp => "&&"
  | lt => "<"
  | ltLt => "<<"
  | ltLtLt => "<<<"
  | gt => ">"
  | gtGt => ">>"
  | dollarParen => "$("

/-- The operator that a single character is. -/
def ofStart? : Char → Option TokenKind
  | '(' => some lparen
  | ')' => some rparen
  | '|' => some pipe
  | '&' => some amp
  | '<' => some lt
  | '>' => some gt
  | '#' => some hash
  | '$' => some dollar
  | ';' => some semicolon
  | '\n' => some newline
  | '\\' => some backslash
  | '\'' => some quote
  | '"' => some dblQuote
  | '\x60' => some backtick
  | _ => none

/-- The character that makes a longer operator, and that operator. -/
def longer? : TokenKind → Option (Char × TokenKind)
  | pipe => some ('|', pipePipe)
  | amp => some ('&', ampAmp)
  | lt => some ('<', ltLt)
  | ltLt => some ('<', ltLtLt)
  | gt => some ('>', gtGt)
  | dollar => some ('(', dollarParen)
  | _ => none

end TokenKind

/-! ## Classes of characters -/

def startsOperator (c : Char) : Bool := (TokenKind.ofStart? c).isSome

/-- White space inside a line. -/
def isGap (c : Char) : Bool := c = ' ' || c = '\t' || c = '\x0b'

/-- Characters that stand for themselves in a word. -/
def isWordChar (c : Char) : Bool := !isGap c && !startsOperator c

/-- Characters of a variable's name. -/
def isNameChar (c : Char) : Bool := c.isAlphanum || c = '_'

def isNotQuote (c : Char) : Bool := c ≠ '\''

/-! ## Tokens -/

structure Token where
  kind : TokenKind
  value : String
  position : Position := {}
deriving DecidableEq, Repr

end PocketShell
