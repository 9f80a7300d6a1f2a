import PocketShell.Text.Extender
import PocketShell.Text.Printable

/-!
# Escaped and quoted text

Texts shown inside messages. Both forms write quotes, the backslash and the common control
characters with a backslash, and what cannot be seen as its code point in braces.

* `Text.escaped` : escapes both quotes, and an extender only where it would join the quote in front
  of the text;
* `Text.quoted` : inside double quotes; leaves the single quote alone and escapes every extender.
-/

namespace PocketShell.Text

/-- Which characters are escaped besides the ones that always are. -/
structure Escaping where
  singleQuote : Bool
  extenders : Bool

/-- The code point in lower case hexadecimal, between braces. -/
def codePoint (c : Char) : List Char :=
  '\\' :: 'u' :: '\x7b' :: (Nat.toDigits 16 c.toNat ++ ['\x7d'])

def escapeChar (e : Escaping) (c : Char) : List Char :=
  if c = '\x00' then ['\\', '0']
  else if c = '\t' then ['\\', 't']
  else if c = '\r' then ['\\', 'r']
  else if c = '\n' then ['\\', 'n']
  else if c = '\'' then if e.singleQuote then ['\\', c] else [c]
  else if c = '"' ∨ c = '\\' then ['\\', c]
  else if e.extenders && isExtender c then codePoint c
  else if isPrintable c then [c]
  else codePoint c

def escapedChars : List Char → List Char
  | [] => []
  | c :: cs => escapeChar ⟨true, true⟩ c ++ cs.flatMap (escapeChar ⟨true, false⟩)

def escaped (text : String) : String := String.ofList (escapedChars text.toList)

def quotedChars (cs : List Char) : List Char :=
  '"' :: (cs.flatMap (escapeChar ⟨false, true⟩) ++ ['"'])

def quoted (text : String) : String := String.ofList (quotedChars text.toList)

end PocketShell.Text
