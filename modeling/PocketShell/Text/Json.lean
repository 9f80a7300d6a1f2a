/-!
# Texts in JSON

`Text.json` writes a text as a JSON string: quotes, backslashes and the characters below U+0020 are
escaped, everything else stands for itself.
-/

namespace PocketShell.Text

/-- A number below 256 as two hexadecimal digits. -/
def hexByte (n : Nat) : List Char := [Nat.digitChar (n / 16), Nat.digitChar (n % 16)]

def jsonEscaped (c : Char) : List Char :=
  match c with
  | '"' => ['\\', '"']
  | '\\' => ['\\', '\\']
  | '\x08' => ['\\', 'b']
  | '\t' => ['\\', 't']
  | '\n' => ['\\', 'n']
  | '\x0c' => ['\\', 'f']
  | '\r' => ['\\', 'r']
  | c => if c.toNat < 0x20 then '\\' :: 'u' :: '0' :: '0' :: hexByte c.toNat else [c]

def json (text : String) : String :=
  "\"" ++ String.ofList (text.toList.flatMap jsonEscaped) ++ "\""

end PocketShell.Text
