import PocketShell.Text.Numeral

/-!
# Backslash escapes

* `Escape.unescape` : a text with its escapes carried out, and whether `\\c` cut it short.

A backslash at the end, and one before a character that has no meaning after a backslash, stand for
themselves.
-/

namespace PocketShell.Escape

structure Unescaped where
  output : List Char
  /-- Whether `\\c` ended the output. -/
  stop : Bool
deriving DecidableEq, Repr

/-- The character of an escape that is a single letter. -/
def simple? : Char → Option Char
  | '\\' => some '\\'
  | 'n' => some '\n'
  | 't' => some '\t'
  | 'r' => some '\r'
  | 'a' => some '\x07'
  | 'b' => some '\x08'
  | 'f' => some '\x0c'
  | 'v' => some '\x0b'
  | 'e' => some '\x1b'
  | 'E' => some '\x1b'
  | _ => none

/-- The character with this code point, if there is one. -/
def ofCode? (n : Nat) : Option Char := if n.isValidChar then some (Char.ofNat n) else none

/-- The digits at the start of a text, at most `max` of them. -/
def leadingDigits (radix max : Nat) (cs : List Char) : List Char :=
  (cs.take max).takeWhile fun c => (Numeral.digit? radix c).isSome

/-- The character that digits at the start of a text stand for. Octal codes are taken modulo 256. -/
def numeric? (radix max : Nat) (cs : List Char) : Option Char :=
  (Numeral.toNat? radix (leadingDigits radix max cs)).bind fun code =>
    ofCode? (if radix = 8 then code % 256 else code)

/-- The radix, the greatest number of digits, and the text that stands for the escape when no
character can be made of it, of the escapes with digits. -/
def radix? : Char → Option (Nat × Nat × List Char)
  | '0' => some (8, 3, ['\x00'])
  | 'x' => some (16, 2, ['\\', 'x'])
  | 'u' => some (16, 4, ['\\', 'u'])
  | _ => none

/-- Carries out escapes after the output `done`, newest character first. -/
def unescapeFrom (done : List Char) : List Char → Unescaped
  | [] => ⟨done.reverse, false⟩
  | '\\' :: next :: rest =>
    match simple? next with
    | some c => unescapeFrom (c :: done) rest
    | none =>
      if next = 'c' then ⟨done.reverse, true⟩
      else
        match radix? next with
        | none => unescapeFrom (next :: '\\' :: done) rest
        | some (radix, max, instead) =>
          match numeric? radix max rest with
          | some c => unescapeFrom (c :: done) (rest.drop (leadingDigits radix max rest).length)
          | none => unescapeFrom (instead.reverse ++ done) rest
  | c :: rest => unescapeFrom (c :: done) rest
termination_by cs => cs.length
decreasing_by all_goals simp <;> omega

def unescape (cs : List Char) : Unescaped := unescapeFrom [] cs

end PocketShell.Escape
