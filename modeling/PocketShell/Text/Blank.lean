import PocketShell.Text.Ranges

/-!
# Blank characters

* `Text.isBlank` : the characters with the property `White_Space`;
* `Text.isAllBlank` : whether a text holds nothing else;
* `Text.trim` : a text without blanks at its ends;
* `Text.blankWords` : the maximal runs of other characters.
-/

namespace PocketShell.Text

def blankRanges : List (Nat × Nat) :=
  [ (0x9, 0xD), (0x20, 0x20), (0x85, 0x85), (0xA0, 0xA0), (0x1680, 0x1680), (0x2000, 0x200A),
    (0x2028, 0x2029), (0x202F, 0x202F), (0x205F, 0x205F), (0x3000, 0x3000) ]

def isBlank (c : Char) : Bool := inRanges blankRanges c

def isAllBlank (cs : List Char) : Bool := cs.all isBlank

def trim (cs : List Char) : List Char :=
  ((cs.dropWhile isBlank).reverse.dropWhile isBlank).reverse

/-- The runs of characters that are not blank; `run` is the run that ends here, if any. -/
def blankWordsFrom (run : List Char) : List Char → List (List Char)
  | [] => if run.isEmpty then [] else [run.reverse]
  | c :: cs =>
    if isBlank c then
      if run.isEmpty then blankWordsFrom [] cs else run.reverse :: blankWordsFrom [] cs
    else blankWordsFrom (c :: run) cs

def blankWords (cs : List Char) : List (List Char) := blankWordsFrom [] cs

end PocketShell.Text
