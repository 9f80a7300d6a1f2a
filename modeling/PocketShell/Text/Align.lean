/-!
# Alignment

Text brought to a width, counted in characters. Text that is wider stays as it is.
-/

namespace PocketShell.Text

def alignRight (width : Nat) (cs : List Char) : List Char :=
  List.replicate (width - cs.length) ' ' ++ cs

def alignLeft (width : Nat) (cs : List Char) : List Char :=
  cs ++ List.replicate (width - cs.length) ' '

/-- Fills a numeral with zeros, after its sign. -/
def fillZeros (width : Nat) : List Char → List Char
  | '-' :: digits => '-' :: (List.replicate (width - (digits.length + 1)) '0' ++ digits)
  | digits => List.replicate (width - digits.length) '0' ++ digits

end PocketShell.Text
