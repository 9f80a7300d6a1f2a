/-!
# Sets of characters as ranges

A property of characters is given as a list of ranges of code points, both ends included.
-/

namespace PocketShell.Text

/-- Whether the code point of `c` lies in one of the ranges. -/
def inRanges (ranges : List (Nat × Nat)) (c : Char) : Bool :=
  ranges.any fun r => r.1 ≤ c.toNat && c.toNat ≤ r.2

end PocketShell.Text
