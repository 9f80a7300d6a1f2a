import PocketShell.Text.Pieces

/-!
# File names

Names are paths. `FileName.normalize` drops empty segments and `.`, and lets `..` cancel the segment
before it (at the start it cancels nothing). A relative name stays relative.
-/

namespace PocketShell.FileName

/-- The segments left of a path, the last one first: one more segment comes in at the front. -/
def enter (resolved : List (List Char)) (segment : List Char) : List (List Char) :=
  if segment = [] ∨ segment = ['.'] then resolved
  else if segment = ['.', '.'] then resolved.tail
  else segment :: resolved

def resolve (segments : List (List Char)) : List (List Char) :=
  (segments.foldl enter []).reverse

def normalizeChars (name : List Char) : List Char :=
  let body := Text.join '/' (resolve (Text.splitAt '/' name))
  if name.head? = some '/' then '/' :: body else body

def normalize (name : String) : String := String.ofList (normalizeChars name.toList)

end PocketShell.FileName
