/-!
# Pieces of a text

* `Text.splitAt sep cs` : the pieces between the occurrences of `sep`, at least one;
* `Text.join sep pieces` : pieces put together with `sep` between them;
* `Text.join_splitAt` : splitting loses nothing.
-/

namespace PocketShell.Text

/-- The pieces of a text, after a piece has begun with `piece`, newest character first. -/
def splitFrom (sep : Char) (piece : List Char) : List Char → List (List Char)
  | [] => [piece.reverse]
  | c :: cs => if c = sep then piece.reverse :: splitFrom sep [] cs else splitFrom sep (c :: piece) cs

def splitAt (sep : Char) (cs : List Char) : List (List Char) := splitFrom sep [] cs

def join (sep : Char) : List (List Char) → List Char
  | [] => []
  | [piece] => piece
  | piece :: rest => piece ++ sep :: join sep rest

theorem splitFrom_ne_nil (sep : Char) (piece cs : List Char) : splitFrom sep piece cs ≠ [] := by
  induction cs generalizing piece with
  | nil => simp [splitFrom]
  | cons c cs ih => unfold splitFrom; split <;> simp [ih]

theorem join_cons {sep : Char} {piece : List Char} {rest : List (List Char)} (h : rest ≠ []) :
    join sep (piece :: rest) = piece ++ sep :: join sep rest := by
  cases rest with
  | nil => exact absurd rfl h
  | cons => rfl

theorem join_splitFrom (sep : Char) (piece cs : List Char) :
    join sep (splitFrom sep piece cs) = piece.reverse ++ cs := by
  induction cs generalizing piece with
  | nil => simp [splitFrom, join]
  | cons c cs ih =>
    unfold splitFrom
    split
    · rename_i h
      rw [join_cons (splitFrom_ne_nil sep [] cs), ih, h]
      simp
    · rw [ih]
      simp

theorem join_splitAt (sep : Char) (cs : List Char) : join sep (splitAt sep cs) = cs := by
  simp [splitAt, join_splitFrom]

end PocketShell.Text
