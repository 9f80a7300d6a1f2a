import PocketShell.Text.Pieces

/-!
# Splitting and joining

* `Text.splitAt_eq_splitOn` : texts are split the way the library splits lists;
* `Text.splitAt_append` : a separator parts the pieces before it from those behind it;
* `Text.splitAt_join` : pieces without the separator are found again in the text they make.
-/

namespace PocketShell.Text

variable {sep : Char} {piece : List Char} {pieces : List (List Char)}

theorem splitFrom_eq (sep : Char) (piece cs : List Char) :
    splitFrom sep piece cs = cs.splitOnPPrepend (· == sep) piece := by
  induction cs generalizing piece with
  | nil => rfl
  | cons c cs ih =>
    rw [splitFrom, List.splitOnPPrepend_cons_eq_if, ih, ih]
    simp

theorem splitAt_eq_splitOn (sep : Char) (cs : List Char) : splitAt sep cs = cs.splitOn sep :=
  splitFrom_eq sep [] cs

theorem splitAt_ne_nil (sep : Char) (cs : List Char) : splitAt sep cs ≠ [] :=
  splitFrom_ne_nil sep [] cs

theorem splitAt_append (sep : Char) (cs ds : List Char) :
    splitAt sep (cs ++ sep :: ds) = splitAt sep cs ++ splitAt sep ds := by
  simp only [splitAt_eq_splitOn]
  exact List.splitOn_append_cons_self cs ds

/-- No piece holds the separator. -/
theorem not_mem_of_mem_splitFrom {cs start : List Char} (hstart : sep ∉ start)
    (h : piece ∈ splitFrom sep start cs) : sep ∉ piece := by
  induction cs generalizing start with
  | nil =>
    obtain rfl := List.mem_singleton.1 h
    simpa using hstart
  | cons c cs ih =>
    rw [splitFrom] at h
    split at h
    · rcases List.mem_cons.1 h with rfl | hrest
      · simpa using hstart
      · exact ih List.not_mem_nil hrest
    · rename_i hc
      refine ih (fun hmem => ?_) h
      exact (List.mem_cons.1 hmem).elim (Ne.symm hc) hstart

theorem not_mem_of_mem_splitAt {cs : List Char} (h : piece ∈ splitAt sep cs) : sep ∉ piece :=
  not_mem_of_mem_splitFrom List.not_mem_nil h

theorem join_eq_intercalate (sep : Char) (pieces : List (List Char)) :
    join sep pieces = [sep].intercalate pieces := by
  induction pieces with
  | nil => rfl
  | cons piece rest ih =>
    cases rest with
    | nil => simp [join]
    | cons next rest => rw [join_cons (List.cons_ne_nil _ _), ih, List.intercalate_cons_cons]; simp

/-- Pieces without the separator are found again. -/
theorem splitAt_join (hne : pieces ≠ []) (h : ∀ piece ∈ pieces, sep ∉ piece) :
    splitAt sep (join sep pieces) = pieces := by
  rw [splitAt_eq_splitOn, join_eq_intercalate]
  exact List.splitOn_intercalate sep h hne

/-- An empty piece at the end is a separator at the end. -/
theorem join_concat_nil (h : pieces ≠ []) :
    join sep (pieces ++ [[]]) = join sep pieces ++ [sep] := by
  induction pieces with
  | nil => exact absurd rfl h
  | cons piece rest ih =>
    by_cases hrest : rest = []
    · simp [hrest, join]
    · rw [List.cons_append, join_cons (by simp), join_cons hrest, ih hrest, List.append_assoc,
        List.cons_append]

theorem join_concat (h : pieces ≠ []) :
    join sep pieces ++ [sep] = pieces.flatMap (· ++ [sep]) := by
  induction pieces with
  | nil => exact absurd rfl h
  | cons piece rest ih =>
    by_cases hrest : rest = []
    · simp [hrest, join]
    · rw [join_cons hrest, List.flatMap_cons, ← ih hrest]
      simp

end PocketShell.Text
