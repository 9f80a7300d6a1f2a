import PocketShell.Command.Cat
import PocketShell.Proofs.Pieces
import Mathlib.Data.List.Basic

/-!
# Numbered lines

* `Text.lines` : the lines of a text that ends with a line break, or is empty
  (`Text.lines_flatten` : the lines of several texts are those of all of them together);
* `Cat.rows` : what `cat -n` takes for the lines of a text. An empty text, which has no line, is one
  row all the same;
* `Cat.resume_numbered` : `cat -n` numbers the rows of its files;
* `Cat.run_numbered_iff` : these are the lines of the files put together if and only if no file is
  empty.
-/

namespace PocketShell

/-! ## Lines -/

namespace Text

variable {text : List Char} {texts : List (List Char)}

/-- Whether a text is empty or ends with a line break. -/
def Closed (text : List Char) : Prop := text = [] ∨ text.getLast? = some '\n'

/-- The lines of a text, each with its line break. -/
def lines (text : List Char) : List (List Char) :=
  (text.splitOn '\n').dropLast.map (· ++ ['\n'])

theorem lines_concat (text : List Char) :
    lines (text ++ ['\n']) = (text.splitOn '\n').map (· ++ ['\n']) := by
  rw [lines, List.splitOn_append_cons_self, List.splitOn_nil, List.dropLast_concat]

theorem Closed.cases (h : Closed text) : text = [] ∨ ∃ body, text = body ++ ['\n'] := by
  refine h.imp_right fun hlast => ?_
  exact List.getLast?_eq_some_iff.1 hlast

theorem lines_append (h : Closed text) (rest : List Char) :
    lines (text ++ rest) = lines text ++ lines rest := by
  rcases h.cases with rfl | ⟨body, rfl⟩
  · rfl
  · rw [lines_concat, List.append_assoc, List.singleton_append, lines,
      List.splitOn_append_cons_self, List.dropLast_append_of_ne_nil (List.splitOn_ne_nil _ _),
      List.map_append, lines]

theorem lines_flatten (h : ∀ text ∈ texts, Closed text) :
    lines texts.flatten = texts.flatMap lines := by
  induction texts with
  | nil => rfl
  | cons text texts ih =>
    rw [List.flatten_cons, lines_append (h text List.mem_cons_self), List.flatMap_cons,
      ih fun t ht => h t (List.mem_cons_of_mem text ht)]

theorem Closed.append {rest : List Char} (h : Closed text) (hrest : Closed rest) :
    Closed (text ++ rest) := by
  rcases hrest with rfl | hlast
  · rwa [List.append_nil]
  · right
    rw [List.getLast?_append, hlast, Option.some_or]

theorem closed_flatten (h : ∀ text ∈ texts, Closed text) : Closed texts.flatten := by
  induction texts with
  | nil => exact .inl rfl
  | cons text texts ih =>
    exact (h text List.mem_cons_self).append (ih fun t ht => h t (List.mem_cons_of_mem text ht))

theorem flatten_lines (h : Closed text) : (lines text).flatten = text := by
  rcases h.cases with rfl | ⟨body, rfl⟩
  · rfl
  · rw [lines_concat, ← List.flatMap_def, ← splitAt_eq_splitOn,
      ← join_concat (splitAt_ne_nil '\n' body), join_splitAt]

end Text

/-! ## Rows -/

namespace Command.Cat

open Text (Closed lines)

/-- What is numbered of a text: its lines, and of an empty text a row that is empty. -/
def rows (text : List Char) : List (List Char) := if text = [] then [[]] else lines text

/-- Rows with their numbers, from `start` on. -/
def numberRows (start : Nat) (rows : List (List Char)) : List Char :=
  (rows.mapIdx fun i row => numberedLine (start + i) row).flatten

section rows

variable {text : List Char} {start : Nat}

theorem numberRows_cons (start : Nat) (row : List Char) (rows : List (List Char)) :
    numberRows start (row :: rows) = numberedLine start row ++ numberRows (start + 1) rows := by
  simp [numberRows, List.mapIdx_cons, Nat.add_assoc, Nat.add_comm 1]

theorem numberRows_append (start : Nat) (as bs : List (List Char)) :
    numberRows start (as ++ bs) = numberRows start as ++ numberRows (start + as.length) bs := by
  have hnumber (i : Nat) : start + (i + as.length) = start + as.length + i := by omega
  simp only [numberRows, List.mapIdx_append, List.flatten_append, hnumber]

/-- Line breaks can be added before or after the lines are numbered. -/
theorem flatMap_numberedFrom (start : Nat) (pieces : List (List Char)) :
    (numberedFrom start pieces).flatMap (· ++ ['\n']) =
      numberRows start (pieces.map (· ++ ['\n'])) := by
  induction pieces generalizing start with
  | nil => rfl
  | cons piece pieces ih =>
    rw [numberedFrom, List.flatMap_cons, List.map_cons, numberRows_cons, ih]
    simp [numberedLine]

/-- What is numbered of one text. -/
theorem numberLines_eq (h : Closed text) (start : Nat) :
    numberLines start text = (numberRows start (rows text), start + (rows text).length) := by
  rcases h.cases with rfl | ⟨body, rfl⟩
  · simp [numberLines, rows, numberRows, numberedFrom, Text.splitAt, Text.splitFrom, Text.join]
  · have hpieces : Text.splitAt '\n' (body ++ ['\n']) = Text.splitAt '\n' body ++ [[]] := by
      simp only [Text.splitAt_eq_splitOn]
      exact List.splitOn_append_cons_self body []
    have hrows : rows (body ++ ['\n']) = (Text.splitAt '\n' body).map (· ++ ['\n']) := by
      rw [rows, if_neg (by simp), Text.lines_concat, Text.splitAt_eq_splitOn]
    obtain ⟨piece, pieces, hbody⟩ := List.exists_cons_of_ne_nil (Text.splitAt_ne_nil '\n' body)
    have hne : numberedFrom start (Text.splitAt '\n' body) ≠ [] := by
      rw [hbody]
      exact List.cons_ne_nil _ _
    simp only [numberLines, List.getLast?_concat, if_true, hpieces, hrows, List.dropLast_concat,
      Text.join_concat hne, flatMap_numberedFrom, List.length_map]

/-- A row has its tabs and the one behind its number. -/
theorem count_numberRows (start : Nat) (rows : List (List Char)) :
    (numberRows start rows).count '\t' = rows.length + rows.flatten.count '\t' := by
  have hnumber (n : Nat) : (Text.alignRight 6 (Numeral.ofNat n)).count '\t' = 0 := by
    refine List.count_eq_zero.2 fun htab => ?_
    rcases List.mem_append.1 htab with hspace | hdigit
    · exact absurd (List.eq_of_mem_replicate hspace) (by decide)
    · have := Nat.isDigit_of_mem_toDigits (by decide) (by decide) hdigit
      exact absurd this (by decide)
  induction rows generalizing start with
  | nil => rfl
  | cons row rows ih =>
    rw [numberRows_cons, List.count_append, ih, numberedLine, List.count_append, hnumber,
      List.count_cons_self, List.length_cons, List.flatten_cons, List.count_append]
    omega

/-! ## Rows and lines -/

variable {texts : List (List Char)}

theorem flatten_rows (h : Closed text) : (rows text).flatten = text := by
  by_cases hempty : text = []
  · simp [rows, hempty]
  · rw [rows, if_neg hempty, Text.flatten_lines h]

theorem flatten_flatMap_rows (h : ∀ text ∈ texts, Closed text) :
    (texts.flatMap rows).flatten = texts.flatten := by
  induction texts with
  | nil => rfl
  | cons text texts ih =>
    rw [List.flatMap_cons, List.flatten_append, List.flatten_cons,
      flatten_rows (h text List.mem_cons_self), ih fun t ht => h t (List.mem_cons_of_mem text ht)]

/-- Every empty text is a row without a line. -/
theorem length_flatMap_rows (texts : List (List Char)) :
    (texts.flatMap rows).length = (texts.flatMap lines).length + texts.count [] := by
  induction texts with
  | nil => rfl
  | cons text texts ih =>
    rw [List.flatMap_cons, List.flatMap_cons, List.length_append, List.length_append, ih]
    by_cases hempty : text = []
    · subst hempty
      have hrow : (rows []).length = 1 ∧ (lines []).length = 0 := ⟨rfl, rfl⟩
      rw [List.count_cons_self, hrow.1, hrow.2]
      omega
    · rw [rows, if_neg hempty, List.count_cons_of_ne hempty]
      omega

/-- Numbers of rows can be told apart where the rows hold the same text. -/
theorem length_eq_of_numberRows_eq {as bs : List (List Char)} (hflatten : as.flatten = bs.flatten)
    (h : numberRows start as = numberRows start bs) : as.length = bs.length := by
  have htabs := congrArg (List.count '\t') h
  rw [count_numberRows, count_numberRows, hflatten] at htabs
  omega

theorem rows_of_ne_nil (h : text ≠ []) : rows text = lines text := by rw [rows, if_neg h]

theorem flatMap_rows (h : [] ∉ texts) : texts.flatMap rows = texts.flatMap lines :=
  List.flatMap_congr fun _ htext => rows_of_ne_nil fun hempty => h (hempty ▸ htext)

/-- The rows of texts are numbered like the lines of all of them together if and only if none of
them is empty. -/
theorem numberRows_eq_lines_iff (h : ∀ text ∈ texts, Closed text) :
    numberRows start (texts.flatMap rows) = numberRows start (lines texts.flatten) ↔
      [] ∉ texts := by
  constructor
  · intro heq
    have hflatten : (texts.flatMap rows).flatten = (lines texts.flatten).flatten := by
      rw [flatten_flatMap_rows h, Text.flatten_lines (Text.closed_flatten h)]
    have hlength := length_eq_of_numberRows_eq hflatten heq
    rw [length_flatMap_rows, Text.lines_flatten h] at hlength
    exact List.count_eq_zero.1 (by omega)
  · intro hfull
    rw [flatMap_rows hfull, Text.lines_flatten h]

/-- They are numbered like the rows of all of them together under the same condition, or if there is
only one text. -/
theorem numberRows_eq_rows_iff (h : ∀ text ∈ texts, Closed text) (hne : texts ≠ []) :
    numberRows start (texts.flatMap rows) = numberRows start (rows texts.flatten) ↔
      [] ∉ texts ∨ texts.length = 1 := by
  constructor
  · intro heq
    by_cases hall : texts.flatten = []
    · -- All texts are empty, and each of them has a number.
      have hflatten : (texts.flatMap rows).flatten = (rows texts.flatten).flatten := by
        rw [flatten_flatMap_rows h, flatten_rows (Text.closed_flatten h)]
      have hlength := length_eq_of_numberRows_eq hflatten heq
      have hcount : texts.count [] = texts.length :=
        List.count_eq_length.2 fun text htext => (List.flatten_eq_nil_iff.1 hall text htext).symm
      have hnone : (texts.flatMap lines).length = 0 := by
        rw [← Text.lines_flatten h, hall]
        rfl
      have hone : (rows ([] : List Char)).length = 1 := rfl
      rw [length_flatMap_rows, hcount, hnone, hall, hone] at hlength
      exact .inr (by omega)
    · rw [rows_of_ne_nil hall] at heq
      exact .inl ((numberRows_eq_lines_iff h).1 heq)
  · rintro (hfull | hone)
    · have hsome : texts.flatten ≠ [] := by
        obtain ⟨text, htext⟩ := List.exists_mem_of_ne_nil texts hne
        intro hall
        exact hfull (List.flatten_eq_nil_iff.1 hall text htext ▸ htext)
      rw [rows_of_ne_nil hsome, (numberRows_eq_lines_iff h).2 hfull]
    · obtain ⟨text, rfl⟩ := List.length_eq_one_iff.1 hone
      simp

end rows

/-! ## Files -/

/-- Whether a word names a stored file and is no option. -/
structure Stored (sc : Scene) (name : String) (text : String) : Prop where
  plain : name.toList.head? ≠ some '-'
  content : sc.world.store.read? name = some text

section files

variable {sc : Scene} {name text : String}

theorem Stored.ne_dash (h : Stored sc name text) : name ≠ "-" := by
  rintro rfl
  exact h.plain rfl

theorem Stored.not_isNumberOption (h : Stored sc name text) : ¬ isNumberOption name := by
  intro hoption
  have hname : name = "-n" ∨ name = "--number" := by simpa [isNumberOption] using hoption
  rcases hname with rfl | rfl <;> exact h.plain rfl

theorem Stored.not_looksLikeOption (h : Stored sc name text) : ¬ looksLikeOption name := by
  simp [looksLikeOption, h.plain]

theorem resume_numbered_cons (h : Stored sc name text) (files : List String) (number : Nat)
    (result : Result) (wait : Wait) :
    (numbered (name :: files) number result).resume wait sc =
      (numbered files (numberLines number text.toList).2 { result with
        stdout := result.stdout ++ String.ofList (numberLines number text.toList).1 }).resume
          .nothing sc := by
  rw [numbered, readInput, if_neg h.ne_dash]
  change Program.resume _ .nothing sc = _
  rw [h.content]
  rfl

/-- The rows of all files are numbered in one count. -/
theorem resume_numbered {files : List (String × String)}
    (h : ∀ f ∈ files, Stored sc f.1 f.2 ∧ Closed f.2.toList) (number : Nat) (result : Result)
    (wait : Wait) :
    (numbered (files.map (·.1)) number result).resume wait sc =
      (sc, .finished { result with
        stdout := result.stdout ++
          String.ofList (numberRows number (files.flatMap fun f => rows f.2.toList)) }) := by
  induction files generalizing number result wait with
  | nil =>
    have hempty : result.stdout ++ String.ofList (numberRows number []) = result.stdout :=
      String.append_empty
    rw [List.flatMap_nil, hempty]
    rfl
  | cons f files ih =>
    obtain ⟨hstored, hclosed⟩ := h f List.mem_cons_self
    rw [List.map_cons, resume_numbered_cons hstored, numberLines_eq hclosed,
      ih fun g hg => h g (List.mem_cons_of_mem f hg), List.flatMap_cons, numberRows_append,
      String.ofList_append, String.append_assoc]

theorem run_eq {files : List (String × String)} (hne : files ≠ [])
    (h : ∀ f ∈ files, Stored sc f.1 f.2) :
    run ("-n" :: files.map (·.1)) = numbered (files.map (·.1)) 1 {} := by
  have hnumber : isNumberOption "-n" := rfl
  have hothers : ("-n" :: files.map (·.1)).filter (fun arg => !isNumberOption arg) =
      files.map (·.1) := by
    rw [List.filter_cons_of_neg (by simp [hnumber]), List.filter_eq_self]
    intro name hname
    obtain ⟨f, hf, rfl⟩ := List.mem_map.1 hname
    simpa using (h f hf).not_isNumberOption
  have hoption : (files.map (·.1)).find? looksLikeOption = none := by
    rw [List.find?_eq_none]
    intro name hname
    obtain ⟨f, hf, rfl⟩ := List.mem_map.1 hname
    exact (h f hf).not_looksLikeOption
  have hfiles : (files.map (·.1)).isEmpty = Bool.false := by simpa using hne
  have hany : ("-n" :: files.map (·.1)).any isNumberOption = Bool.true := by
    rw [List.any_cons, hnumber, Bool.true_or]
  simp only [run, hothers, hoption, hfiles, hany]
  rfl

/-- What `cat -n` reports about files. -/
theorem resume_run {files : List (String × String)} (hne : files ≠ [])
    (h : ∀ f ∈ files, Stored sc f.1 f.2 ∧ Closed f.2.toList) :
    (run ("-n" :: files.map (·.1))).resume .nothing sc =
      (sc, .finished (success
        (String.ofList (numberRows 1 (files.flatMap fun f => rows f.2.toList))))) := by
  rw [run_eq hne fun f hf => (h f hf).1, resume_numbered h, String.empty_append]
  rfl

end files

/-- Files that are empty or end with a line break: `cat -n` numbers their rows in one count. These
are the lines of the files put together if and only if no file is empty. It writes the same for one
file with all their text if and only if no file is empty or there is only one. -/
theorem run_numbered_iff {sc sc' : Scene} {files : List (String × String)} {single : String}
    (hne : files ≠ []) (hfiles : ∀ f ∈ files, Stored sc f.1 f.2 ∧ Closed f.2.toList)
    (hsingle : Stored sc' single (String.join (files.map (·.2)))) :
    ∃ many one,
      (run ("-n" :: files.map (·.1))).resume .nothing sc = (sc, .finished (success many)) ∧
      (run ["-n", single]).resume .nothing sc' = (sc', .finished (success one)) ∧
      many.toList = numberRows 1 (files.flatMap fun f => rows f.2.toList) ∧
      (many.toList = numberRows 1 (lines (String.join (files.map (·.2))).toList) ↔
        ∀ f ∈ files, f.2 ≠ "") ∧
      (many = one ↔ (∀ f ∈ files, f.2 ≠ "") ∨ files.length = 1) := by
  have hclosed : ∀ text ∈ files.map (·.2.toList), Closed text := by
    intro text htext
    obtain ⟨f, hf, rfl⟩ := List.mem_map.1 htext
    exact (hfiles f hf).2
  have hjoin : (String.join (files.map (·.2))).toList = (files.map (·.2.toList)).flatten := by
    rw [String.toList_join, List.flatMap_map, List.flatMap_def]
  have hrows : (files.flatMap fun f => rows f.2.toList) =
      (files.map (·.2.toList)).flatMap rows := by
    rw [List.flatMap_map]
  have hempty : [] ∉ files.map (·.2.toList) ↔ ∀ f ∈ files, f.2 ≠ "" := by
    constructor
    · exact fun h f hf htext => h (List.mem_map.2 ⟨f, hf, by rw [htext]; rfl⟩)
    · intro h hmem
      obtain ⟨f, hf, hnil⟩ := List.mem_map.1 hmem
      exact h f hf (String.toList_eq_nil_iff.1 hnil)
  have hone := resume_run (List.cons_ne_nil (single, String.join (files.map (·.2))) [])
    (by simpa [hjoin] using ⟨hsingle, Text.closed_flatten hclosed⟩)
  refine ⟨_, _, resume_run hne hfiles, hone, String.toList_ofList, ?_, ?_⟩
  · rw [String.toList_ofList, hrows, hjoin, numberRows_eq_lines_iff hclosed, hempty]
  · rw [String.ofList_inj, List.flatMap_singleton, hjoin, hrows,
      numberRows_eq_rows_iff hclosed (by simpa using hne), hempty, List.length_map]

/-- A scene with a few files: `ab` holds the text of `a` and `b`, and `e` is empty. -/
def sampleScene : Scene where
  world := { store := Store.ofList [("a", "x\n"), ("b", "\ny\n"), ("ab", "x\n\ny\n"), ("e", "")] }

theorem stored_sample : Stored sampleScene "a" "x\n" ∧ Stored sampleScene "b" "\ny\n" ∧
    Stored sampleScene "ab" "x\n\ny\n" ∧ Stored sampleScene "e" "" :=
  ⟨⟨by decide, by decide⟩, ⟨by decide, by decide⟩, ⟨by decide, by decide⟩, ⟨by decide, by decide⟩⟩

/-- Two files without an empty one. -/
theorem run_numbered_iff_sample :
    (run ["-n", "a", "b"]).resume .nothing sampleScene =
        (sampleScene, .finished (success "     1\tx\n     2\t\n     3\ty\n")) ∧
      (run ["-n", "ab"]).resume .nothing sampleScene =
        (sampleScene, .finished (success "     1\tx\n     2\t\n     3\ty\n")) := by
  obtain ⟨ha, hb, hab, -⟩ := stored_sample
  have hfiles : ∀ f ∈ [("a", "x\n"), ("b", "\ny\n")],
      Stored sampleScene f.1 f.2 ∧ Closed f.2.toList := by
    simpa [Closed] using ⟨ha, hb⟩
  have hjoin : String.join ([("a", "x\n"), ("b", "\ny\n")].map (·.2)) = "x\n\ny\n" := by decide
  have hfull : ∀ f ∈ [("a", "x\n"), ("b", "\ny\n")], f.2 ≠ "" := by decide
  obtain ⟨many, one, hmany, hone, hrows, -, hsame⟩ :=
    run_numbered_iff (List.cons_ne_nil _ _) hfiles (hjoin ▸ hab)
  have htext : many = "     1\tx\n     2\t\n     3\ty\n" := by
    rw [← String.toList_inj, hrows]
    decide
  rw [← hsame.2 (.inl hfull)] at hone
  exact ⟨htext ▸ hmany, htext ▸ hone⟩

/-- An empty file in front of another takes a number, and writes it in front of the other's. -/
theorem run_numbered_emptyFile :
    (run ["-n", "e", "a"]).resume .nothing sampleScene =
        (sampleScene, .finished (success "     1\t     2\tx\n")) ∧
      (run ["-n", "a"]).resume .nothing sampleScene =
        (sampleScene, .finished (success "     1\tx\n")) := by
  obtain ⟨ha, -, -, he⟩ := stored_sample
  have hfiles : ∀ f ∈ [("e", ""), ("a", "x\n")],
      Stored sampleScene f.1 f.2 ∧ Closed f.2.toList := by
    simpa [Closed] using ⟨he, ha⟩
  have hmany := resume_run (List.cons_ne_nil _ _) hfiles
  have hone := resume_run (List.cons_ne_nil ("a", "x\n") []) fun f hf =>
    hfiles f (List.mem_cons_of_mem _ hf)
  exact ⟨hmany, hone⟩

end Command.Cat

end PocketShell
