import PocketShell.Command.Wc
import PocketShell.Proofs.Command.Inputs
import PocketShell.Proofs.Pieces

/-!
# Tables of counts

* `Wc.Aligned` : numbers at the right of columns that are all of one width;
* `Wc.exists_aligned` : there is such a width for all rows of a table, the total included. It rests
  on no count being longer than the total of its column;
* `Wc.run_eq` : `wc` reads its inputs and then writes a table of those that could be read.

`Wc.run_tabulates` puts this together.
-/

namespace PocketShell

theorem Numeral.length_ofNat_le {m n : Nat} (h : m ≤ n) :
    (Numeral.ofNat m).length ≤ (Numeral.ofNat n).length := by
  have hbound {k : Nat} := Nat.length_toDigits_le_iff (b := 10) (n := k) (by decide)
    (Nat.length_toDigits_pos (b := 10) (n := n))
  exact hbound.2 (Nat.lt_of_le_of_lt h (hbound.1 (Nat.le_refl _)))

namespace Command.Wc

/-! ## Columns -/

/-- Numbers in columns of one width, with a blank between two columns. Each number ends where its
column ends, and blanks fill the rest of the column. -/
structure Aligned (width : Nat) (numbers : List Nat) (text : List Char) : Prop where
  length : text.length + 1 = numbers.length * (width + 1)
  fits : ∀ n ∈ numbers, (Numeral.ofNat n).length ≤ width
  column : ∀ j n, numbers[j]? = some n → (text.drop (j * (width + 1))).take width =
    List.replicate (width - (Numeral.ofNat n).length) ' ' ++ Numeral.ofNat n
  gap : ∀ j, j + 1 < numbers.length → text[j * (width + 1) + width]? = some ' '

section aligned

variable {width n : Nat} {numbers : List Nat} {text : List Char}

theorem length_alignRight {cs : List Char} (h : cs.length ≤ width) :
    (Text.alignRight width cs).length = width := by
  rw [Text.alignRight, List.length_append, List.length_replicate]
  omega

theorem aligned_singleton (h : (Numeral.ofNat n).length ≤ width) :
    Aligned width [n] (Text.alignRight width (Numeral.ofNat n)) where
  length := by
    rw [length_alignRight h, List.length_singleton]
    omega
  fits := by simpa using h
  column := by
    intro j m hm
    cases j with
    | succ j => simp at hm
    | zero =>
      obtain rfl : n = m := by simpa using hm
      rw [Nat.zero_mul, List.drop_zero, List.take_of_length_le (Nat.le_of_eq (length_alignRight h))]
      rfl
  gap := fun j hj => by simp at hj

/-- One more column in front of others. -/
theorem Aligned.cons (h : Aligned width numbers text) (hn : (Numeral.ofNat n).length ≤ width) :
    Aligned width (n :: numbers) (Text.alignRight width (Numeral.ofNat n) ++ ' ' :: text) := by
  have hfirst := length_alignRight hn
  generalize hcell : Text.alignRight width (Numeral.ofNat n) = cell at hfirst ⊢
  have hsplit : cell ++ ' ' :: text = (cell ++ [' ']) ++ text := by simp
  have hskip (j : Nat) : (j + 1) * (width + 1) = (cell ++ [' ']).length + j * (width + 1) := by
    rw [List.length_append, List.length_singleton, hfirst, Nat.succ_mul, Nat.add_comm]
  refine ⟨?_, ?_, fun j m hm => ?_, fun j hj => ?_⟩
  · have hlength := h.length
    rw [List.length_append, List.length_cons, List.length_cons, Nat.succ_mul]
    omega
  · intro m hm
    rcases List.mem_cons.1 hm with rfl | hrest
    · exact hn
    · exact h.fits m hrest
  · cases j with
    | zero =>
      obtain rfl : n = m := by simpa using hm
      rw [Nat.zero_mul, List.drop_zero, List.take_left' hfirst, ← hcell]
      rfl
    | succ j =>
      rw [hsplit, hskip, List.drop_length_add_append]
      exact h.column j m (by simpa using hm)
  · cases j with
    | zero => rw [Nat.zero_mul, Nat.zero_add, List.getElem?_append_right (by omega), hfirst]; simp
    | succ j =>
      rw [hsplit, hskip, Nat.add_assoc, List.getElem?_append_right (by omega),
        Nat.add_sub_cancel_left]
      exact h.gap j (by simpa using hj)

theorem aligned_intercalate (hne : numbers ≠ [])
    (h : ∀ n ∈ numbers, (Numeral.ofNat n).length ≤ width) :
    Aligned width numbers
      ([' '].intercalate (numbers.map fun n => Text.alignRight width (Numeral.ofNat n))) := by
  rw [← Text.join_eq_intercalate]
  induction numbers with
  | nil => exact absurd rfl hne
  | cons n numbers ih =>
    have hn := h n List.mem_cons_self
    by_cases hrest : numbers = []
    · subst hrest
      exact aligned_singleton hn
    · rw [List.map_cons, Text.join_cons (by simpa using hrest)]
      exact (ih hrest fun m hm => h m (List.mem_cons_of_mem n hm)).cons hn

end aligned

/-! ## Totals -/

variable {c : Columns} {rows : List Row} {row : Row}

def columnSum (column : Counts → Nat) (rows : List Row) : Nat :=
  rows.foldr (fun row n => column row.counts + n) 0

/-- The row below the others. -/
def totalRow (rows : List Row) : Row where
  counts := ⟨columnSum (·.lines) rows, columnSum (·.words) rows, columnSum (·.bytes) rows⟩
  name := some "total"

/-- The rows of a table: there is a total if there are two rows or more above it. -/
def shown (rows : List Row) : List Row :=
  rows ++ if 2 ≤ rows.length then [totalRow rows] else []

theorem foldl_add (rows : List Row) (start : Counts) :
    (rows.map (·.counts)).foldl Counts.add start = start.add (totalRow rows).counts := by
  induction rows generalizing start with
  | nil => rfl
  | cons row rows ih =>
    rw [List.map_cons, List.foldl_cons, ih]
    simp only [Counts.add, totalRow, columnSum, List.foldr_cons, Nat.add_assoc]

theorem sum_eq_totalRow (rows : List Row) : sum (rows.map (·.counts)) = (totalRow rows).counts := by
  rw [sum, foldl_add]
  simp [Counts.add]

theorem le_columnSum (column : Counts → Nat) (h : row ∈ rows) :
    column row.counts ≤ columnSum column rows := by
  induction rows with
  | nil => cases h
  | cons first rows ih =>
    rw [columnSum, List.foldr_cons]
    rcases List.mem_cons.1 h with rfl | hrest
    · exact Nat.le_add_right _ _
    · exact Nat.le_trans (ih hrest) (Nat.le_add_left _ _)

/-- No count of a table is greater than the total of its column. -/
theorem le_totalRow (h : row ∈ shown rows) :
    row.counts.lines ≤ (totalRow rows).counts.lines ∧
      row.counts.words ≤ (totalRow rows).counts.words ∧
      row.counts.bytes ≤ (totalRow rows).counts.bytes := by
  rcases List.mem_append.1 h with habove | htotal
  · exact ⟨le_columnSum (·.lines) habove, le_columnSum (·.words) habove,
      le_columnSum (·.bytes) habove⟩
  · split at htotal
    · obtain rfl := List.mem_singleton.1 htotal
      exact ⟨Nat.le_refl _, Nat.le_refl _, Nat.le_refl _⟩
    · cases htotal

/-! ## Widths -/

theorem mem_select {counts : Counts} {n : Nat} (h : n ∈ c.select counts) :
    n = counts.lines ∨ n = counts.words ∨ n = counts.bytes := by
  have hcell {b : Bool} {m : Nat} (hn : n ∈ if b then [m] else []) : n = m := by
    cases b with
    | false => cases hn
    | true => exact List.mem_singleton.1 hn
  rcases List.mem_append.1 h with hfirst | hbytes
  · exact (List.mem_append.1 hfirst).imp hcell fun hwords => .inl (hcell hwords)
  · exact .inr (.inr (hcell hbytes))

theorem length_select (c : Columns) (counts counts' : Counts) :
    (c.select counts).length = (c.select counts').length := by
  obtain ⟨lines, words, bytes⟩ := c
  cases lines <;> cases words <;> cases bytes <;> rfl

/-- The width that is chosen is enough, unless it is none. -/
theorem length_le_columnWidth
    (hmany : ¬ (rows.length = 1 ∧ (c.select (totalRow rows).counts).length = 1))
    (h : row ∈ shown rows) {n : Nat} (hn : n ∈ c.select row.counts) :
    (Numeral.ofNat n).length ≤ columnWidth c rows := by
  obtain ⟨hlines, hwords, hbytes⟩ := le_totalRow h
  rw [columnWidth, sum_eq_totalRow, if_neg hmany]
  rcases mem_select hn with rfl | rfl | rfl
  · have := Numeral.length_ofNat_le hlines
    omega
  · have := Numeral.length_ofNat_le hwords
    omega
  · have := Numeral.length_ofNat_le hbytes
    omega

/-- A count that stands alone is as wide as its column. -/
theorem aligned_alone {n : Nat} {counts : Counts} (h : c.select counts = [n]) :
    Aligned (Numeral.ofNat n).length (c.select counts) (c.render 0 counts) := by
  have hrender : c.render 0 counts = Text.alignRight (Numeral.ofNat n).length (Numeral.ofNat n) := by
    simp [Columns.render, h, Text.alignRight]
  rw [hrender, h]
  exact aligned_singleton (Nat.le_refl _)

/-- There is one width for all rows of a table. -/
theorem exists_aligned (hc : ∀ counts, c.select counts ≠ []) (rows : List Row) :
    ∃ width, ∀ row ∈ shown rows,
      Aligned width (c.select row.counts) (c.render (columnWidth c rows) row.counts) := by
  by_cases hmany : rows.length = 1 ∧ (c.select (totalRow rows).counts).length = 1
  · obtain ⟨hone, hcolumn⟩ := hmany
    obtain ⟨only, rfl⟩ := List.length_eq_one_iff.1 hone
    obtain ⟨n, hn⟩ := List.length_eq_one_iff.1 ((length_select c _ _).trans hcolumn)
    have hwidth : columnWidth c [only] = 0 := by
      rw [columnWidth, sum_eq_totalRow, if_pos ⟨hone, hcolumn⟩]
    refine ⟨(Numeral.ofNat n).length, fun row hrow => ?_⟩
    obtain rfl : row = only := by simpa [shown] using hrow
    rw [hwidth]
    exact aligned_alone hn
  · exact ⟨columnWidth c rows, fun row hrow =>
      aligned_intercalate (hc _) fun n hn => length_le_columnWidth hmany hrow hn⟩

/-! ## The table -/

theorem table_eq (c : Columns) (rows : List Row) :
    table c rows = (shown rows).flatMap (renderRow c (columnWidth c rows)) := by
  have hshown : (if rows.length > 1 then rows ++ [⟨sum (rows.map (·.counts)), some "total"⟩]
      else rows) = shown rows := by
    rw [sum_eq_totalRow, shown]
    by_cases hmany : 2 ≤ rows.length
    · rw [if_pos hmany, if_pos (show rows.length > 1 from hmany)]
      rfl
    · rw [if_neg hmany, if_neg (show ¬ rows.length > 1 from hmany), List.append_nil]
  rw [table, hshown]

/-- Some column is always shown. -/
theorem select_columns_ne_nil (args : List String) (counts : Counts) :
    (columns args).select counts ≠ [] := by
  unfold columns
  split
  · rename_i hany
    obtain ⟨arg, harg, hasks⟩ := List.any_eq_true.1 hany
    simp only [Bool.or_eq_true] at hasks
    rcases hasks with (hlines | hwords) | hbytes
    · have : args.any isLines = Bool.true := List.any_eq_true.2 ⟨arg, harg, hlines⟩
      simp [Columns.select, this]
    · have : args.any isWords = Bool.true := List.any_eq_true.2 ⟨arg, harg, hwords⟩
      simp [Columns.select, this]
    · have : args.any isBytes = Bool.true := List.any_eq_true.2 ⟨arg, harg, hbytes⟩
      simp [Columns.select, this]
  · simp [Columns.select]

/-! ## The command -/

/-- Whether a word asks for a column. -/
def asksColumn (arg : String) : Bool := isLines arg || isWords arg || isBytes arg

/-- The inputs that are counted: standard input if there is no other. -/
def inputs (args : List String) : List String :=
  if (args.filter fun arg => !asksColumn arg).isEmpty then ["-"]
  else args.filter fun arg => !asksColumn arg

/-- The inputs that could be read, with their texts. -/
def readable (found : List (String × Except Trouble String)) : List (String × String) :=
  found.filterMap fun (file, answer) => answer.toOption.map (file, ·)

/-- The row of an input. -/
def rowOf (input : String × String) : Row :=
  ⟨count input.2, if input.1 = "-" then none else some input.1⟩

/-- The complaints about the other inputs. -/
def complaints : List (String × Except Trouble String) → String
  | [] => ""
  | (_, .ok _) :: found => complaints found
  | (file, .error trouble) :: found => trouble.message "wc" file ++ complaints found

theorem countFrom_eq (rows : List Row) (before : String) (files : List String) :
    countFrom rows before files = (readInputs files).bind fun answers =>
      .done (rows.reverse ++ (readable (files.zip answers)).map rowOf,
        before ++ complaints (files.zip answers)) := by
  induction files generalizing rows before with
  | nil =>
    have hnothing : (rows.reverse, before) = (rows.reverse ++ [], before ++ "") := by
      rw [List.append_nil, String.append_empty]
    exact congrArg Program.done hnothing
  | cons file files ih =>
    rw [countFrom, readInputs, Program.bind_assoc]
    refine congrArg (Program.bind (readInput file)) (funext fun answer => ?_)
    rw [Program.bind_assoc]
    cases answer with
    | ok text =>
      simp only [ih, List.reverse_cons, List.append_assoc]
      rfl
    | error trouble =>
      simp only [ih, String.append_assoc]
      rfl

/-- What `wc` reports about its inputs. -/
def reportOf (c : Columns) (found : List (String × Except Trouble String)) : Result where
  stdout := String.ofList (table c ((readable found).map rowOf))
  stderr := complaints found
  exitCode := if (complaints found).isEmpty then 0 else 1

/-- `wc` reads its inputs, and what it reports depends on what it has read only. -/
theorem run_eq {args : List String} (h : ∀ arg ∈ args, looksLikeOption arg = Bool.true →
    asksColumn arg = Bool.true) :
    run args = (readInputs (inputs args)).bind fun answers =>
      .done (reportOf (columns args) ((inputs args).zip answers)) := by
  have hoption : (args.filter fun arg => !asksColumn arg).find? looksLikeOption = none := by
    rw [List.find?_eq_none]
    intro arg harg hlooks
    obtain ⟨hmem, hasks⟩ := List.mem_filter.1 harg
    rw [h arg hmem hlooks] at hasks
    cases hasks
  have hrun : run args = (countInputs (inputs args)).bind fun counted => .done {
      stdout := String.ofList (table (columns args) counted.1)
      stderr := counted.2
      exitCode := if counted.2.isEmpty then 0 else 1 } := by
    unfold asksColumn at hoption
    simp only [run, hoption]
    rfl
  rw [hrun, countInputs, countFrom_eq, Program.bind_assoc]
  simp only [Program.bind, String.empty_append]
  rfl

theorem reports_run {args : List String} (h : ∀ arg ∈ args, looksLikeOption arg = Bool.true →
    asksColumn arg = Bool.true) {sc : Scene} {text : String} (hsc : sc.Offers text) :
    (run args).Reports sc
      (reportOf (columns args)
        ((inputs args).zip (offered sc.world.store text (inputs args)))) := by
  rw [run_eq h]
  exact resume_readInputs hsc (inputs args) _

/-! ## What a table says -/

/-- The table of the inputs that were read: a row for each of them, in order, and a total below two
or more. Each row begins with its counts, which stand in the same columns in all rows. -/
def Tabulated (c : Columns) (read : List (String × String)) (output : List Char) : Prop :=
  ∃ (width size : Nat) (counted : Row → List Char),
    output = (shown (read.map rowOf)).flatMap (fun row =>
      counted row ++ (row.name.elim [] fun name => ' ' :: name.toList) ++ ['\n']) ∧
    ∀ row ∈ shown (read.map rowOf), (counted row).length = size ∧
      Aligned width (c.select row.counts) (counted row)

theorem tabulated_reportOf (args : List String) (found : List (String × Except Trouble String)) :
    Tabulated (columns args) (readable found) (reportOf (columns args) found).stdout.toList := by
  obtain ⟨width, haligned⟩ :=
    exists_aligned (select_columns_ne_nil args) ((readable found).map rowOf)
  refine ⟨width, ((columns args).select {}).length * (width + 1) - 1,
    fun row => (columns args).render (columnWidth (columns args) ((readable found).map rowOf))
      row.counts, ?_, fun row hrow => ⟨?_, haligned row hrow⟩⟩
  · rw [reportOf, String.toList_ofList, table_eq]
    rfl
  · have hlength := (haligned row hrow).length
    rw [length_select _ _ {}] at hlength
    exact Nat.eq_sub_of_add_eq hlength

/-- **`wc` writes aligned tables with the right totals.** With any columns and any inputs, it reads
the inputs and reports a table of those that could be read, whatever they are; and the report comes
at once if nothing has to be waited for. Counts of line breaks and of bytes add up. -/
theorem run_tabulates :
    (∀ args : List String,
      (∀ arg ∈ args, looksLikeOption arg = Bool.true → asksColumn arg = Bool.true) →
      ∃ report : List (Except Trouble String) → Result,
        run args = (readInputs (inputs args)).bind (fun answers => .done (report answers)) ∧
        (∀ (sc : Scene) (text : String), sc.Offers text →
          (run args).Reports sc (report (offered sc.world.store text (inputs args)))) ∧
        ∀ answers, Tabulated (columns args) (readable ((inputs args).zip answers))
          (report answers).stdout.toList) ∧
    ∀ a b : String, (count (a ++ b)).lines = (count a).lines + (count b).lines ∧
      (count (a ++ b)).bytes = (count a).bytes + (count b).bytes := by
  refine ⟨fun args h => ?_, fun a b => ?_⟩
  · exact ⟨fun answers => reportOf (columns args) ((inputs args).zip answers), run_eq h,
      fun sc text hsc => reports_run h hsc, fun answers => tabulated_reportOf args _⟩
  · simp [count, List.count_append, String.utf8ByteSize_append]

/-- A scene with a text on standard input and a file. -/
def countedScene : Scene where
  stdin := Stream.ofText "x\ny"
  world := { store := Store.ofList [("a", "one two\n")] }

/-- The table of standard input, a file and one that is missing. -/
theorem run_tabulates_missing :
    ∃ r, (run ["-", "a", "none"]).Reports countedScene r ∧
      r.stdout = "      1       2       3\n      1       2       8 a\n" ++
        "      2       4      11 total\n" ∧
      Tabulated ⟨Bool.true, Bool.true, Bool.true⟩ [("-", "x\ny"), ("a", "one two\n")]
        r.stdout.toList := by
  obtain ⟨report, -, hreports, htable⟩ := run_tabulates.1 ["-", "a", "none"] (by decide)
  have hfound : readable ((inputs ["-", "a", "none"]).zip
      (offered countedScene.world.store "x\ny" (inputs ["-", "a", "none"]))) =
        [("-", "x\ny"), ("a", "one two\n")] := by decide
  have hcolumns : columns ["-", "a", "none"] = ⟨Bool.true, Bool.true, Bool.true⟩ := by decide
  have hcomputed : (match ((run ["-", "a", "none"]).resume .nothing countedScene).2 with
      | .finished r => some r.stdout
      | _ => none) = some ("      1       2       3\n      1       2       8 a\n" ++
        "      2       4      11 total\n") := by
    decide +kernel
  obtain ⟨sc', hresume⟩ := hreports countedScene "x\ny" ⟨by decide, by decide⟩
  rw [hresume] at hcomputed
  refine ⟨_, ⟨sc', hresume⟩, Option.some.inj hcomputed, ?_⟩
  rw [← hfound, ← hcolumns]
  exact htable _

end Command.Wc

end PocketShell
