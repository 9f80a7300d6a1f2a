import PocketShell.Proofs.Command.Rounds

/-!
# What `printf` writes can be read again

* `spelled`, `outcome_spelled` : the pieces of a text whose special characters are doubled write the
  text;
* `escaping_round_trips` : so it comes out as it was, from a format and from `%b`;
* `pad_ofInt` : a field holds its number between spaces, perhaps with zeros after the sign;
* `run_reads_back` : the number that is read from it is the one that was written.
-/

namespace PocketShell.Command.Printf

open Escape (doubled doubled_append doubled_cons unescape_doubled)

/-! ## Doubled characters -/

section doubled

/-- The directive `%%`. -/
def percent : Directive := .ofParts [] [] (some '%')

/-- The pieces of a format that spells a text, of which `literal` has been read since the last
`%`. -/
def spelled (literal : List Char) : List Char → List Piece
  | [] => [.literal (doubled ['\\'] literal)]
  | c :: cs =>
    if c = '%' then .literal (doubled ['\\'] literal) :: .directive percent :: spelled [] cs
    else spelled (literal ++ [c]) cs

theorem readDirective_percent (rest : List Char) : readDirective ('%' :: rest) = (percent, rest) :=
  have hends : ∀ c ∈ ('%' :: rest).head?, Ends [] c := by simp [Ends]
  readDirective_parts .nil hends

theorem readFormat_doubled (literal cs : List Char) :
    readFormat (doubled ['\\'] literal).reverse (doubled ['\\', '%'] cs) = spelled literal cs := by
  induction cs generalizing literal with
  | nil => simp [doubled, readFormat, spelled]
  | cons c cs ih =>
    rw [doubled_cons, spelled]
    by_cases hc : c = '%'
    · subst hc
      have hformat (before rest : List Char) : readFormat before ('%' :: '%' :: rest) =
          .literal before.reverse :: .directive percent :: readFormat [] rest := by
        rw [readFormat, if_pos rfl, readDirective_percent]
      have hrest : readFormat [] (doubled ['\\', '%'] cs) = spelled [] cs := ih []
      simp [hformat, hrest]
    · have hspelled : (if c ∈ ['\\', '%'] then [c, c] else [c]) = doubled ['\\'] [c] := by
        simp [doubled, hc]
      have hfree : '%' ∉ doubled ['\\'] [c] := by
        by_cases hslash : c = '\\' <;> simp [doubled, hslash, Ne.symm hc]
      rw [if_neg hc, hspelled, readFormat_append hfree, ← ih, doubled_append, List.reverse_append]

theorem passes_spelled (literal cs : List Char) : ∀ p ∈ spelled literal cs, p.Passes := by
  have hliteral (text : List Char) : (Piece.literal (doubled ['\\'] text)).Passes := by
    rw [Piece.Passes, ← Escape.stop_unescape, unescape_doubled]
    exact Bool.false_ne_true
  induction cs generalizing literal with
  | nil => simpa [spelled] using hliteral literal
  | cons c cs ih =>
    rw [spelled]
    split_ifs
    · have hpercent : (Piece.directive percent).Passes := Nat.zero_le _
      simpa [hliteral, hpercent] using ih []
    · exact ih (literal ++ [c])

/-- A text that is spelled in a format is written as it is, whatever the arguments are. -/
theorem outcome_spelled (literal cs : List Char) (args : List (List Char)) :
    outcome (meet (spelled literal cs) args) = { stdout := literal ++ cs } := by
  induction cs generalizing literal args with
  | nil =>
    rw [spelled, meet_cons, outcome_literal, unescape_doubled]
    simp [meet, outcome, Output.append]
  | cons c cs ih =>
    rw [spelled]
    split_ifs with hc
    · have hpercent (arg : List Char) : render percent arg = { stdout := ['%'] } := rfl
      rw [meet_cons, outcome_literal, meet_cons, outcome_directive, ih, unescape_doubled, hpercent,
        hc]
      simp [Output.append]
    · rw [ih, List.append_assoc, List.singleton_append]

end doubled

/-- Escapes are undone by doubling: a text with its backslashes doubled is unescaped to itself and
written by `%b` as it is, and with its `%` doubled, too, it is a format that writes the text. -/
theorem escaping_round_trips (text : String) :
    Escape.unescape (doubled ['\\'] text.toList) = ⟨text.toList, Bool.false⟩ ∧
      run [String.ofList (doubled ['\\', '%'] text.toList)] = .done { stdout := text } ∧
      run ["%b", String.ofList (doubled ['\\'] text.toList)] = .done { stdout := text } := by
  refine ⟨unescape_doubled text.toList, ?_, ?_⟩
  · have hformat : readFormat [] (doubled ['\\', '%'] text.toList) = spelled [] text.toList :=
      readFormat_doubled [] text.toList
    have hpass := passes_spelled [] text.toList
    rw [← hformat] at hpass
    rw [run_eq, String.toList_ofList, List.map_nil, output_once hpass (Nat.zero_le _), hformat,
      outcome_spelled]
    simp [Output.report]
  · have hends : Ends [] 'b' := by simp [Ends]
    have hfield (arg : List Char) : render (.ofParts [] [] (some 'b')) arg =
        { stdout := (Escape.unescape arg).output } := by
      simp [render, Directive.ofParts, pad, Directive.isInteger, Text.alignRight]
    refine (run_field .nil hends (by decide) (by simp [maxWidth]) _).trans ?_
    rw [String.toList_ofList, hfield, unescape_doubled]
    simp [Output.report]

/-! ## Numbers in fields -/

section fields

theorem fillZeros_ofInt (width : Nat) (n : Int) :
    Text.fillZeros width (Numeral.ofInt n) =
      Numeral.sign n ++ Numeral.filled (width - (Numeral.ofInt n).length) n.natAbs := by
  by_cases hn : n < 0
  · rw [Numeral.ofInt, if_pos hn, Numeral.sign, if_pos hn]
    rfl
  · rw [Numeral.ofInt, if_neg hn, Numeral.sign, if_neg hn]
    unfold Text.fillZeros
    split
    · rename_i digits hdigits
      have hminus : '-'.isDigit :=
        Nat.isDigit_of_mem_toDigits (by decide) (by decide) (hdigits ▸ List.mem_cons_self)
      exact absurd hminus (by decide)
    · rfl

/-- The field of a number: the number between spaces, perhaps with zeros after its sign. -/
theorem pad_ofInt (d : Directive) (n : Int) :
    ∃ before zeros after, pad d (Numeral.ofInt n) =
      List.replicate before ' ' ++ ((Numeral.sign n ++ Numeral.filled zeros n.natAbs) ++
        List.replicate after ' ') ∧
      before + zeros + after = d.width - (Numeral.ofInt n).length := by
  have hplain : Numeral.ofInt n = Numeral.sign n ++ Numeral.filled 0 n.natAbs :=
    Numeral.ofInt_eq_sign_append n
  unfold pad
  split_ifs with hleft hzero
  · refine ⟨0, 0, d.width - (Numeral.ofInt n).length, ?_, by omega⟩
    rw [← hplain]
    rfl
  · refine ⟨0, d.width - (Numeral.ofInt n).length, 0, ?_, by omega⟩
    simp [fillZeros_ofInt]
  · refine ⟨d.width - (Numeral.ofInt n).length, 0, 0, ?_, by omega⟩
    rw [← hplain, List.replicate_zero, List.append_nil]
    rfl

/-! ## Numbers that are read -/

theorem not_isBlank_of_isDigit {c : Char} (hc : c.isDigit) : ¬ Text.isBlank c := by
  have hbounds : 48 ≤ c.toNat ∧ c.toNat ≤ 57 := Char.isDigit_iff_toNat.1 hc
  simp only [Text.isBlank, Text.inRanges, Text.blankRanges, List.any_cons, List.any_nil,
    Bool.or_eq_true, Bool.and_eq_true, decide_eq_true_eq, Bool.false_eq_true, or_false]
  omega

theorem dropWhile_isBlank (m : Nat) {cs : List Char} (h : ∀ c ∈ cs.head?, ¬ Text.isBlank c) :
    (List.replicate m ' ' ++ cs).dropWhile Text.isBlank = cs :=
  dropWhile_append (fun _ hc => List.eq_of_mem_replicate hc ▸ by decide) h

/-- Spaces at both ends are trimmed off, and nothing else. -/
theorem trim_spaces (before after : Nat) {cs : List Char} (hne : cs ≠ [])
    (h : ∀ c ∈ cs, ¬ Text.isBlank c) :
    Text.trim (List.replicate before ' ' ++ (cs ++ List.replicate after ' ')) = cs := by
  have hleft : ∀ c ∈ (cs ++ List.replicate after ' ').head?, ¬ Text.isBlank c := by
    rw [List.head?_append_of_ne_nil _ hne]
    exact fun c hc => h c (List.mem_of_mem_head? hc)
  have hright : ∀ c ∈ cs.reverse.head?, ¬ Text.isBlank c :=
    fun c hc => h c (List.mem_reverse.1 (List.mem_of_mem_head? hc))
  rw [Text.trim, dropWhile_isBlank before hleft, List.reverse_append, List.reverse_replicate,
    dropWhile_isBlank after hright, List.reverse_reverse]

/-- What begins with a sign or a digit and goes on with digits is read as a decimal numeral. -/
theorem integer?_of_trim {arg cs : List Char} {c : Char} (htrim : Text.trim arg = c :: cs)
    (hc : c = '-' ∨ c.isDigit) (hcs : ∀ d ∈ cs, d.isDigit) :
    integer? arg = Numeral.toInt? 64 10 (c :: cs) := by
  unfold integer?
  rw [htrim]
  -- The first character is no quote, and the second one is no part of a prefix.
  split
  · contradiction
  · rename_i heq
    obtain ⟨rfl, rfl⟩ := List.cons.inj heq
    exact absurd hc (by decide)
  · rename_i heq
    obtain ⟨rfl, rfl⟩ := List.cons.inj heq
    exact absurd hc (by decide)
  · rename_i heq
    obtain ⟨rfl, rfl⟩ := List.cons.inj heq
    exact absurd (hcs 'x' List.mem_cons_self) (by decide)
  · rename_i heq
    obtain ⟨rfl, rfl⟩ := List.cons.inj heq
    exact absurd (hcs 'X' List.mem_cons_self) (by decide)
  · rfl

/-- A number between spaces, with zeros after its sign, is read if it has 64 bits. -/
theorem integer?_spaces {n : Int} (hn : Numeral.fits 64 n) (before zeros after : Nat) :
    integer? (List.replicate before ' ' ++ ((Numeral.sign n ++ Numeral.filled zeros n.natAbs) ++
      List.replicate after ' ')) = some n := by
  have hdigit := @Numeral.isDigit_filled zeros n.natAbs
  have hread : Numeral.toInt? 64 10 (Numeral.sign n ++ Numeral.filled zeros n.natAbs) = some n := by
    rw [Numeral.toInt?, Numeral.signed?_filled, Option.filter_some, if_pos hn]
  obtain ⟨c, cs, hshape, hc, hcs⟩ : ∃ c cs, Numeral.sign n ++ Numeral.filled zeros n.natAbs =
      c :: cs ∧ (c = '-' ∨ c.isDigit) ∧ ∀ d ∈ cs, d.isDigit := by
    by_cases hneg : n < 0
    · exact ⟨'-', _, by rw [Numeral.sign, if_pos hneg]; rfl, .inl rfl, hdigit⟩
    · obtain ⟨c, cs, hdigits⟩ := List.exists_cons_of_ne_nil (Numeral.filled_ne_nil zeros n.natAbs)
      rw [hdigits] at hdigit
      exact ⟨c, cs, by rw [Numeral.sign, if_neg hneg, hdigits]; rfl,
        .inr (hdigit c List.mem_cons_self), fun d hd => hdigit d (List.mem_cons_of_mem c hd)⟩
  rw [hshape] at hread ⊢
  have hblank : ∀ d ∈ c :: cs, ¬ Text.isBlank d := by
    intro d hd
    rcases List.mem_cons.1 hd with rfl | hd
    · rcases hc with rfl | hc
      · decide
      · exact not_isBlank_of_isDigit hc
    · exact not_isBlank_of_isDigit (hcs d hd)
  rw [integer?_of_trim (trim_spaces before after (List.cons_ne_nil c cs) hblank) hc hcs, hread]

/-! ## Flags and widths -/

theorem ofDigitChars_dropWhile_zero (digits : List Char) :
    Nat.ofDigitChars 10 (digits.dropWhile (· == '0')) 0 = Nat.ofDigitChars 10 digits 0 := by
  induction digits with
  | nil => rfl
  | cons c digits ih =>
    by_cases hc : c = '0'
    · subst hc
      simpa [Nat.ofDigitChars_cons] using ih
    · simp [hc]

/-- Flags and digits in any order of zeros: those in front of the width are flags. -/
theorem isSpec_of_zeros {flags digits : List Char} (hflags : ∀ c ∈ flags, c = '-' ∨ c = '0')
    (hdigits : ∀ c ∈ digits, c.isDigit) :
    IsSpec (flags ++ digits.takeWhile (· == '0')) (digits.dropWhile (· == '0')) where
  flagged c hc := by
    rcases List.mem_append.1 hc with hc | hc
    · exact hflags c hc
    · exact .inr (by simpa using List.mem_takeWhile_imp hc)
  numeric c hc := hdigits c ((List.dropWhile_sublist _).subset hc)
  lead h := by
    have := List.head?_dropWhile_not (· == '0') digits
    simp [h] at this

theorem length_pad_ofInt (d : Directive) (n : Int) :
    (pad d (Numeral.ofInt n)).length = max d.width (Numeral.ofInt n).length := by
  obtain ⟨before, zeros, after, hpad, hsum⟩ := pad_ofInt d n
  have hnumber : (Numeral.sign n ++ Numeral.filled zeros n.natAbs).length =
      zeros + (Numeral.ofInt n).length := by
    rw [Numeral.ofInt_eq_sign_append, Numeral.filled]
    simp only [List.length_append, List.length_replicate]
    omega
  rw [hpad, List.length_append, List.length_append, hnumber, List.length_replicate,
    List.length_replicate]
  omega

theorem integer?_pad_ofInt (d : Directive) {n : Int} (hn : Numeral.fits 64 n) :
    integer? (pad d (Numeral.ofInt n)) = some n := by
  obtain ⟨before, zeros, after, hpad, -⟩ := pad_ofInt d n
  rw [hpad, integer?_spaces hn]

theorem integer?_ofInt {n : Int} (hn : Numeral.fits 64 n) :
    integer? (Numeral.ofInt n) = some n := by
  have hplain := integer?_spaces hn 0 0 0
  rw [List.replicate_zero, List.nil_append, List.append_nil] at hplain
  rwa [Numeral.ofInt_eq_sign_append]

theorem fits_toInt (v : Int64) : Numeral.fits 64 v.toInt := by
  have hlow := v.le_toInt
  have hhigh := v.toInt_lt
  have hbound : Nat.pow 2 (64 - 1) = 9223372036854775808 := rfl
  rw [Numeral.fits, hbound, decide_eq_true_eq]
  omega

end fields

/-- A number that `printf` writes into a field of any width, with any flags, is as wide as the field
or the number, and is read back as the number. -/
theorem run_reads_back (v : Int64) {flags digits : List Char}
    (hflags : ∀ c ∈ flags, c = '-' ∨ c = '0') (hdigits : ∀ c ∈ digits, c.isDigit)
    (hwidth : Nat.ofDigitChars 10 digits 0 ≤ maxWidth) :
    ∃ out, run [String.ofList ('%' :: (flags ++ (digits ++ ['d']))), toString v] =
        .done { stdout := out } ∧
      out.length = max (Nat.ofDigitChars 10 digits 0) (toString v).length ∧
      integer? out.toList = some v.toInt := by
  have hspec := isSpec_of_zeros hflags hdigits
  have hvalue := ofDigitChars_dropWhile_zero digits
  have htext : (flags ++ digits.takeWhile (· == '0')) ++ (digits.dropWhile (· == '0') ++ ['d']) =
      flags ++ (digits ++ ['d']) := by
    rw [List.append_assoc, ← List.append_assoc (digits.takeWhile _),
      List.takeWhile_append_dropWhile]
  have hends : Ends (digits.dropWhile (· == '0')) 'd' := by simp [Ends]
  have hnumber : (toString v).toList = Numeral.ofInt v.toInt := (Numeral.ofInt_eq v.toInt).symm
  have hrun := run_field hspec hends (by rfl) (hvalue ▸ hwidth) (toString v)
  rw [htext, hnumber] at hrun
  generalize hd : Directive.ofParts (flags ++ digits.takeWhile (· == '0'))
    (digits.dropWhile (· == '0')) (some 'd') = d at hrun
  have hconversion : d.conversion = 'd' := by rw [← hd]; rfl
  have hdwidth : d.width = Nat.ofDigitChars 10 digits 0 := by rw [← hd]; exact hvalue
  have hrender : render d (Numeral.ofInt v.toInt) =
      { stdout := pad d (Numeral.ofInt v.toInt) } := by
    simp [render, hconversion, Directive.isInteger, integer?_ofInt (fits_toInt v)]
  refine ⟨String.ofList (pad d (Numeral.ofInt v.toInt)), ?_, ?_, ?_⟩
  · rw [hrun, hrender]
    simp [Output.report]
  · rw [String.length_ofList, length_pad_ofInt, hdwidth, ← hnumber, String.length_toList]
  · rw [String.toList_ofList, integer?_pad_ofInt d (fits_toInt v)]

/-- The least number, in a field with zeros. -/
theorem run_reads_back_minimum :
    (∀ c ∈ ['0'], c = '-' ∨ c = '0') ∧ (∀ c ∈ ['2', '5'], c.isDigit) ∧
      Nat.ofDigitChars 10 ['2', '5'] 0 ≤ maxWidth ∧
      ∃ out, run ["%025d", "-9223372036854775808"] = .done { stdout := out } ∧ out.length = 25 ∧
        integer? out.toList = some (-9223372036854775808) := by
  have hflags : ∀ c ∈ ['0'], c = '-' ∨ c = '0' := by simp
  have hdigits : ∀ c ∈ ['2', '5'], c.isDigit := by simp
  have hwidth : Nat.ofDigitChars 10 ['2', '5'] 0 ≤ maxWidth := by decide
  have htext : toString Int64.minValue = "-9223372036854775808" := by decide +kernel
  have hlong : max (Nat.ofDigitChars 10 ['2', '5'] 0) "-9223372036854775808".length = 25 := by
    decide +kernel
  obtain ⟨out, hrun, hlength, hread⟩ := run_reads_back Int64.minValue hflags hdigits hwidth
  rw [htext] at hrun hlength
  exact ⟨hflags, hdigits, hwidth, out, hrun, hlength.trans hlong, hread⟩

end PocketShell.Command.Printf
