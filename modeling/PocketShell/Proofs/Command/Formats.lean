import PocketShell.Command.Printf
import PocketShell.Proofs.Numerals
import Mathlib.Data.List.TakeWhile

/-!
# The grammar of formats

* `Directive.ofParts` : the directive with these flags, this width and this conversion;
* `Written` : which pieces a format is made of, as a grammar;
* `written_iff` : every format is made of the pieces that are read from it, and of no others.

Zeros in front of a width belong to the flags, so a width never begins with one.
-/

namespace PocketShell.Command.Printf

/-! ## The parts of a directive -/

/-- The directive of flags, the decimal digits of a width, and a conversion; without a conversion
the format ends here. -/
def Directive.ofParts (flags digits : List Char) (conversion? : Option Char) : Directive where
  text := '%' :: (flags ++ digits ++ conversion?.toList)
  left := flags.contains '-'
  zero := flags.contains '0'
  width := Nat.ofDigitChars 10 digits 0
  conversion := conversion?.getD '%'

/-- Flags, and the digits of a width after them. -/
structure IsSpec (flags digits : List Char) : Prop where
  flagged : ∀ c ∈ flags, c = '-' ∨ c = '0'
  numeric : ∀ c ∈ digits, c.isDigit
  lead : digits.head? ≠ some '0'

theorem IsSpec.nil : IsSpec [] [] := ⟨by simp, by simp, by simp⟩

/-- Whether a character after flags and digits belongs to neither. -/
def Ends (digits : List Char) (c : Char) : Prop := ¬ c.isDigit ∧ (digits = [] → c ≠ '-')

section parts

variable {flags digits after cs rest : List Char} {c : Char}

theorem isFlag_iff : isFlag c ↔ c = '-' ∨ c = '0' := by simp [isFlag]

theorem not_isFlag_of_isDigit (hc : c.isDigit) (hzero : c ≠ '0') : ¬ isFlag c := by
  rw [isFlag_iff, not_or]
  refine ⟨?_, hzero⟩
  rintro rfl
  exact absurd hc (by decide)

/-- Neither the width nor what follows it begins with a flag. -/
theorem IsSpec.head_not_isFlag (h : IsSpec flags digits)
    (hafter : ∀ c ∈ after.head?, Ends digits c) :
    ∀ c ∈ (digits ++ after).head?, ¬ isFlag c := by
  intro c hc
  cases digits with
  | nil =>
    have hends := hafter c hc
    rw [isFlag_iff, not_or]
    refine ⟨hends.2 rfl, ?_⟩
    rintro rfl
    exact hends.1 (by decide)
  | cons d digits =>
    obtain rfl : d = c := by simpa using hc
    exact not_isFlag_of_isDigit (h.numeric d List.mem_cons_self) fun hd => h.lead (by simp [hd])

theorem takeWhile_append {p : Char → Bool} (hall : ∀ c ∈ cs, p c)
    (hrest : ∀ c ∈ rest.head?, ¬ p c) : (cs ++ rest).takeWhile p = cs := by
  rw [List.takeWhile_append_of_pos hall]
  cases rest with
  | nil => simp
  | cons c rest => simpa using hrest c rfl

theorem dropWhile_append {p : Char → Bool} (hall : ∀ c ∈ cs, p c)
    (hrest : ∀ c ∈ rest.head?, ¬ p c) : (cs ++ rest).dropWhile p = rest := by
  rw [List.dropWhile_append_of_pos hall]
  cases rest with
  | nil => rfl
  | cons c rest => simpa using hrest c rfl

theorem width_eq (hdigits : ∀ c ∈ digits, c.isDigit) :
    (Numeral.toNat? 10 digits).getD 0 = Nat.ofDigitChars 10 digits 0 := by
  by_cases hne : digits = []
  · simp [hne, Numeral.toNat?]
  · rw [Numeral.toNat?_digits hdigits hne, Option.getD_some]

theorem readDirective_parts (h : IsSpec flags digits) (hafter : ∀ c ∈ after.head?, Ends digits c) :
    readDirective (flags ++ (digits ++ after)) =
      (.ofParts flags digits after.head?, after.drop 1) := by
  have hflags : ∀ c ∈ flags, isFlag c := fun c hc => isFlag_iff.2 (h.flagged c hc)
  have hnoFlag := h.head_not_isFlag hafter
  have hnoDigit : ∀ c ∈ after.head?, ¬ c.isDigit := fun c hc => (hafter c hc).1
  have hconversion : after.take 1 = after.head?.toList ∧
      after.headD '%' = after.head?.getD '%' := by
    cases after <;> simp
  simp only [readDirective, takeWhile_append hflags hnoFlag, dropWhile_append hflags hnoFlag,
    takeWhile_append h.numeric hnoDigit, dropWhile_append h.numeric hnoDigit, width_eq h.numeric,
    hconversion.1, hconversion.2, Directive.ofParts]

/-- What follows a `%` always begins with flags and a width, if only empty ones. -/
theorem exists_parts (cs : List Char) :
    ∃ flags digits after, IsSpec flags digits ∧ (∀ c ∈ after.head?, Ends digits c) ∧
      cs = flags ++ (digits ++ after) := by
  have hhead {p : Char → Bool} {l : List Char} {c : Char} (hc : c ∈ (l.dropWhile p).head?) :
      ¬ p c := by
    have := List.head?_dropWhile_not p l
    rw [Option.mem_def.1 hc] at this
    simpa using this
  generalize hmiddle : cs.dropWhile isFlag = middle
  have hcs : cs = cs.takeWhile isFlag ++ (middle.takeWhile Char.isDigit ++
      middle.dropWhile Char.isDigit) := by
    rw [List.takeWhile_append_dropWhile, ← hmiddle, List.takeWhile_append_dropWhile]
  refine ⟨cs.takeWhile isFlag, middle.takeWhile Char.isDigit, middle.dropWhile Char.isDigit,
    ⟨fun c hc => isFlag_iff.1 (List.mem_takeWhile_imp hc), fun c hc => List.mem_takeWhile_imp hc,
      fun hzero => ?_⟩, fun c hc => ⟨hhead hc, ?_⟩, hcs⟩
  · -- The flags would have taken the zero.
    have hmem : '0' ∈ middle.head? := by
      obtain ⟨tail, htail⟩ := List.head?_eq_some_iff.1 hzero
      rw [← List.takeWhile_append_dropWhile (p := Char.isDigit) (l := middle), htail]
      rfl
    rw [← hmiddle] at hmem
    exact hhead hmem (by decide)
  · rintro hnone rfl
    have hmem : '-' ∈ middle.head? := by
      rw [← List.takeWhile_append_dropWhile (p := Char.isDigit) (l := middle), hnone]
      exact hc
    rw [← hmiddle] at hmem
    exact hhead hmem (by decide)

end parts

/-! ## Formats -/

/-- Which pieces a format is made of. Literal text stands in front of every directive and at the
end. -/
inductive Written : List Char → List Piece → Prop
  | literal {text : List Char} (htext : '%' ∉ text) : Written text [.literal text]
  /-- The format ends before the conversion. -/
  | dangling {text flags digits : List Char} (htext : '%' ∉ text) (hspec : IsSpec flags digits) :
      Written (text ++ '%' :: (flags ++ digits))
        [.literal text, .directive (.ofParts flags digits none), .literal []]
  | directive {text flags digits rest : List Char} {c : Char} {pieces : List Piece}
      (htext : '%' ∉ text) (hspec : IsSpec flags digits) (hends : Ends digits c)
      (hrest : Written rest pieces) :
      Written (text ++ '%' :: (flags ++ (digits ++ c :: rest)))
        (.literal text :: .directive (.ofParts flags digits (some c)) :: pieces)

section formats

variable {text cs literal : List Char} {pieces : List Piece}

theorem written_readFormat (h : '%' ∉ literal) :
    Written (literal.reverse ++ cs) (readFormat literal cs) := by
  fun_induction readFormat literal cs with
  | case1 literal =>
    rw [List.append_nil]
    exact .literal (by simpa using h)
  | case2 literal cs ih =>
    have htext : '%' ∉ literal.reverse := by simpa using h
    have hrest := ih List.not_mem_nil
    obtain ⟨flags, digits, after, hspec, hafter, rfl⟩ := exists_parts cs
    rw [readDirective_parts hspec hafter] at hrest ⊢
    cases after with
    | nil =>
      rw [List.append_nil]
      simpa [readFormat] using Written.dangling htext hspec
    | cons c after => exact .directive htext hspec (hafter c rfl) hrest
  | case3 literal c cs hc ih =>
    have hliteral : '%' ∉ c :: literal := by simp [h, Ne.symm hc]
    simpa using ih hliteral

theorem readFormat_append (htext : '%' ∉ text) (literal rest : List Char) :
    readFormat literal (text ++ rest) = readFormat (text.reverse ++ literal) rest := by
  induction text generalizing literal with
  | nil => rfl
  | cons c text ih =>
    rw [List.mem_cons, not_or] at htext
    rw [List.cons_append, readFormat, if_neg (Ne.symm htext.1), ih htext.2]
    simp

theorem Written.readFormat_eq (h : Written cs pieces) : readFormat [] cs = pieces := by
  induction h with
  | literal htext => simpa [readFormat] using readFormat_append htext [] []
  | @dangling text flags digits htext hspec =>
    have hafter : ∀ c ∈ ([] : List Char).head?, Ends digits c := by simp
    rw [← digits.append_nil, readFormat_append htext, readFormat, if_pos rfl,
      readDirective_parts hspec hafter]
    simp [readFormat]
  | @directive text flags digits rest c pieces htext hspec hends hrest ih =>
    have hafter : ∀ c' ∈ (c :: rest).head?, Ends digits c' := by simpa using hends
    rw [readFormat_append htext, readFormat, if_pos rfl, readDirective_parts hspec hafter]
    simp [ih]

theorem written_iff : Written cs pieces ↔ pieces = readFormat [] cs := by
  constructor
  · exact fun h => h.readFormat_eq.symm
  · rintro rfl
    exact written_readFormat List.not_mem_nil

end formats

end PocketShell.Command.Printf
