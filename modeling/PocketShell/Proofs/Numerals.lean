import PocketShell.Text.Numeral
import Mathlib.Data.List.Basic

/-!
# Numerals

* `Numeral.toNat?_digits` : decimal digits are read as the number they spell;
* `Numeral.signed?_filled` : a number is read back, also with zeros between its sign and its digits;
* `Numeral.ofInt_eq` : numbers are written the way the library writes them.
-/

namespace PocketShell.Numeral

variable {ds : List Char}

/-! ## Digits -/

theorem digit?_of_isDigit {c : Char} (hc : c.isDigit) :
    digit? 10 c = some (c.toNat - '0'.toNat) := by
  have hbounds := Char.isDigit_iff_toNat.1 hc
  have hlow : '0' ≤ c := Char.le_def.2 (UInt32.le_iff_toNat_le.2 hbounds.1)
  have hhigh : c ≤ '9' := Char.le_def.2 (UInt32.le_iff_toNat_le.2 hbounds.2)
  have hvalue : c.toNat - '0'.toNat < 10 := by
    have : '9'.toNat - '0'.toNat = 9 := rfl
    omega
  simp only [digit?, hlow, hhigh, and_self, if_true, hvalue]

theorem toNatFrom_digits (hds : ∀ c ∈ ds, c.isDigit) (acc : Nat) :
    toNatFrom 10 acc ds = some (Nat.ofDigitChars 10 ds acc) := by
  induction ds generalizing acc with
  | nil => simp [toNatFrom]
  | cons c ds ih =>
    rw [toNatFrom, digit?_of_isDigit (hds c List.mem_cons_self), Option.bind_some,
      ih (fun d hd => hds d (List.mem_cons_of_mem c hd)), Nat.ofDigitChars_cons, Nat.mul_comm]

theorem toNat?_digits (hds : ∀ c ∈ ds, c.isDigit) (hne : ds ≠ []) :
    toNat? 10 ds = some (Nat.ofDigitChars 10 ds 0) := by
  rw [toNat?, if_neg (by simpa using hne), toNatFrom_digits hds]

/-! ## Signs -/

/-- The sign of a number. -/
def sign (n : Int) : List Char := if n < 0 then ['-'] else []

theorem ofInt_eq_sign_append (n : Int) : ofInt n = sign n ++ ofNat n.natAbs := by
  by_cases hn : n < 0 <;> simp [ofInt, sign, hn]

theorem ofInt_eq (n : Int) : ofInt n = (toString n).toList := by
  cases n with
  | ofNat n =>
    have hn : ¬ Int.ofNat n < 0 := Int.not_lt.2 (Int.natCast_nonneg n)
    rw [ofInt, if_neg hn]
    exact Nat.toList_repr.symm
  | negSucc n =>
    have hrepr : toString (Int.negSucc n) = "-" ++ (n + 1).repr := rfl
    rw [ofInt, if_pos (Int.negSucc_lt_zero n), hrepr, String.toList_append, Nat.toList_repr]
    rfl

theorem signed?_digits (hds : ∀ c ∈ ds, c.isDigit) (hne : ds ≠ []) :
    signed? 10 ds = some (Nat.ofDigitChars 10 ds 0 : Int) := by
  unfold signed?
  split
  · exact absurd (hds '-' List.mem_cons_self) (by decide)
  · exact absurd (hds '+' List.mem_cons_self) (by decide)
  · rw [toNat?_digits hds hne]
    rfl

theorem signed?_minus (hds : ∀ c ∈ ds, c.isDigit) (hne : ds ≠ []) :
    signed? 10 ('-' :: ds) = some (-(Nat.ofDigitChars 10 ds 0 : Int)) := by
  rw [signed?, toNat?_digits hds hne]
  rfl

/-- The digits of a number with zeros in front of them. -/
def filled (zeros n : Nat) : List Char := List.replicate zeros '0' ++ ofNat n

theorem isDigit_filled {zeros n : Nat} : ∀ c ∈ filled zeros n, c.isDigit := by
  intro c hc
  rcases List.mem_append.1 hc with hzero | hdigit
  · rw [List.eq_of_mem_replicate hzero]
    decide
  · exact Nat.isDigit_of_mem_toDigits (by decide) (by decide) hdigit

theorem filled_ne_nil (zeros n : Nat) : filled zeros n ≠ [] := by
  simp [filled, ofNat]

theorem ofDigitChars_filled (zeros n : Nat) : Nat.ofDigitChars 10 (filled zeros n) 0 = n := by
  simp [filled, ofNat, Nat.ofDigitChars_append]

/-- A number with zeros after its sign is read as the number. -/
theorem signed?_filled (n : Int) (zeros : Nat) :
    signed? 10 (sign n ++ filled zeros n.natAbs) = some n := by
  by_cases hn : n < 0
  · rw [sign, if_pos hn, List.singleton_append, signed?_minus isDigit_filled (filled_ne_nil _ _),
      ofDigitChars_filled, Option.some.injEq]
    omega
  · rw [sign, if_neg hn, List.nil_append, signed?_digits isDigit_filled (filled_ne_nil _ _),
      ofDigitChars_filled, Option.some.injEq]
    omega

end PocketShell.Numeral
