import PocketShell.Command.Escape
import Mathlib.Data.List.Basic
import Mathlib.Data.List.TakeWhile

/-!
# What escapes leave alone

* `Escape.stops` : whether a text holds a `\\c` that ends the output, said without carrying out any
  escape (`Escape.stop_unescape`);
* `Escape.doubled` : a text with some of its characters written twice;
* `Escape.unescape_doubled` : a text whose backslashes are doubled comes out as it was.
-/

namespace PocketShell.Escape

variable {done cs ds : List Char}

/-! ## Where the output ends -/

/-- Whether a `c` stands right after a backslash that no other backslash escapes. `armed` says that
such a backslash stands in front of the text. -/
def stopsAfter (armed : Bool) : List Char → Bool
  | [] => false
  | c :: cs => (armed && c == 'c') || stopsAfter (!armed && c == '\\') cs

/-- Whether a text holds a `\\c` that ends the output. -/
def stops (cs : List Char) : Bool := stopsAfter false cs

theorem stops_cons {c : Char} (hc : c ≠ '\\') : stops (c :: cs) = stops cs := by
  simp [stops, stopsAfter, beq_eq_false_iff_ne.2 hc]

/-- The character after a backslash is never a backslash that escapes something. -/
theorem stops_escape (next : Char) : stops ('\\' :: next :: cs) = (next == 'c' || stops cs) := by
  simp [stops, stopsAfter]

theorem stops_append (h : '\\' ∉ ds) : stops (ds ++ cs) = stops cs := by
  induction ds with
  | nil => rfl
  | cons d ds ih =>
    rw [List.mem_cons, not_or] at h
    rw [List.cons_append, stops_cons (Ne.symm h.1), ih h.2]

theorem digit?_backslash (radix : Nat) : Numeral.digit? radix '\\' = none := by
  simp [Numeral.digit?]

theorem backslash_notMem_leadingDigits (radix max : Nat) (cs : List Char) :
    '\\' ∉ leadingDigits radix max cs := by
  intro h
  have hdigit := List.mem_takeWhile_imp h
  simp [digit?_backslash] at hdigit

theorem leadingDigits_append_drop (radix max : Nat) (cs : List Char) :
    leadingDigits radix max cs ++ cs.drop (leadingDigits radix max cs).length = cs := by
  have hdigits : leadingDigits radix max cs <+: cs :=
    (List.takeWhile_prefix _).trans (List.take_prefix _ _)
  exact List.prefix_iff_eq_append.1 hdigits

theorem stop_unescapeFrom (done cs : List Char) : (unescapeFrom done cs).stop = stops cs := by
  fun_induction unescapeFrom done cs with
  | case1 done => rfl
  | case2 done next rest c hsimple ih =>
    have hnext : next ≠ 'c' := by rintro rfl; simp [simple?] at hsimple
    simp [stops_escape, hnext, ih]
  | case3 done rest => simp [stops_escape]
  | case4 done next rest hsimple hnext hradix ih => simp [stops_escape, hnext, ih]
  | case5 done next rest hsimple hnext radix max instead hradix c hnumeric ih =>
    rw [ih, stops_escape, ← stops_append (backslash_notMem_leadingDigits radix max rest),
      leadingDigits_append_drop]
    simp [hnext]
  | case6 done next rest hsimple hnext radix max instead hradix hnumeric ih =>
    simp [stops_escape, hnext, ih]
  | case7 done c rest hlone ih =>
    rw [ih]
    by_cases hc : c = '\\'
    · -- A backslash that no character follows.
      cases rest with
      | nil => simp [stops, stopsAfter]
      | cons next rest => exact absurd rfl (hlone next rest hc)
    · rw [stops_cons hc]

theorem unescape_nil : unescape [] = ⟨[], false⟩ := by
  rw [unescape, unescapeFrom, List.reverse_nil]

theorem stop_unescape (cs : List Char) : (unescape cs).stop = stops cs := stop_unescapeFrom [] cs

/-! ## Doubled backslashes -/

/-- A text with every character of `special` written twice. -/
def doubled (special cs : List Char) : List Char :=
  cs.flatMap fun c => if c ∈ special then [c, c] else [c]

theorem doubled_cons (special : List Char) (c : Char) (cs : List Char) :
    doubled special (c :: cs) = (if c ∈ special then [c, c] else [c]) ++ doubled special cs :=
  List.flatMap_cons

theorem doubled_append (special as bs : List Char) :
    doubled special (as ++ bs) = doubled special as ++ doubled special bs :=
  List.flatMap_append

theorem unescapeFrom_doubled (done cs : List Char) :
    unescapeFrom done (doubled ['\\'] cs) = ⟨done.reverse ++ cs, false⟩ := by
  induction cs generalizing done with
  | nil => simp [doubled, unescapeFrom]
  | cons c cs ih =>
    rw [doubled_cons]
    by_cases hc : c = '\\'
    · subst hc
      have hstep : unescapeFrom done ('\\' :: '\\' :: doubled ['\\'] cs) =
          unescapeFrom ('\\' :: done) (doubled ['\\'] cs) := by
        rw [unescapeFrom]
        rfl
      simp [hstep, ih]
    · have hstep (rest : List Char) : unescapeFrom done (c :: rest) =
          unescapeFrom (c :: done) rest := by
        rw [unescapeFrom]
        simp [hc]
      simp [hc, hstep, ih]

theorem unescape_doubled (cs : List Char) : unescape (doubled ['\\'] cs) = ⟨cs, false⟩ :=
  unescapeFrom_doubled [] cs

end PocketShell.Escape
