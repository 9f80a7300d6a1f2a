import PocketShell.Command.Tr
import PocketShell.Proofs.Command.Inputs
import Mathlib.Data.List.Zip

/-!
# Sets of characters, and translating back

* `Tr.encode` : a way to write any characters as a set. It reads back (`Tr.readSet_encode`) and is
  never taken for an option;
* `Tr.translateChar_of_mem` : a character becomes the one that stands in its place;
* `Tr.translate_translate` : a translation is undone by the one in the other direction, in texts
  where no character is in the second set only;
* `Tr.run_eq_onInput` : what `tr` does with two sets.

`Tr.translation_round_trips` says this of the command.
-/

namespace PocketShell.Command.Tr

variable {set set₁ set₂ text : List Char} {c d : Char}

/-! ## Sets -/

/-- A character of a set: a letter that has a meaning after a backslash stands for itself, all others
are written after one. -/
def encodeChar (c : Char) : List Char := if c ∈ ['n', 't', 'r'] then [c] else ['\\', c]

def encode (set : List Char) : List Char := set.flatMap encodeChar

/-- A set as a word of a command. -/
def word (set : List Char) : String := String.ofList (encode set)

theorem encode_cons (c : Char) (set : List Char) : encode (c :: set) = encodeChar c ++ encode set :=
  List.flatMap_cons

/-- A set that is written like this begins with a letter or a backslash, so it is no option and
ends no range. -/
theorem head?_encode_ne (set : List Char) : (encode set).head? ≠ some '-' := by
  cases set with
  | nil => simp [encode]
  | cons c set =>
    rw [encode_cons, encodeChar]
    split
    · rename_i hletter
      rintro hhead
      obtain rfl : c = '-' := by simpa using hhead
      simp at hletter
    · simp

theorem readSet_escape (c : Char) (rest : List Char) :
    readSet ('\\' :: c :: rest) = escaped c :: readSet rest := by
  rw [readSet]

/-- A character stands for itself if it is no backslash and no range begins with it. -/
theorem readSet_cons (hc : c ≠ '\\') {rest : List Char} (hrest : rest.head? ≠ some '-') :
    readSet (c :: rest) = c :: readSet rest := by
  rw [readSet]
  · intro next rest' hc'
    exact absurd hc' hc
  · intro last rest' hrange
    simp [hrange] at hrest

theorem escaped_of_not_letter (h : c ∉ ['n', 't', 'r']) : escaped c = c := by
  have hne : c ≠ 'n' ∧ c ≠ 't' ∧ c ≠ 'r' := by simpa using h
  rw [escaped]
  · exact hne.1
  · exact hne.2.1
  · exact hne.2.2

/-- Every set reads back. -/
theorem readSet_encode (set : List Char) : readSet (encode set) = set := by
  induction set with
  | nil => rfl
  | cons c set ih =>
    rw [encode_cons, encodeChar]
    split
    · rename_i hletter
      have hc : c ≠ '\\' := by
        rintro rfl
        simp at hletter
      rw [List.singleton_append, readSet_cons hc (head?_encode_ne set), ih]
    · rename_i hletter
      rw [List.cons_append, List.singleton_append, readSet_escape, escaped_of_not_letter hletter, ih]

/-! ## Translating -/

theorem extend_of_length (h : set₁.length = set₂.length) : extend set₁.length set₂ = set₂ := by
  unfold extend
  cases hlast : set₂.getLast? with
  | none => exact (List.getLast?_eq_none_iff.1 hlast).symm
  | some last => simp [h]

/-- A character becomes the one that stands in its place. -/
theorem translateChar_of_mem (hnodup : set₁.Nodup) (hlength : set₁.length = set₂.length)
    (h : (c, d) ∈ set₁.zip set₂) : translateChar (pairing set₁ set₂) c = d := by
  have hkeys : (set₁.zip set₂).map Prod.fst = set₁ := List.map_fst_zip (Nat.le_of_eq hlength)
  have hdistinct : (set₁.zip set₂).Pairwise fun a b => (a.1 == b.1) = Bool.false := by
    rw [← hkeys, List.Nodup, List.pairwise_map] at hnodup
    exact hnodup.imp fun hne => beq_eq_false_iff_ne.2 hne
  rw [translateChar, pairing, extend_of_length hlength]
  exact Std.HashMap.getD_ofList_of_mem (beq_self_eq_true c) hdistinct h

/-- Every character of the first set has a partner in the second. -/
theorem exists_mem_zip (hlength : set₁.length = set₂.length) (h : c ∈ set₁) :
    ∃ d, (c, d) ∈ set₁.zip set₂ := by
  rw [← List.map_fst_zip (Nat.le_of_eq hlength), List.mem_map] at h
  obtain ⟨⟨c, d⟩, hmem, rfl⟩ := h
  exact ⟨d, hmem⟩

theorem mem_zip_swap (h : (c, d) ∈ set₁.zip set₂) : (d, c) ∈ set₂.zip set₁ := by
  rw [← List.zip_swap]
  exact List.mem_map_of_mem h

/-- A translation and the one in the other direction. -/
theorem translate_translate (h₁ : set₁.Nodup) (h₂ : set₂.Nodup) (hlength : set₁.length = set₂.length)
    (htext : ∀ c ∈ text, c ∈ set₂ → c ∈ set₁) :
    translate set₂ set₁ (translate set₁ set₂ text) = text := by
  have hback (c : Char) (hc : c ∈ text) :
      translateChar (pairing set₂ set₁) (translateChar (pairing set₁ set₂) c) = c := by
    by_cases hmem : c ∈ set₁
    · obtain ⟨d, hpair⟩ := exists_mem_zip hlength hmem
      rw [translateChar_of_mem h₁ hlength hpair,
        translateChar_of_mem h₂ hlength.symm (mem_zip_swap hpair)]
    · have hmem₂ : c ∉ set₂ := fun hmem₂ => hmem (htext c hc hmem₂)
      rw [translateChar_of_not_mem hmem, translateChar_of_not_mem hmem₂]
  rw [translate, translate, List.map_map]
  exact (List.map_congr_left hback).trans (List.map_id' text)

/-! ## The command -/

variable {a b : String} {sc : Scene} {input : String}

theorem not_option (h : a.toList.head? ≠ some '-') :
    isDeleteOption a = Bool.false ∧ looksLikeOption a = Bool.false := by
  refine ⟨?_, by simp [looksLikeOption, h]⟩
  rw [isDeleteOption, Bool.or_eq_false_iff]
  constructor <;> exact decide_eq_false fun ha => h (ha ▸ rfl)

/-- What `tr` does with two sets. -/
theorem run_eq_onInput (ha : a.toList.head? ≠ some '-') (hb : b.toList.head? ≠ some '-') :
    run [a, b] = onInput (translate (readSet a.toList) (readSet b.toList)) := by
  obtain ⟨ha, ha'⟩ := not_option ha
  obtain ⟨hb, hb'⟩ := not_option hb
  simp [run, ha, ha', hb, hb']

theorem run_word (set₁ set₂ : List Char) :
    run [word set₁, word set₂] = onInput (translate set₁ set₂) := by
  have hword (set : List Char) : (word set).toList = encode set := String.toList_ofList
  have hhead (set : List Char) : (word set).toList.head? ≠ some '-' := by
    rw [hword]
    exact head?_encode_ne set
  rw [run_eq_onInput (hhead set₁) (hhead set₂), hword, hword, readSet_encode, readSet_encode]

theorem reports_onInput (h : sc.Offers input) (change : List Char → List Char) :
    (onInput change).Reports sc (success (String.ofList (change input.toList))) := by
  unfold onInput
  exact (Program.resume_readAll h _).elim fun _ hread => ⟨_, hread.2⟩

/-- **A translation can be undone.** Every list of characters can be written as a set. Two sets of
one length, without a character twice, replace each character of the first by its partner and leave
all others. In the other direction they give the text back, if it holds no character of the second
set that is not in the first. -/
theorem translation_round_trips :
    (∀ set, readSet (encode set) = set) ∧
    ∀ (set₁ set₂ : List Char) (input : String) (sc : Scene), set₁.Nodup → set₂.Nodup →
      set₁.length = set₂.length → (∀ c ∈ input.toList, c ∈ set₂ → c ∈ set₁) → sc.Offers input →
      ∃ f output, (∀ p ∈ set₁.zip set₂, f p.1 = p.2) ∧ (∀ c ∉ set₁, f c = c) ∧
        output.toList = input.toList.map f ∧
        (run [word set₁, word set₂]).Reports sc (success output) ∧
        ∀ sc' : Scene, sc'.Offers output →
          (run [word set₂, word set₁]).Reports sc' (success input) := by
  refine ⟨readSet_encode, fun set₁ set₂ input sc h₁ h₂ hlength hinput hsc => ?_⟩
  refine ⟨translateChar (pairing set₁ set₂), String.ofList (translate set₁ set₂ input.toList),
    fun p hp => translateChar_of_mem h₁ hlength hp, fun c hc => translateChar_of_not_mem hc,
    String.toList_ofList, ?_, fun sc' hsc' => ?_⟩
  · rw [run_word]
    exact reports_onInput hsc _
  · have hback := reports_onInput hsc' (translate set₂ set₁)
    rwa [String.toList_ofList, translate_translate h₁ h₂ hlength hinput, String.ofList_toList,
      ← run_word] at hback

/-- Sets with a backslash, a hyphen and a letter that means a line break after a backslash. -/
theorem translation_round_trips_hyphen :
    ∃ output,
      (run [word ['n', '-', '\\'], word ['-', '\n', 'n']]).Reports
        { stdin := Stream.ofText "n-\\z" } (success output) ∧ output.toList = ['-', '\n', 'n', 'z'] ∧
      ∀ sc : Scene, sc.Offers output →
        (run [word ['-', '\n', 'n'], word ['n', '-', '\\']]).Reports sc (success "n-\\z") := by
  have hinput : ∀ c ∈ "n-\\z".toList, c ∈ ['-', '\n', 'n'] → c ∈ ['n', '-', '\\'] := by simp
  obtain ⟨f, output, hpairs, hothers, houtput, hthere, hback⟩ := translation_round_trips.2
    ['n', '-', '\\'] ['-', '\n', 'n'] "n-\\z" { stdin := Stream.ofText "n-\\z" } (by decide)
    (by decide) rfl hinput ⟨by decide, by decide⟩
  refine ⟨output, hthere, ?_, hback⟩
  have hn : f 'n' = '-' := hpairs ('n', '-') (by decide)
  have hhyphen : f '-' = '\n' := hpairs ('-', '\n') (by decide)
  have hbackslash : f '\\' = 'n' := hpairs ('\\', 'n') (by decide)
  have hz : f 'z' = 'z' := hothers 'z' (by decide)
  rw [houtput]
  simp [hn, hhyphen, hbackslash, hz]

end PocketShell.Command.Tr
