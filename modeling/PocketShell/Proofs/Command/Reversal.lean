import PocketShell.Command.Rev
import PocketShell.Proofs.Command.Inputs
import PocketShell.Proofs.Pieces
import PocketShell.Proofs.Sequential.Lines

/-!
# Lines reversed twice

* `Rev.reverseLines_eq` : a line break at the end needs no special care;
* `Rev.splitAt_reverseLines` : each line is reversed, and the lines stay in order;
* `Rev.reverseLines_reverseLines` : doing it twice changes nothing;
* `Rev.breaks_reverseLines` : the line breaks stay where they are;
* `Sequential.perform_rev` : what `rev` does with its input;
* `Sequential.eval_rev_rev` : what two of them do on the sides of a pipe.

`Shell.exec_rev_rev` says this together with what `rev | rev` does in a shell.
-/

namespace PocketShell

namespace Command.Rev

/-! ## Lines -/

/-- Behind a line break at the end there is an empty line, and reversing it changes nothing. So the
lines may be taken of the whole text as well. -/
theorem reverseLines_eq (text : List Char) :
    reverseLines text = Text.join '\n' ((Text.splitAt '\n' text).map List.reverse) := by
  by_cases hend : text.getLast? = some '\n'
  · obtain ⟨body, rfl⟩ := List.getLast?_eq_some_iff.1 hend
    have hsplit : splitEnd (body ++ ['\n']) = (body, ['\n']) := by simp [splitEnd]
    have hlines : (Text.splitAt '\n' body).map List.reverse ≠ [] := by
      simpa using Text.splitAt_ne_nil '\n' body
    have hlast : (Text.splitAt '\n' []).map List.reverse = [[]] := rfl
    simp only [reverseLines, hsplit, List.isEmpty_cons, Bool.and_false, Bool.false_eq_true,
      if_false]
    rw [Text.splitAt_append, List.map_append, hlast, Text.join_concat_nil hlines]
  · have hsplit : splitEnd text = (text, []) := if_neg hend
    simp only [reverseLines, hsplit, List.isEmpty_nil, Bool.and_true, List.append_nil]
    split
    · rename_i hempty
      rw [List.isEmpty_iff.1 hempty]
      rfl
    · rfl

/-- Each line is reversed, and the lines stay in order. -/
theorem splitAt_reverseLines (text : List Char) :
    Text.splitAt '\n' (reverseLines text) = (Text.splitAt '\n' text).map List.reverse := by
  rw [reverseLines_eq]
  apply Text.splitAt_join
  · simpa using Text.splitAt_ne_nil '\n' text
  · intro reversed hreversed
    obtain ⟨line, hline, rfl⟩ := List.mem_map.1 hreversed
    simpa using Text.not_mem_of_mem_splitAt hline

theorem reverseLines_reverseLines (text : List Char) : reverseLines (reverseLines text) = text := by
  have htwice : ((Text.splitAt '\n' text).map List.reverse).map List.reverse =
      Text.splitAt '\n' text := by simp
  rw [reverseLines_eq (reverseLines text), splitAt_reverseLines, htwice, Text.join_splitAt]

/-! ## Line breaks -/

/-- Where a text has line breaks. -/
def breaks (text : List Char) : List Bool := text.map (· == '\n')

theorem breaks_of_not_mem {line : List Char} (h : '\n' ∉ line) :
    breaks line = List.replicate line.length Bool.false := by
  rw [List.eq_replicate_iff, breaks, List.length_map]
  refine ⟨rfl, fun b hb => ?_⟩
  obtain ⟨c, hc, rfl⟩ := List.mem_map.1 hb
  exact beq_eq_false_iff_ne.2 fun hbreak => h (hbreak ▸ hc)

/-- The line breaks of lines put together depend on how long the lines are only. -/
theorem breaks_join {lines : List (List Char)} (h : ∀ line ∈ lines, '\n' ∉ line) :
    breaks (Text.join '\n' lines) =
      [Bool.true].intercalate (lines.map fun line => List.replicate line.length Bool.false) := by
  induction lines with
  | nil => rfl
  | cons line rest ih =>
    have hline := breaks_of_not_mem (h line List.mem_cons_self)
    cases rest with
    | nil => simpa [Text.join] using hline
    | cons next rest =>
      have hrest := ih fun l hl => h l (List.mem_cons_of_mem line hl)
      rw [Text.join_cons (List.cons_ne_nil _ _), breaks, List.map_append, List.map_cons,
        List.map_cons, List.map_cons, List.intercalate_cons_cons]
      unfold breaks at hline hrest
      rw [hline, hrest]
      simp

theorem breaks_eq (text : List Char) :
    breaks text = [Bool.true].intercalate
      ((Text.splitAt '\n' text).map fun line => List.replicate line.length Bool.false) := by
  rw [← breaks_join fun _ => Text.not_mem_of_mem_splitAt, Text.join_splitAt]

theorem breaks_reverseLines (text : List Char) : breaks (reverseLines text) = breaks text := by
  rw [breaks_eq, breaks_eq text, splitAt_reverseLines, List.map_map]
  simp [Function.comp_def]

theorem getElem?_reverseLines (text : List Char) (i : Nat) :
    (reverseLines text)[i]? = some '\n' ↔ text[i]? = some '\n' := by
  have hbreak (cs : List Char) : cs[i]? = some '\n' ↔ (breaks cs)[i]? = some Bool.true := by
    simp [breaks]
  rw [hbreak, hbreak, breaks_reverseLines]

/-! ## The command -/

/-- Without words, `rev` reads standard input and reverses its lines. -/
theorem run_nil : ∃ k, run [] = (readInput "-").bind k ∧
    ∀ text, k (.ok text) = .done (success (String.ofList (reverseLines text.toList))) := by
  refine ⟨_, Program.bind_assoc _ _ _, fun text => ?_⟩
  change Program.done (success (String.ofList (reverseLines ("" ++ text).toList))) = _
  rw [String.empty_append]

end Command.Rev

namespace Sequential

open Command.Rev PocketShell.Tree

variable {α : Type} {dest : Option String} {cancellable : Bool} {s : State}

theorem perform_readAll (k : Except Fault String → Program α) (s : State) :
    perform dest (Program.readAll.bind k) s =
      perform dest (k (.ok s.input)) { s with input := "" } := by
  change (if s.input.isEmpty then perform dest (k (.ok "")) s
    else perform dest (k (.ok ("" ++ s.input))) { s with input := "" }) = _
  split
  · rename_i hempty
    obtain ⟨input, output, errors, store, cancellation⟩ := s
    obtain rfl : input = "" := String.isEmpty_iff.1 hempty
    rfl
  · rw [String.empty_append]

theorem perform_readInput (k : Except Command.Trouble String → Program α) (s : State) :
    perform dest ((Command.readInput "-").bind k) s =
      perform dest (k (.ok s.input)) { s with input := "" } := by
  rw [Command.readInput, if_pos rfl, Program.bind_assoc, perform_readAll]
  rfl

/-- What `rev` does with its input. -/
theorem perform_rev (sh : Shell) (h : sh.registry.get? "rev" = some .rev) (s : State) :
    perform none (sh.host.exec ["rev"]) s =
      ({ s.write none (String.ofList (reverseLines s.input.toList)) with input := "" }, 0) := by
  have hrun : sh.host.exec ["rev"] = (Command.Rev.run []).bind Shell.report := by
    change sh.execute "rev" [] = _
    rw [Shell.execute, h]
    rfl
  have hreport (text : String) : (Program.done (Command.success text)).bind Shell.report =
      Shell.report { stdout := text } := rfl
  obtain ⟨k, hread, hk⟩ := run_nil
  rw [hrun, hread, Program.bind_assoc, perform_readInput, hk, hreport, perform_report]
  rfl

section shell

variable (sh : Shell) (hrev : sh.registry.get? "rev" = some .rev)

include hrev

/-- A `rev` that stands alone in a command, whatever gaps are around it. -/
theorem eval_rev (hrunning : (cancellable && s.cancellation.fired) = false) {body : List Tree}
    (hbody : body = [.leaf (.ident "rev"), .leaf (.whitespace " ")] ∨
      body = [.leaf (.ident "rev")]) :
    eval sh.host cancellable (.seq (.command false) body) none s =
      ({ s.write none (String.ofList (reverseLines s.input.toList)) with input := "" }, 0) := by
  have hsplit : Words.split [.literal "rev", .gap] = ["rev"] ∧
      Words.split [.literal "rev"] = ["rev"] := by decide
  rcases hbody with rfl | rfl <;>
    simp only [eval, evalGroup?, segments, hsplit, launch_of_running hrunning, perform_rev sh hrev]

/-- The two sides of the pipe. -/
theorem eval_rev_rev (hrunning : (cancellable && s.cancellation.fired) = false) :
    eval sh.host cancellable (.join .pipe
      (.seq (.command false) [.leaf (.ident "rev"), .leaf (.whitespace " ")])
      (.seq (.command false) [.leaf (.ident "rev")])) none s =
        ({ s.write none s.input with input := "" }, 0) := by
  have hleft : s.capture (eval sh.host cancellable
      (.seq (.command false) [.leaf (.ident "rev"), .leaf (.whitespace " ")]) none) =
        ({ s with input := "" }, String.ofList (reverseLines s.input.toList), 0) := by
    rw [State.capture, eval_rev (s := { s with output := "" }) sh hrev hrunning (.inl rfl)]
    simp [State.write]
  have hright := eval_rev (s := { s with input := String.ofList (reverseLines s.input.toList) })
    sh hrev hrunning (.inr rfl)
  rw [String.toList_ofList, reverseLines_reverseLines, String.ofList_toList] at hright
  rw [eval, hleft]
  simp only [State.feed, hright]
  rfl

end shell

/-- The nodes of `rev | rev`. -/
def pipedRevs : Forest where
  nodes := #[⟨none, .seq .script [4]⟩, ⟨some 4, .seq (.command false) [3, 2]⟩,
    ⟨some 1, .leaf (.ident "rev")⟩, ⟨some 1, .leaf (.whitespace " ")⟩,
    ⟨some 0, .join .pipe 1 (some 5)⟩, ⟨some 4, .seq (.command false) [6]⟩,
    ⟨some 5, .leaf (.ident "rev")⟩]

theorem parse_rev_rev : Forest.parse (Source.ofText "rev | rev") = .ok pipedRevs :=
  parse_of_toOption (by decide +kernel)

theorem exec_piped_revs (sh : Shell) (input : String) :
    sh.exec "rev | rev" input = outcome sh (eval sh.host sh.cancellable (.join .pipe
      (.seq (.command false) [.leaf (.ident "rev"), .leaf (.whitespace " ")])
      (.seq (.command false) [.leaf (.ident "rev")])) none (initial sh input)) :=
  exec_line (c := 'r') sh parse_rev_rev rfl (by decide) (by decide) input

end Sequential

namespace Shell

open Command.Rev PocketShell.Sequential

/-- **Reversing lines is undone by doing it again.** The lines of a text are reversed one by one, and
every line break stays in its place. Doing this twice gives the text back, and so does `rev | rev` in
every shell that has the command and is not cancelled, for every input. -/
theorem exec_rev_rev :
    (∀ text : List Char, reverseLines (reverseLines text) = text ∧
      (∀ i : Nat, (reverseLines text)[i]? = some '\n' ↔ text[i]? = some '\n') ∧
      (reverseLines text).splitOn '\n' = (text.splitOn '\n').map List.reverse) ∧
    ∀ (sh : Shell) (input : String), sh.registry.get? "rev" = some .rev →
      (sh.cancellable && sh.cancellation.fired) = false →
      sh.exec "rev | rev" input = (sh, some { stdout := input }) := by
  refine ⟨fun text => ⟨reverseLines_reverseLines text, getElem?_reverseLines text, ?_⟩,
    fun sh input hrev hrunning => ?_⟩
  · rw [← Text.splitAt_eq_splitOn, ← Text.splitAt_eq_splitOn, splitAt_reverseLines]
  · rw [exec_piped_revs, eval_rev_rev (s := initial sh input) sh hrev hrunning]
    simp [outcome, initial, State.write]

/-- A text with empty lines and no line break at its end. -/
theorem exec_rev_rev_lines :
    ({} : Shell).registry.get? "rev" = some .rev ∧
      ({} : Shell).exec "rev | rev" "\n\nab c\n\ndef" =
        ({}, some { stdout := "\n\nab c\n\ndef" }) := by
  have hrev : ({} : Shell).registry.get? "rev" = some .rev := rfl
  exact ⟨hrev, exec_rev_rev.2 {} "\n\nab c\n\ndef" hrev rfl⟩

end Shell

end PocketShell
