import PocketShell.Proofs.Command.Rounds
import PocketShell.Proofs.Quoting
import PocketShell.Proofs.Run.Literal
import PocketShell.Proofs.Script.Wrapping
import PocketShell.Proofs.Sequential.Refinement

/-!
# What lines around a script do

The commands that stand beside a script in parentheses, and what they do to a state.

* `Sequential.eval_target` : a quoted word as the target of a redirection;
* `Sequential.eval_printf_quoted`, `Sequential.eval_printf_captured` : a `printf` that writes a
  quoted word, or what a script writes;
* `Sequential.eval_cat` : a `cat` passes on its input;
* `Sequential.eval_piped`, `Sequential.eval_printf_piped`, `Sequential.eval_written`,
  `Sequential.eval_readFrom`, `Sequential.eval_readWord` : a script in parentheses beside an
  operator;
* `Sequential.exec_of_parse`, `Sequential.exec_line` : a line does what its statements come to.
-/

namespace PocketShell

open Quoting (literalOf Spells)

/-! ## Words -/

namespace Words

/-- Literals are one word in the target of a redirection, too. -/
theorem join_literals {texts : List (List Char)} (hne : texts ≠ []) :
    join (texts.map literalOf) = String.ofList texts.flatten := by
  have hsame (w : Words) : (texts.map literalOf).foldl joinSegment w =
      (texts.map literalOf).foldl splitSegment w := by
    rw [List.foldl_map, List.foldl_map]
    rfl
  have hword : (texts.map literalOf).foldl splitSegment {} = _ := foldl_word [] hne
  rw [join, hsame, hword, ← String.toList_inj, String.toList_intercalate]
  simp [toList, flush]

end Words

namespace Sequential

open PocketShell.Tree Cursor

variable {host : Host} {cancellable : Bool} {dest : Option String} {s : State} {parts : List Tree}
  {texts : List (List Char)}

theorem expandAll_idents (pieces : List (List Char)) (s : State) :
    expandAll host cancellable (idents pieces) s = (s, String.ofList pieces.flatten) := by
  induction pieces with
  | nil => rfl
  | cons v pieces ih =>
    have hcons : expandAll host cancellable (idents (v :: pieces)) s =
        ((expandAll host cancellable (idents pieces) s).1,
          String.ofList v ++ (expandAll host cancellable (idents pieces) s).2) := rfl
    rw [hcons, ih, List.flatten_cons, String.ofList_append]

theorem segments_spells (h : List.Forall₂ Spells parts texts) (ts : List Tree) (s : State) :
    segments host cancellable (parts ++ ts) s =
      ((segments host cancellable ts s).1,
        texts.map literalOf ++ (segments host cancellable ts s).2.1,
        (segments host cancellable ts s).2.2) := by
  induction h with
  | nil => rfl
  | cons hpart hparts ih =>
    rw [List.cons_append]
    cases hpart with
    | ident | quote => simp only [segments, ih, List.map_cons, List.cons_append, literalOf]
    | dblQuote pieces =>
      simp only [segments, expandAll_idents, ih, List.map_cons, List.cons_append, literalOf]

theorem evalGroup?_spells (h : List.Forall₂ Spells parts texts) (ts : List Tree) (s : State) :
    evalGroup? host cancellable (parts ++ ts) dest s = evalGroup? host cancellable ts dest s := by
  induction h with
  | nil => rfl
  | cons hpart hparts ih => cases hpart <;> exact ih

/-- A quoted word as the target of a redirection. -/
theorem eval_target (h : List.Forall₂ Spells parts texts) (hne : texts ≠ []) (s : State) :
    eval host cancellable (.seq (.command true) parts) dest s =
      (s.write dest (String.ofList texts.flatten), 0) := by
  have hparts : segments host cancellable (parts ++ []) s = _ := segments_spells h [] s
  rw [List.append_nil] at hparts
  simp only [eval, hparts, segments, List.append_nil, Words.join_literals hne]

/-! ## `printf` and `cat` -/

end Sequential

namespace Shell

theorem exec_printf (sh : Shell) (h : sh.registry.get? "printf" = some .printf) (text : String) :
    sh.host.exec ["printf", "%s", text] = report { stdout := text } := by
  have hrun : sh.host.exec ["printf", "%s", text] =
      (Command.Printf.run ["%s", text]).bind report := by
    change sh.execute "printf" ["%s", text] = _
    rw [execute, h]
    rfl
  rw [hrun, Command.Printf.run_text]
  rfl

end Shell

namespace Sequential

open PocketShell.Tree Cursor

variable {host : Host} {cancellable : Bool} {dest : Option String} {s : State} {parts : List Tree}
  {texts : List (List Char)}

theorem perform_report (text : String) (s : State) :
    perform none (Shell.report { stdout := text }) s = (s.write none text, 0) := by
  cases hempty : text.isEmpty with
  | true =>
    obtain rfl := String.isEmpty_iff.1 hempty
    have hnothing : Shell.report { stdout := "" } = .done 0 := rfl
    simp [hnothing, perform, State.write]
  | false =>
    have hwrite : Shell.report { stdout := text } = .write text fun _ => .done 0 := by
      simp only [Shell.report, hempty]
      rfl
    rw [hwrite]
    rfl

/-- A `cat` without words passes on what it reads. -/
theorem perform_cat (sh : Shell) (h : sh.registry.get? "cat" = some .cat) (s : State) :
    perform none (sh.host.exec ["cat"]) s = ({ s.write none s.input with input := "" }, 0) := by
  have hrun : sh.host.exec ["cat"] = (Command.Cat.run []).bind Shell.report := by
    change sh.execute "cat" [] = _
    rw [Shell.execute, h]
    rfl
  rw [hrun]
  change (if s.input.isEmpty then (s, 0) else
    (({ s with input := "" } : State).write none s.input, 0)) = _
  split
  · rename_i hempty
    obtain ⟨input, output, errors, store, cancellation⟩ := s
    obtain rfl : input = "" := String.isEmpty_iff.1 hempty
    simp [State.write]
  · rfl

section shell

variable (sh : Shell)

theorem launch_of_running {argv : List String}
    (hrunning : (cancellable && s.cancellation.fired) = false) :
    launch host cancellable dest argv s = perform dest (host.exec argv) s := by
  rw [launch, hrunning, if_neg Bool.false_ne_true]

/-- A `cat` at the end of a pipe. -/
theorem eval_cat (hcat : sh.registry.get? "cat" = some .cat)
    (hrunning : (cancellable && s.cancellation.fired) = false) :
    eval sh.host cancellable (.seq (.command false) [.leaf (.ident "cat")]) none s =
      ({ s.write none s.input with input := "" }, 0) := by
  have hsplit : Words.split [.literal "cat"] = ["cat"] := by
    simp [Words.split, Words.splitSegment, Words.addText, Words.toList, Words.flush]
  simp only [eval, evalGroup?, segments, hsplit, launch_of_running hrunning, perform_cat sh hcat]

theorem eval_printfWith (hprintf : sh.registry.get? "printf" = some .printf) {text : String}
    {s' : State} {found : List Segment} {status : Option Int}
    (hgroup : evalGroup? sh.host cancellable parts none s = none)
    (hparts : segments sh.host cancellable parts s = (s', found, status))
    (htext : (found.foldl Words.splitSegment ⟨["%s", "printf"], none⟩).toList =
      ["printf", "%s", text])
    (hrunning : (cancellable && s'.cancellation.fired) = false) :
    eval sh.host cancellable (.seq (.command false) (printfWith parts)) none s =
      (s'.write none text, 0) := by
  have hsplit : Words.split (.literal "printf" :: .gap :: .literal "%s" :: .gap :: found) =
      ["printf", "%s", text] := by
    rw [← htext]
    simp [Words.split, Words.splitSegment, Words.addText, Words.flush]
  simp only [eval, printfWith, gapLeaf, evalGroup?, hgroup, segments, hparts, hsplit,
    launch_of_running hrunning, Shell.exec_printf sh hprintf, perform_report]

/-- A `printf` of a quoted word. -/
theorem eval_printf_quoted (hprintf : sh.registry.get? "printf" = some .printf)
    (h : List.Forall₂ Spells parts texts) (hne : texts ≠ [])
    (hrunning : (cancellable && s.cancellation.fired) = false) :
    eval sh.host cancellable (.seq (.command false) (printfWith (parts ++ [gapLeaf]))) none s =
      (s.write none (String.ofList texts.flatten), 0) := by
  refine eval_printfWith sh hprintf ?_ (segments_spells h [gapLeaf] s) ?_ hrunning
  · rw [evalGroup?_spells h]
    rfl
  · rw [List.foldl_append, Words.foldl_word _ hne]
    rfl

/-! ## Statements beside an operator -/

variable {ts : List Tree}

section captured

variable {s' : State} {text : String} {status : Int}
  (h : s.capture (evalAll sh.host cancellable ts none 0) = (s', text, status))
  (hrunning : (cancellable && s'.cancellation.fired) = false)

include h hrunning

/-- A `printf` of what statements write, if they have not cancelled the run. -/
theorem eval_printf_captured (hprintf : sh.registry.get? "printf" = some .printf) :
    eval sh.host cancellable (.seq (.command false) (printfWith [captured ts])) none s =
      (s'.write none (chomp text), 0) := by
  have hparts : segments sh.host cancellable [captured ts] s =
      (s', [.literal (chomp text)], none) := by
    simp only [captured, segments, expandAll, expand, h, String.append_empty]
  refine eval_printfWith sh hprintf rfl hparts ?_ hrunning
  simp [Words.splitSegment, Words.addText, Words.toList, Words.flush]

/-- Statements on the left of a pipe into `cat`, if they have not cancelled the run. -/
theorem eval_piped (hcat : sh.registry.get? "cat" = some .cat) :
    eval sh.host cancellable
      (.join .pipe (grouped ts) (.seq (.command false) [.leaf (.ident "cat")])) none s =
        (s'.write none text, status) := by
  have hleft : s.capture (eval sh.host cancellable (grouped ts) none) = (s', text, status) := h
  have hright := eval_cat (s := { s' with input := text }) sh hcat hrunning
  rw [eval, hleft]
  simp only [State.feed, hright]
  rfl

end captured

/-- Statements on the right of a pipe that `printf` writes a quoted word to. -/
theorem eval_printf_piped (hprintf : sh.registry.get? "printf" = some .printf)
    (h : List.Forall₂ Spells parts texts) (hne : texts ≠ [])
    (hrunning : (cancellable && s.cancellation.fired) = false) :
    eval sh.host cancellable (.join .pipe (.seq (.command false) (printfWith (parts ++ [gapLeaf])))
      (grouped ts)) dest s =
        ((s.feed (String.ofList texts.flatten) (evalAll sh.host cancellable ts dest 0)).1, 0) := by
  have hleft : s.capture (eval sh.host cancellable
      (.seq (.command false) (printfWith (parts ++ [gapLeaf]))) none) =
        (s, String.ofList texts.flatten, 0) := by
    have hbuffer := eval_printf_quoted (s := { s with output := "" }) sh hprintf h hne hrunning
    rw [State.capture, hbuffer]
    simp [State.write]
  rw [eval, hleft]
  rfl

theorem capture_target (h : List.Forall₂ Spells parts texts) (hne : texts ≠ []) (s : State) :
    s.capture (eval host cancellable (.seq (.command true) parts) none) =
      (s, String.ofList texts.flatten, 0) := by
  rw [State.capture, eval_target h hne]
  simp [State.write]

section target

variable (h : List.Forall₂ Spells parts texts) (hne : texts ≠ [])

include h hne

/-- Statements with their output in a file. -/
theorem eval_written (hname : (String.ofList texts.flatten).isEmpty = false) :
    eval host cancellable (.join .write (grouped ts) (.seq (.command true) parts)) dest s =
      s.divert true (String.ofList texts.flatten) fun key =>
        evalAll host cancellable ts (some key) 0 := by
  rw [eval, capture_target h hne]
  simp only [hname]
  rfl

/-- Statements with their input from a file. -/
theorem eval_readFrom (hname : (String.ofList texts.flatten).isEmpty = false) :
    eval host cancellable (.join .read (grouped ts) (.seq (.command true) parts)) dest s =
      s.feed ((s.store.read? (String.ofList texts.flatten)).getD "")
        (evalAll host cancellable ts dest 0) := by
  rw [eval, capture_target h hne]
  simp only [hname]
  rfl

/-- Statements with a quoted word as their input. -/
theorem eval_readWord :
    eval host cancellable (.join .readStr (grouped ts) (.seq (.command true) parts)) dest s =
      s.feed (String.ofList texts.flatten) (evalAll host cancellable ts dest 0) := by
  rw [eval, capture_target h hne]
  rfl

end target

/-! ## Lines -/

/-- A line does what its statements come to, however a `$` without a name is read. -/
theorem exec_of_parse {line : String} {g : Forest} {ts : List Tree}
    (hparse : Forest.parse (Source.ofText line) = .ok g)
    (hts : g.statements.map literal = ts.map literal)
    (hblank : Text.isAllBlank line.toList = false) (input : String) :
    sh.exec line input = ((run sh ts input).1, some (run sh ts input).2) :=
  (sh.exec_of_literal hparse hts hblank input).trans (run_eq sh ts input).1

/-- What a shell comes to when a run for it ends. -/
def outcome (r : State × Int) : Shell × Option Command.Result :=
  ({ sh with store := r.1.store, cancellation := r.1.cancellation },
    some { stdout := r.1.output, stderr := r.1.errors, exitCode := r.2 })

/-- A line of one statement. -/
theorem exec_line {line : String} {g : Forest} {t : Tree}
    (hparse : Forest.parse (Source.ofText line) = .ok g)
    (ht : g.statements.map literal = [t.literal]) {c : Char}
    (hhead : line.toList.head? = some c) (hc : Text.isBlank c = false) (input : String) :
    sh.exec line input = outcome sh (eval sh.host sh.cancellable t none (initial sh input)) := by
  have hts : g.statements.map literal = [t].map literal := ht
  have hblank : Text.isAllBlank line.toList = false := by
    obtain ⟨cs, hline⟩ := List.head?_eq_some_iff.1 hhead
    rw [hline, Text.isAllBlank, List.all_cons, hc, Bool.false_and]
  exact exec_of_parse sh hparse hts hblank input

end shell

end Sequential

end PocketShell
