import PocketShell.Proofs.Run.Literal
import PocketShell.Proofs.Run.Sequencing
import PocketShell.Proofs.Script.Composition
import PocketShell.Proofs.Sequential.Refinement

/-!
# Lines that are comments

A line that begins with `#` is a statement of its own: it does nothing and has the status 0.

* `Cursor.Parses.comment` : a comment takes the rest of its line, whatever tokens are in it;
* `Forest.parse_comment` : such a line is one command with nothing but a comment in it;
* `Tree.statements_comment`, `Shell.run_comment` : among statements it does nothing and leaves the
  status 0, whatever the commands around it do;
* `Shell.exec_below` : a script below another is done after it.

`Shell.exec_comment_line` says what a comment line below a script changes: nothing but the exit
code, and that only where no statement follows.
-/

namespace PocketShell

/-! ## The tokens of a comment -/

namespace Tape

variable {p : Position} {cs : List Char}

theorem mem_of_word_error {cause : Fault} (h : word p cs = .error cause) : '\\' ∈ cs := by
  fun_induction word p cs with
  | case1 p => cases h
  | case2 p => exact List.mem_singleton_self _
  | case3 p d ds ih => exact List.mem_cons_self
  | case4 p c cs hescape hc ih =>
    cases hw : word (p.after c) cs with
    | error cause' =>
      rw [hw] at h
      exact List.mem_cons_of_mem _ (ih (hw.trans h))
    | ok r =>
      rw [hw] at h
      cases h
  | case5 p c cs hescape hc => cases h

/-- A text without backslashes does not break off inside a token. -/
theorem mem_of_unexpectedEnd (h : tokenFrom p cs = .error .unexpectedEnd) : '\\' ∈ cs := by
  fun_induction tokenFrom p cs with
  | case1 p => cases h
  | case2 p c hc =>
    rw [TokenKind.eq_of_ofStart?_backslash hc]
    exact List.mem_cons_self
  | case3 p c hc ds ih => exact List.mem_cons_of_mem _ (List.mem_cons_of_mem _ (ih h))
  | case4 p c hc d ds hd =>
    rw [TokenKind.eq_of_ofStart?_backslash hc]
    exact List.mem_cons_self
  | case5 p c cs start hstart hc kind taken left hmunch => cases h
  | case6 p c cs hc hgap => cases h
  | case7 p c cs hc hgap =>
    exact List.mem_cons_of_mem _ (mem_of_word_error (word_map_error h).1)

end Tape

/-! ## Comment lines in scripts -/

namespace Cursor

theorem feed_comment (path : List Crumb) {token : Token} (h : token.kind ≠ .newline) :
    Cursor.feed ⟨.leaf .comment, path⟩ token = .ok ⟨.leaf .comment, path⟩ := if_neg h

/-- A comment takes the rest of its line: quotes, operators and all. -/
theorem Parses.comment {path : List Crumb} {tape : Tape} {r : Except SyntaxError Cursor}
    (h : Parses ⟨.leaf .comment, path⟩ tape r)
    (hcomplete : isComplete ⟨.leaf .comment, path⟩ = true)
    (hline : '\n' ∉ tape.chars) (hescape : '\\' ∉ tape.chars) :
    r = .ok ⟨.leaf .comment, path⟩ := by
  have hkind {token : Token} {c : Cursor} {tape tape' : Tape} (hline : '\n' ∉ tape.chars)
      (hnext : c.nextToken tape = .ok (token, tape')) : token.kind ≠ .newline :=
    fun hkind => hline (mem_of_nextToken hnext (hkind ▸ rfl))
  generalize hc : (⟨.leaf .comment, path⟩ : Cursor) = c at h
  induction h with
  | @step c next tape left token r hnext hstep _ ih =>
    subst hc
    obtain rfl := Except.ok.inj (hstep.symm.trans (feed_comment path (hkind hline hnext)))
    obtain ⟨taken, -, htaken, -⟩ := nextToken_split hnext
    rw [htaken] at hline hescape
    exact ih (fun hmem => hline (List.mem_append_right _ hmem))
      (fun hmem => hescape (List.mem_append_right _ hmem)) rfl
  | refused hnext hstep =>
    subst hc
    cases hstep.symm.trans (feed_comment path (hkind hline hnext))
  | ended => rfl
  | cutShort _ hcut =>
    subst hc
    cases hcut.symm.trans hcomplete
  | unclosed hnext =>
    subst hc
    exact absurd (Tape.mem_of_unexpectedEnd hnext) hescape

end Cursor

namespace Forest

open Cursor

/-- A comment line is a command with no words. -/
theorem parse_comment {c : String} (hline : '\n' ∉ c.toList) (hescape : '\\' ∉ c.toList) :
    ∃ f, parse (Source.ofText ("#" ++ c)) = .ok f ∧
      f.statements = [.seq (.command false) [.leaf .comment]] := by
  have hhash : Lexes ('#' :: c.toList) .hash ['#'] c.toList :=
    Lexes.single .hash rfl (by simp) rfl
  have hopened : Reads (Cursor.start, ("#" ++ c).toList)
      (⟨.leaf .comment, [.seq (.command false) [], .seq .script []]⟩, c.toList) := by
    rw [show ("#" ++ c).toList = '#' :: c.toList by simp]
    exact .single (step_of_lexes hhash rfl fun _ => rfl)
  obtain ⟨taken, -, hgo⟩ := hopened.parses {}
  obtain ⟨r, hr⟩ := parses_total ⟨.leaf .comment, [.seq (.command false) [], .seq .script []]⟩
    ⟨({} : Position).past taken, c.toList⟩
  obtain rfl := hr.comment rfl hline hescape
  obtain ⟨-, f, hf, hstatements⟩ := parse_of_parses (hgo _ hr)
  exact ⟨f, hf, hstatements⟩

end Forest

/-! ## What comment lines do -/

namespace Tree

variable (cancellable : Bool)

theorem job_comment (k : Int → Job) :
    job cancellable (.seq (.command false) [.leaf .comment]) k = k 0 := by
  simp [job, firstGroup?, segments, Words.split, Words.splitSegment, Words.toList, Words.flush]

/-- A comment line does nothing but reset the status. -/
theorem statements_comment (ts us : List Tree) (status : Int) (k : Int → Job) :
    statements cancellable (ts ++ .seq (.command false) [.leaf .comment] :: us) status k =
      statements cancellable ts status fun _ => statements cancellable us 0 k := by
  simp only [statements_append, statements, job_comment]

end Tree

namespace Shell

/-- A run with a comment line among its statements. -/
theorem run_comment (sh : Shell) (ts us : List Tree) (input : String) :
    sh.run (ts ++ .seq (.command false) [.leaf .comment] :: us) input =
      ((sh.run (ts ++ us) input).1, (sh.run (ts ++ us) input).2.map fun r =>
        { r with exitCode := if us = [] then 0 else r.exitCode }) := by
  cases us with
  | nil =>
    rw [run, Tree.statements_comment, Tree.statements_eq_andThen, Job.poll_andThen,
      List.append_nil, run]
    rcases (Tree.statements sh.cancellable ts 0 .exit).poll sh.host (sh.scene input)
      with ⟨sc, progress⟩
    cases progress <;> rfl
  | cons u us =>
    -- the statement that follows starts with a status of its own
    have hsame : Tree.statements sh.cancellable
        (ts ++ .seq (.command false) [.leaf .comment] :: u :: us) 0 .exit =
          Tree.statements sh.cancellable (ts ++ u :: us) 0 .exit := by
      rw [Tree.statements_comment, Tree.statements_append]
      rfl
    rw [run, hsame, ← run]
    simp

section lines

variable (sh : Shell) {s : String} {f : Forest}
  (hs : Forest.parse (Source.ofText s) = .ok f) (hblank : Text.isAllBlank s.toList = false)

include hs hblank

/-- A script below another is done after it. -/
theorem exec_below {q : String} {g : Forest} {ts : List Tree}
    (hq : Forest.parse (Source.ofText q) = .ok g)
    (hts : g.statements.map Tree.literal = ts.map Tree.literal) (input : String) :
    sh.exec (s ++ "\n" ++ q) input = sh.run (f.statements ++ ts) input := by
  have hbelow : Text.isAllBlank (s ++ "\n" ++ q).toList = false := by
    unfold Text.isAllBlank at hblank ⊢
    simp only [String.toList_append, List.all_append, hblank, Bool.false_and]
  rcases Forest.parse_line hs q with ⟨g', whole, hq', hwhole, hstatements⟩ | ⟨e, hq', -⟩
  · obtain rfl := Except.ok.inj (hq'.symm.trans hq)
    refine sh.exec_of_literal hwhole ?_ hbelow input
    rw [hstatements, hts, List.map_append]
  · cases hq'.symm.trans hq

end lines

/-- A comment line below a script changes nothing but the exit code: it is a statement with the
status 0, so the exit code is 0 unless further statements follow. -/
theorem exec_comment_line (sh : Shell) (s c input : String) (f : Forest)
    (hparse : Forest.parse (Source.ofText s) = .ok f)
    (hblank : Text.isAllBlank s.toList = false)
    (hline : '\n' ∉ c.toList) (hescape : '\\' ∉ c.toList) :
    (∃ sh' r, sh.exec s input = (sh', some r) ∧
        sh.exec (s ++ "\n#" ++ c) input = (sh', some { r with exitCode := 0 })) ∧
      ∀ q g, Forest.parse (Source.ofText q) = .ok g →
        ∃ sh' r, sh.exec (s ++ "\n" ++ q) input = (sh', some r) ∧
          sh.exec (s ++ "\n#" ++ c ++ "\n" ++ q) input =
            (sh', some { r with exitCode := if g.statements = [] then 0 else r.exitCode }) := by
  obtain ⟨k, hk, hcomment⟩ := Forest.parse_comment hline hescape
  constructor
  · have hjoin : s ++ "\n#" ++ c = s ++ "\n" ++ ("#" ++ c) := by
      simp [← String.toList_inj]
    have hrun := (Sequential.run_eq sh f.statements input).1
    refine ⟨_, _, (sh.exec_of_literal hparse rfl hblank input).trans hrun, ?_⟩
    rw [hjoin, sh.exec_below hparse hblank hk (congrArg (List.map Tree.literal) hcomment),
      run_comment, List.append_nil, hrun]
    rfl
  · intro q g hg
    have hjoin : s ++ "\n#" ++ c ++ "\n" ++ q = s ++ "\n" ++ ("#" ++ c ++ "\n" ++ q) := by
      simp [← String.toList_inj]
    rcases Forest.parse_line hk q with ⟨g', whole, hg', hwhole, hstatements⟩ | ⟨e, hg', -⟩
    · obtain rfl := Except.ok.inj (hg'.symm.trans hg)
      rw [hcomment] at hstatements
      have hbelow :=
        sh.exec_below hparse hblank hwhole (hstatements.trans List.map_append.symm) input
      have hrun := (Sequential.run_eq sh (f.statements ++ g'.statements) input).1
      refine ⟨_, _, (sh.exec_below hparse hblank hg rfl input).trans hrun, ?_⟩
      rw [hjoin, hbelow, List.singleton_append, run_comment, hrun]
      rfl
    · cases hg'.symm.trans hg

/-- A comment full of tokens between a failure and blank lines: the failure is forgotten. -/
theorem exec_comment_line_failure :
    ∃ sh' r, ({} : Shell).exec ("echo a; false" ++ "\n" ++ "\n") = (sh', some r) ∧
      r.exitCode = 1 ∧
      ({} : Shell).exec ("echo a; false" ++ "\n#" ++ "$( '|| \"" ++ "\n" ++ "\n") =
        (sh', some { r with exitCode := 0 }) := by
  obtain ⟨f, hf⟩ : ∃ f, (Forest.parse (Source.ofText "echo a; false")).toOption = some f :=
    Option.isSome_iff_exists.1 (by decide +kernel)
  have hempty : ((Forest.parse (Source.ofText "\n")).toOption.map fun g =>
      decide (g.statements = [])) = some true := by
    decide +kernel
  obtain ⟨g, hg, hstatements⟩ := Option.map_eq_some_iff.1 hempty
  have hstatus : (({} : Shell).exec ("echo a; false" ++ "\n" ++ "\n")).2.map (·.exitCode) =
      some 1 := by
    decide +kernel
  obtain ⟨sh', r, hexec, hcommented⟩ := (exec_comment_line {} "echo a; false" "$( '|| \"" "" f
    (Sequential.parse_of_toOption hf) (by decide +kernel) (by decide) (by decide)).2 "\n" g
    (Sequential.parse_of_toOption hg)
  rw [hexec] at hstatus
  rw [if_pos (of_decide_eq_true hstatements)] at hcommented
  exact ⟨sh', r, hexec, Option.some.inj hstatus, hcommented⟩

/-- A comment below a command that fails changes the exit code. -/
theorem exec_false_comment : ¬∀ (sh : Shell) (s c input : String) (f : Forest),
    Forest.parse (Source.ofText s) = .ok f → Text.isAllBlank s.toList = false →
      '\n' ∉ c.toList → '\\' ∉ c.toList →
        sh.exec (s ++ "\n#" ++ c) input = sh.exec s input := by
  intro hsame
  obtain ⟨f, hf⟩ : ∃ f, (Forest.parse (Source.ofText "false")).toOption = some f :=
    Option.isSome_iff_exists.1 (by decide +kernel)
  have hexec := hsame {} "false" "c" "" f (Sequential.parse_of_toOption hf) (by decide +kernel)
    (by decide) (by decide)
  have hne : (({} : Shell).exec ("false" ++ "\n#" ++ "c")).2 ≠ (({} : Shell).exec "false").2 := by
    decide +kernel
  exact hne (congrArg Prod.snd hexec)

end Shell

end PocketShell
