import PocketShell.Proofs.Run.Footprint
import PocketShell.Proofs.Sequential.Keeping
import PocketShell.Proofs.Sequential.Lines

/-!
# Where a script writes to and reads from

What a script writes is the same text in parentheses, behind a pipe, in a substitution and in a
file. It does the same with its input handed in, from a file, from a word and from a pipe.

* `Sequential.evalAll_away` : statements that have nothing to do with a file write to it what they
  write to a buffer;
* `Shell.exec_captured` : the ways to capture output;
* `Shell.exec_supplied` : the ways to supply input.
-/

namespace PocketShell

/-! ## Commands that are added -/

namespace Registry

theorem get?_register {r : Registry} {c d : Command} {name : String}
    (h : (r.register c).get? name = some d) : d = c ∨ r.get? name = some d := by
  by_cases hname : name = c.name
  · subst hname
    rw [register, Bindings.get?_insert_self] at h
    exact .inl (Option.some.inj h).symm
  · rw [register, Bindings.get?_insert_of_ne _ hname] at h
    exact .inr h

theorem isCustom_of_builtin {name : String} {c : Command} (h : builtin.get? name = some c) :
    c.isCustom = false := by
  have hentries : builtin.entries = [("cat", .cat), ("echo", .echo), ("env", .env),
    ("false", .false), ("printf", .printf), ("rev", .rev), ("tr", .tr), ("true", .true),
    ("wc", .wc)] := rfl
  have hmem : (name, c) ∈ builtin.entries := by
    obtain ⟨before, behind, hsplit, -⟩ := List.lookup_eq_some_iff.1 h
    rw [hsplit]
    exact List.mem_append_right before List.mem_cons_self
  rw [hentries] at hmem
  simp only [List.mem_cons, Prod.mk.injEq, List.not_mem_nil, or_false] at hmem
  rcases hmem with ⟨-, rfl⟩ | ⟨-, rfl⟩ | ⟨-, rfl⟩ | ⟨-, rfl⟩ | ⟨-, rfl⟩ | ⟨-, rfl⟩ | ⟨-, rfl⟩ |
    ⟨-, rfl⟩ | ⟨-, rfl⟩ <;> rfl

end Registry

namespace Sequential

open PocketShell.Tree Cursor

variable (sh : Shell) (ts : List Tree) (input : String)

/-! ## Output in a file -/

/-- A scene whose output goes to a new file. -/
def awayFrom (sc : Scene) (key : String) : Scene where
  stdin := sc.stdin
  stdout := .file ⟨key, "", {}, true⟩
  stderr := sc.stderr
  world := { sc.world with store := ⟨sc.world.store.files.insert key ""⟩ }

theorem beside_awayFrom (key : String) :
    Beside key true "" (sh.scene input) (awayFrom (sh.scene input) key) :=
  ⟨rfl, ⟨rfl, rfl, rfl, rfl, rfl, rfl⟩, rfl, rfl⟩

theorem shows_awayFrom (key : String) :
    Shows (some key) (awayFrom (sh.scene input) key) ((initial sh input).openFile true key) := by
  have h := shows_scene sh input
  exact ⟨h.closed, h.input, ⟨rfl, rfl, rfl, rfl⟩, h.errors, rfl, h.cancellation⟩

/-- What scenes beside each other stand for: what is in the buffer of the one is in the file of the
other. -/
theorem state_eq_of_beside {key content : String} {sc sc' : Scene} {s s' : State}
    (h : Beside key true content sc sc') (hs : Shows none sc s) (hs' : Shows (some key) sc' s') :
    s' = { s with store := ⟨s.store.files.insert key s.output⟩ } := by
  have houtput := hs.output
  have houtput' := hs'.output
  have hsinks := h.stdout
  revert houtput houtput' hsinks
  match sc.stdout, sc'.stdout with
  | .file _, _ => exact nofun
  | .stream _, .stream _ => exact fun _ => nofun
  | .stream t, .file f =>
    rintro ⟨-, htext⟩ ⟨-, -, -, hcontent⟩ ⟨-, hsame, -, -, -, hsame'⟩
    obtain rfl : content = s.output := String.toList_injective (hsame.symm.trans htext)
    have hinput : s'.input = s.input :=
      String.toList_injective (hs'.input.symm.trans (h.stdin ▸ hs.input))
    have herrors : s'.errors = s.errors :=
      String.toList_injective (hs'.errors.2.symm.trans (h.stderr ▸ hs.errors.2))
    have hstore : s'.store = ⟨s.store.files.insert key s.output⟩ := by
      rw [← hs.store, ← hs'.store, h.world]
    have hcancellation : s'.cancellation = s.cancellation := by
      rw [← hs.cancellation, ← hs'.cancellation, h.world]
    change (⟨s'.input, s'.output, s'.errors, s'.store, s'.cancellation⟩ : State) = _
    rw [hinput, hcontent.symm.trans hsame', herrors, hstore, hcancellation]

/-- Statements that have nothing to do with a file write to it what they write to a buffer. -/
theorem evalAll_away {key : String}
    (hkey : key ∉ (statements sh.cancellable ts 0 .exit).footprint sh.host (sh.scene input)) :
    evalAll sh.host sh.cancellable ts (some key) 0 ((initial sh input).openFile true key) =
      ({ (evalAll sh.host sh.cancellable ts none 0 (initial sh input)).1 with
        store := ⟨(evalAll sh.host sh.cancellable ts none 0 (initial sh input)).1.store.files.insert
          key (evalAll sh.host sh.cancellable ts none 0 (initial sh input)).1.output⟩ },
        (evalAll sh.host sh.cancellable ts none 0 (initial sh input)).2) := by
  have hmeets (dest : Option String) := meets_statements (prompt_host sh) sh.cancellable ts dest 0
  obtain ⟨sc, hpoll, hshows, -⟩ := (hmeets none).finish (shows_scene sh input)
  obtain ⟨sc', hpoll', hshows', -⟩ := (hmeets (some key)).finish (shows_awayFrom sh input key)
  have hsame := Job.sameOutcome_poll sh.host _ (beside_awayFrom sh input key) hkey
  rw [hpoll, hpoll'] at hsame
  obtain ⟨hstatus, content, hbeside, -⟩ := hsame
  generalize evalAll sh.host sh.cancellable ts none 0 (initial sh input) = r at hshows hstatus ⊢
  generalize evalAll sh.host sh.cancellable ts (some key) 0 _ = r' at hshows' hstatus ⊢
  exact Prod.ext (state_eq_of_beside hbeside hshows hshows') (Progress.finished.inj hstatus)

/-! ## Lines around a script -/

/-- A text is what is left of it, and perhaps a line break. -/
theorem eq_chomp (text : String) : text = chomp text ++ "\n" ∨
    text = chomp text ∧ (chomp text).toList.getLast? ≠ some '\n' := by
  by_cases h : text.toList.getLast? = some '\n'
  · obtain ⟨cs, hcs⟩ := List.getLast?_eq_some_iff.1 h
    refine .inl (String.toList_injective ?_)
    simp [chomp, hcs]
  · have hchomp : chomp text = text := if_neg h
    rw [hchomp]
    exact .inr ⟨rfl, h⟩

section lines

open Quoting

variable {sh} {script line name t : String} {f : Forest} {s : State} {status : Int}
  (hparse : Forest.parse (Source.ofText script) = .ok f)
  (hs : evalAll sh.host sh.cancellable f.statements none 0 (initial sh t) = (s, status))

section initial

include hs

/-- A run that was not cancelled when it began is not cancelled when it ends, if no command cancels
it. -/
theorem running_of_calm (hrunning : (sh.cancellable && sh.cancellation.fired) = false)
    (hcalm : sh.cancellable = true →
      ∀ name c, sh.registry.get? name = some c → ∀ args, (c.run sh.env args).Calm) :
    (sh.cancellable && s.cancellation.fired) = false := by
  cases hminds : sh.cancellable with
  | false => rfl
  | true =>
    have hkept := keeps_evalAll (Shell.calm_exec (hcalm hminds)) sh.cancellable f.statements none 0
      (initial sh t)
    rw [hs] at hkept
    rw [hkept, ← hminds]
    exact hrunning

/-- A buffer at the start of a run takes all that is written. -/
theorem capture_initial :
    (initial sh t).capture (evalAll sh.host sh.cancellable f.statements none 0) =
      ({ s with output := "" }, s.output, status) := by
  have hbuffer : evalAll sh.host sh.cancellable f.statements none 0
    { initial sh t with output := "" } = (s, status) := hs
  rw [State.capture, hbuffer]
  rfl

/-- A text fed at the start of a run is as good as one handed in. -/
theorem feed_initial :
    (initial sh "").feed t (evalAll sh.host sh.cancellable f.statements none 0) =
      ({ s with input := "" }, status) := by
  have hinput : evalAll sh.host sh.cancellable f.statements none 0
    { initial sh "" with input := t } = (s, status) := hs
  rw [State.feed, hinput]
  rfl

end initial

include hparse

/-- A script with a quoted word as the target of a redirection. -/
theorem exec_redirected (sh : Shell) {op : JoinOp} (hop : op.isRedirect = true) (word : String)
    (hline : line.toList = '(' :: (script.toList ++ '\n' :: ')' :: ' ' ::
      (op.sign ++ ' ' :: single.encode word.toList))) (input : String) :
    ∃ parts texts, List.Forall₂ Spells parts texts ∧ texts ≠ [] ∧
      String.ofList texts.flatten = word ∧
      sh.exec line input = outcome sh (eval sh.host sh.cancellable
        (.join op (grouped f.statements) (.seq (.command true) parts)) none
        (initial sh input)) := by
  obtain ⟨g, parts, texts, hg, hstatements, hspells, hne, htexts⟩ :=
    Forest.parse_grouped_quoted hparse hop word.toList hline
  refine ⟨parts, texts, hspells, hne, by rw [htexts, String.ofList_toList], ?_⟩
  exact exec_line (c := '(') sh hg hstatements (by rw [hline]; rfl) (by decide) input

include hs

theorem exec_alone (hblank : Text.isAllBlank script.toList = false) :
    sh.exec script t = outcome sh (s, status) := by
  rw [exec_of_parse sh hparse rfl hblank, run, hs]
  rfl

theorem exec_grouped : sh.exec ("(" ++ script ++ "\n)") t = outcome sh (s, status) := by
  obtain ⟨g, hg, hstatements⟩ := Forest.parse_grouped hparse
  rw [← hs]
  exact exec_line (c := '(') sh hg hstatements (by simp) (by decide) t

theorem exec_written (hname : name ≠ "") (hquote : '\'' ∉ name.toList)
    (hkey : FileName.normalize name ∉
      (statements sh.cancellable f.statements 0 .exit).footprint sh.host (sh.scene t)) :
    sh.exec ("(" ++ script ++ "\n) > '" ++ name ++ "'") t =
      outcome sh ({ s with output := "", store := s.store.write name s.output }, status) := by
  have hline : ("(" ++ script ++ "\n) > '" ++ name ++ "'").toList = '(' :: (script.toList ++
      '\n' :: ')' :: ' ' :: (JoinOp.write.sign ++ ' ' :: single.encode name.toList)) := by
    simp [JoinOp.sign, encode, betweenSingle_eq hquote]
  obtain ⟨parts, texts, hspells, hne, rfl, hexec⟩ := exec_redirected hparse sh rfl name hline t
  rw [hexec, eval_written hspells hne (by simpa using hname), State.divert,
    evalAll_away sh _ _ hkey, hs]
  rfl

theorem exec_readFrom (hname : name ≠ "") (hfile : (sh.file? name).getD "" = t) :
    sh.exec ("(" ++ script ++ "\n) < " ++ String.ofList (single.encode name.toList)) =
      outcome sh (s, status) := by
  have hline : ("(" ++ script ++ "\n) < " ++ String.ofList (single.encode name.toList)).toList =
      '(' :: (script.toList ++ '\n' :: ')' :: ' ' :: (JoinOp.read.sign ++
        ' ' :: single.encode name.toList)) := by
    simp [JoinOp.sign]
  obtain ⟨parts, texts, hspells, hne, rfl, hexec⟩ := exec_redirected hparse sh rfl name hline ""
  have hread : ((initial sh "").store.read? (String.ofList texts.flatten)).getD "" = t := hfile
  rw [hexec, eval_readFrom hspells hne (by simpa using hname), hread, feed_initial hs]
  rfl

theorem exec_readWord :
    sh.exec ("(" ++ script ++ "\n) <<< " ++ String.ofList (single.encode t.toList)) =
      outcome sh (s, status) := by
  have hline : ("(" ++ script ++ "\n) <<< " ++ String.ofList (single.encode t.toList)).toList =
      '(' :: (script.toList ++ '\n' :: ')' :: ' ' :: (JoinOp.readStr.sign ++
        ' ' :: single.encode t.toList)) := by
    simp [JoinOp.sign]
  obtain ⟨parts, texts, hspells, hne, htexts, hexec⟩ := exec_redirected hparse sh rfl t hline ""
  rw [hexec, eval_readWord hspells hne, htexts, feed_initial hs]
  rfl

section captured

variable (hrunning : (sh.cancellable && s.cancellation.fired) = false)

include hrunning

theorem exec_piped (hcat : sh.registry.get? "cat" = some .cat) :
    sh.exec ("(" ++ script ++ "\n) | cat") t = outcome sh (s, status) := by
  obtain ⟨g, hg, hstatements⟩ := Forest.parse_grouped_cat hparse
  rw [exec_line (c := '(') sh hg hstatements (by simp) (by decide),
    eval_piped sh (capture_initial hs) hrunning hcat]
  simp [outcome, State.write]

theorem exec_printf_captured (hprintf : sh.registry.get? "printf" = some .printf) :
    sh.exec ("printf %s \"$(" ++ script ++ "\n)\"") t =
      outcome sh ({ s with output := chomp s.output }, 0) := by
  obtain ⟨g, hg, hstatements⟩ := Forest.parse_printf_captured hparse
  rw [exec_line (c := 'p') sh hg hstatements (by simp) (by decide),
    eval_printf_captured sh (capture_initial hs) hrunning hprintf]
  simp [outcome, State.write]

end captured

theorem exec_printf_piped (hrunning : (sh.cancellable && sh.cancellation.fired) = false)
    (hprintf : sh.registry.get? "printf" = some .printf) :
    sh.exec ("printf %s " ++ String.ofList (single.encode t.toList) ++ " | (" ++ script ++ "\n)") =
      outcome sh (s, 0) := by
  obtain ⟨parts, hword, texts, hspells, htexts⟩ := readsWord_single false t.toList
  have hne := texts_ne_nil hword hspells
  obtain ⟨g, hg, hstatements⟩ : ∃ g, Forest.parse (Source.ofText
      ("printf %s " ++ String.ofList (single.encode t.toList) ++ " | (" ++ script ++ "\n)")) =
        .ok g ∧ _ :=
    Forest.parse_printf_grouped hparse hword (by simp [Forest.printfChars, JoinOp.sign])
  rw [exec_line (c := 'p') sh hg hstatements (by simp) (by decide),
    eval_printf_piped (s := initial sh "") sh hprintf hspells hne hrunning, htexts,
    String.ofList_toList, feed_initial hs]
  rfl

end lines

end Sequential

namespace Shell

open PocketShell.Tree PocketShell.Sequential

variable (sh : Shell)

/-! ## All ways to capture output -/

/-- What a script writes comes out the same in parentheses, behind a pipe, up to a line break in a
substitution, and in a file that the script has nothing to do with. The commands of the shell may be
any that do not pause; only where the shell minds its cancellation they must not cancel the run,
since then neither `cat` nor `printf` would be started. -/
theorem exec_captured (script : String) (f : Forest)
    (hrunning : (sh.cancellable && sh.cancellation.fired) = false)
    (hcalm : sh.cancellable = true →
      ∀ name c, sh.registry.get? name = some c → ∀ args, (c.run sh.env args).Calm)
    (hcat : sh.registry.get? "cat" = some .cat)
    (hprintf : sh.registry.get? "printf" = some .printf)
    (hparse : Forest.parse (Source.ofText script) = .ok f)
    (hblank : Text.isAllBlank script.toList = false) :
    ∃ sh' r, sh.exec script = (sh', some r) ∧
      sh.exec ("(" ++ script ++ "\n)") = (sh', some r) ∧
      sh.exec ("(" ++ script ++ "\n) | cat") = (sh', some r) ∧
      (∃ text, (r.stdout = text ++ "\n" ∨ r.stdout = text ∧ text.toList.getLast? ≠ some '\n') ∧
        sh.exec ("printf %s \"$(" ++ script ++ "\n)\"") =
          (sh', some { stdout := text, stderr := r.stderr, exitCode := 0 })) ∧
      ∀ name : String, name ≠ "" → '\'' ∉ name.toList →
        FileName.normalize name ∉
          (statements sh.cancellable f.statements 0 .exit).footprint sh.host (sh.scene "") →
        sh.exec ("(" ++ script ++ "\n) > '" ++ name ++ "'") =
          ({ sh' with store := sh'.store.write name r.stdout }, some { r with stdout := "" }) := by
  obtain ⟨⟨s, status⟩, hs⟩ : ∃ r,
    evalAll sh.host sh.cancellable f.statements none 0 (initial sh "") = r := ⟨_, rfl⟩
  have hrunning' := running_of_calm hs hrunning hcalm
  refine ⟨_, _, exec_alone hparse hs hblank, exec_grouped hparse hs,
    exec_piped hparse hs hrunning' hcat, ⟨chomp s.output, eq_chomp s.output, ?_⟩, ?_⟩
  · exact exec_printf_captured hparse hs hrunning' hprintf
  · intro name hname hquote hkey
    exact exec_written hparse hs hname hquote hkey

/-- A command that takes one character of its input, stores it and shows it. -/
def nibble : Command :=
  .custom "nibble"
    (fun _ _ => .read .char fun
      | .ok c => .save "last" c fun _ => .done { stdout := "<" ++ c ++ ">" }
      | .error cause => .done (Command.failure ("nibble: " ++ cause.message ++ "\n")))
    fun _ _ answer => by cases answer <;> trivial

/-- A shell that has this command besides the built-in ones, and minds its cancellation. -/
def nibbler : Shell := { ({} : Shell).register nibble with cancellable := true }

theorem calm_nibbler (name : String) (c : Command) (h : nibbler.registry.get? name = some c)
    (args : List String) : (c.run nibbler.env args).Calm := by
  rcases Registry.get?_register h with rfl | hbuiltin
  · intro answer
    cases answer <;> trivial
  · exact Command.calm_run (Registry.isCustom_of_builtin hbuiltin) _ args

/-- A script that reads its input in two parts, stores a file and writes more than a line. -/
def nibbleScript : String := "echo ab | (nibble; cat); echo c"

theorem exec_captured_nibbleScript :
    ∃ sh', nibbler.exec nibbleScript = (sh', some { stdout := "<a>b\nc\n" }) ∧
      sh'.file? "last" = some "a" ∧
      nibbler.exec ("(" ++ nibbleScript ++ "\n) | cat") =
        (sh', some { stdout := "<a>b\nc\n" }) ∧
      nibbler.exec ("printf %s \"$(" ++ nibbleScript ++ "\n)\"") =
        (sh', some { stdout := "<a>b\nc" }) ∧
      nibbler.exec ("(" ++ nibbleScript ++ "\n) > '" ++ "f" ++ "'") =
        ({ sh' with store := sh'.store.write "f" "<a>b\nc\n" }, some {}) := by
  have hfootprint : ((Forest.parse (Source.ofText nibbleScript)).toOption.map fun f =>
      decide (FileName.normalize "f" ∉ (statements nibbler.cancellable f.statements 0
        .exit).footprint nibbler.host (nibbler.scene ""))) = some true := by
    decide +kernel
  obtain ⟨f, hf, hkey⟩ := Option.map_eq_some_iff.1 hfootprint
  obtain ⟨hresult, hlast⟩ : (nibbler.exec nibbleScript).2 = some { stdout := "<a>b\nc\n" } ∧
      (nibbler.exec nibbleScript).1.file? "last" = some "a" := by
    decide +kernel
  obtain ⟨sh', r, hexec, -, hpiped, ⟨text, htext, hprinted⟩, hfile⟩ := exec_captured nibbler
    nibbleScript f (by decide) (fun _ => calm_nibbler) rfl rfl (parse_of_toOption hf)
    (by decide +kernel)
  rw [hexec] at hresult hlast
  obtain rfl := Option.some.inj hresult
  obtain rfl : text = "<a>b\nc" := by
    rcases htext with hbreak | ⟨rfl, hend⟩
    · have hlines : "<a>b\nc" ++ "\n" = text ++ "\n" := hbreak
      exact ((String.append_left_inj _).1 hlines).symm
    · exact absurd (by decide) hend
  exact ⟨sh', hexec, hlast, hpiped, hprinted, hfile "f" (by decide) (by decide)
    (of_decide_eq_true hkey)⟩

/-! ## All ways to supply input -/

/-- A script does the same with a text handed in, in a file, as a word and from a pipe, however much
of it is read and by how many commands. -/
theorem exec_supplied (script t name : String) (f : Forest)
    (hrunning : (sh.cancellable && sh.cancellation.fired) = false)
    (hprintf : sh.registry.get? "printf" = some .printf)
    (hparse : Forest.parse (Source.ofText script) = .ok f)
    (hblank : Text.isAllBlank script.toList = false) (hname : name ≠ "") :
    ∃ sh' r, sh.exec script t = (sh', some r) ∧
      ((sh.file? name = some t ∨ t = "" ∧ sh.file? name = none) →
        sh.exec ("(" ++ script ++ "\n) < " ++
          String.ofList (Quoting.single.encode name.toList)) = (sh', some r)) ∧
      sh.exec ("(" ++ script ++ "\n) <<< " ++ String.ofList (Quoting.single.encode t.toList)) =
        (sh', some r) ∧
      sh.exec ("printf %s " ++ String.ofList (Quoting.single.encode t.toList) ++
        " | (" ++ script ++ "\n)") = (sh', some { r with exitCode := 0 }) := by
  obtain ⟨⟨s, status⟩, hs⟩ : ∃ r,
    evalAll sh.host sh.cancellable f.statements none 0 (initial sh t) = r := ⟨_, rfl⟩
  refine ⟨_, _, exec_alone hparse hs hblank, fun hfile => exec_readFrom hparse hs hname ?_,
    exec_readWord hparse hs, exec_printf_piped hparse hs hrunning hprintf⟩
  obtain hsome | ⟨rfl, hnone⟩ := hfile
  · rw [hsome, Option.getD_some]
  · rw [hnone, Option.getD_none]

/-- A script that reads a character, rewrites the file that it may read from, reads another one and
then the rest. -/
def rewriteScript : String := "nibble; echo b > f; nibble; cat; false"

theorem exec_supplied_rewriteScript :
    ∃ sh', (nibbler.writeFile "f" "it's").exec rewriteScript "it's" =
        (sh', some { stdout := "<i><t>'s", exitCode := 1 }) ∧
      sh'.file? "f" = some "b\n" ∧
      (nibbler.writeFile "f" "it's").exec ("(" ++ rewriteScript ++ "\n) < " ++
        String.ofList (Quoting.single.encode "f".toList)) =
          (sh', some { stdout := "<i><t>'s", exitCode := 1 }) ∧
      (nibbler.writeFile "f" "it's").exec ("(" ++ rewriteScript ++ "\n) <<< " ++
        String.ofList (Quoting.single.encode "it's".toList)) =
          (sh', some { stdout := "<i><t>'s", exitCode := 1 }) ∧
      (nibbler.writeFile "f" "it's").exec ("printf %s " ++
        String.ofList (Quoting.single.encode "it's".toList) ++ " | (" ++ rewriteScript ++ "\n)") =
          (sh', some { stdout := "<i><t>'s" }) := by
  obtain ⟨f, hf⟩ : ∃ f, (Forest.parse (Source.ofText rewriteScript)).toOption = some f :=
    Option.isSome_iff_exists.1 (by decide +kernel)
  obtain ⟨hresult, hrewritten⟩ : ((nibbler.writeFile "f" "it's").exec rewriteScript "it's").2 =
        some { stdout := "<i><t>'s", exitCode := 1 } ∧
      ((nibbler.writeFile "f" "it's").exec rewriteScript "it's").1.file? "f" = some "b\n" := by
    decide +kernel
  obtain ⟨sh', r, hexec, hfile, hword, hpiped⟩ := exec_supplied (nibbler.writeFile "f" "it's")
    rewriteScript "it's" "f" f (by decide) rfl (parse_of_toOption hf) (by decide +kernel)
    (by decide)
  rw [hexec] at hresult hrewritten
  obtain rfl := Option.some.inj hresult
  exact ⟨sh', hexec, hrewritten, hfile (.inl (by decide +kernel)), hword, hpiped⟩

end Shell

end PocketShell
