import PocketShell.Proofs.Lexing.MaximalMunch
import PocketShell.Proofs.Sequential.Refinement

/-!
# Scripts of blanks

A shell does not read a script that holds blanks only. To the script itself, spaces, tabs and line
breaks are gaps between words, and any other blank is a character of a word.

* `isWordChar_eq_false_iff_of_isBlank` : what the blanks are to a script;
* `Cursor.OfBlanks` : what a cursor has made of blanks, commands whose words are blank
  (`Parses.ofBlanks`), and none where all blanks are gaps;
* `Words.split_blank` : the first word of such a command is blank;
* `Sequential.evalAll_blank` : where no command has a blank name, such commands do nothing but
  complain.

`Shell.exec_blank_shortcut` says for which scripts it makes a difference that they are not read.
-/

namespace PocketShell

/-! ## Blanks in a script -/

/-- A blank that is neither a gap nor a line break is a character of a word. -/
theorem isWordChar_eq_false_iff_of_isBlank {c : Char} (h : Text.isBlank c = true) :
    isWordChar c = false ↔ isGap c = true ∨ c = '\n' := by
  constructor
  · intro hword
    cases hstart : TokenKind.ofStart? c with
    | none =>
      cases hgap : isGap c with
      | true => exact .inl rfl
      | false =>
        rw [isWordChar_iff.2 ⟨hgap, hstart⟩] at hword
        cases hword
    | some kind =>
      -- of all characters with which operators begin, only the line break is blank
      unfold TokenKind.ofStart? at hstart
      split at hstart
      case h_10 => exact .inr rfl
      case h_15 => cases hstart
      all_goals exact absurd h (by decide)
  · rintro (hgap | rfl)
    · simp [isWordChar, hgap]
    · rfl

theorem backslash_not_mem_of_isAllBlank {cs : List Char} (h : Text.isAllBlank cs = true) :
    '\\' ∉ cs := by
  intro hmem
  exact absurd (List.all_eq_true.1 h _ hmem) (by decide)

/-- A token of blanks. -/
inductive BlankToken (token : Token) : Prop where
  | gap (hkind : token.kind = .whitespace) (hall : ∀ c ∈ token.value.toList, isWordChar c = false)
  | newline (hkind : token.kind = .newline) (hall : ∀ c ∈ token.value.toList, isWordChar c = false)
  | word (hkind : token.kind = .identifier) (hblank : Text.isAllBlank token.value.toList = true)
    (hword : ∃ c ∈ token.value.toList, isWordChar c = true)

namespace Tape

variable {p : Position} {cs : List Char} {t : Tape} {token : Token}

theorem blankToken_of_token (hblank : Text.isAllBlank cs = true)
    (h : tokenFrom p cs = .ok (token, t)) :
    cs = token.value.toList ++ t.chars ∧ Text.isAllBlank t.chars = true ∧ BlankToken token := by
  have hescape := backslash_not_mem_of_isAllBlank hblank
  obtain ⟨hsplit, hmunches⟩ := munches_token hescape h
  rw [hsplit, Text.isAllBlank, List.all_append, Bool.and_eq_true] at hblank
  rw [hsplit, List.mem_append, not_or] at hescape
  refine ⟨hsplit, hblank.2, ?_⟩
  generalize hkind : token.kind = kind at hmunches
  generalize hvalue : token.value.toList = value at *
  cases hmunches with
  | gap _ hall _ =>
    refine .gap hkind fun c hc => ?_
    have hgap := List.all_eq_true.1 hall c (hvalue ▸ hc)
    simp [isWordChar, hgap]
  | word hne hall _ =>
    refine .word hkind (hvalue ▸ hblank.1) ?_
    obtain ⟨c, rest, rfl⟩ := List.exists_cons_of_ne_nil hne
    rw [List.all_cons, Bool.and_eq_true] at hall
    have hc : c ≠ '\\' := fun heq => hescape.1 (heq ▸ List.mem_cons_self)
    rw [isPlainChar_eq hc] at hall
    exact ⟨c, hvalue ▸ List.mem_cons_self, hall.1⟩
  | operator hmem _ =>
    have hall : ∀ op ∈ operators, op.1.all Text.isBlank = true → op = (['\n'], .newline) := by
      decide
    obtain ⟨rfl, rfl⟩ := Prod.mk.inj (hall _ hmem hblank.1)
    refine .newline hkind fun c hc => ?_
    obtain rfl := List.mem_singleton.1 (hvalue ▸ hc)
    rfl

end Tape

/-! ## Commands of blank words -/

/-- A part of a command that is a blank word, or a gap. -/
inductive BlankPart : Tree → Prop where
  | word {text : String} (h : Text.isAllBlank text.toList = true) : BlankPart (.leaf (.ident text))
  | gap (text : String) : BlankPart (.leaf (.whitespace text))

/-- A command of blank words, with its parts in order. -/
inductive BlankCommand : List Tree → Prop where
  | intro {text : String} {parts : List Tree} (h : Text.isAllBlank text.toList = true)
    (hparts : ∀ part ∈ parts, BlankPart part) : BlankCommand (.leaf (.ident text) :: parts)

/-- A statement that is such a command. -/
def BlankStatement (t : Tree) : Prop :=
  ∃ parts, t = .seq (.command false) parts ∧ BlankCommand parts

theorem BlankCommand.concat {parts : List Tree} {part : Tree} (h : BlankCommand parts)
    (hpart : BlankPart part) : BlankCommand (parts ++ [part]) := by
  cases h with
  | intro htext hparts =>
    refine .intro htext fun other hother => ?_
    rcases List.mem_append.1 hother with hother | hother
    · exact hparts other hother
    · exact List.mem_singleton.1 hother ▸ hpart

namespace Cursor

variable {c c' : Cursor} {t : Tape} {token : Token} {r : Except SyntaxError Cursor}

/-- What has become of blanks: statements, and maybe one more that goes on. -/
inductive OfBlanks : Cursor → Prop where
  | between {older : List Tree} (holder : ∀ t ∈ older, BlankStatement t) :
    OfBlanks ⟨.seq .script older, []⟩
  | inside {parts older : List Tree} (hparts : BlankCommand parts.reverse)
    (holder : ∀ t ∈ older, BlankStatement t) :
    OfBlanks ⟨.seq (.command false) parts, [.seq .script older]⟩

namespace OfBlanks

theorem isComplete (h : OfBlanks c) : c.isComplete = true := by
  cases h <;> rfl

theorem nextToken_eq (h : OfBlanks c) (t : Tape) :
    c.nextToken t = Tape.tokenFrom t.position t.chars := by
  cases h <;> rfl

theorem statements (h : OfBlanks c) : ∀ t ∈ c.statements, BlankStatement t := by
  cases h with
  | between holder =>
    intro t ht
    exact holder t (List.mem_reverse.1 ht)
  | inside hparts holder =>
    intro t ht
    rcases List.mem_cons.1 (List.mem_reverse.1 ht) with rfl | ht
    · exact ⟨_, rfl, hparts⟩
    · exact holder t ht

theorem statements_inside (parts older : List Tree) :
    Cursor.statements ⟨.seq (.command false) parts, [.seq .script older]⟩ ≠ [] := by
  simp [Cursor.statements, tree, plug, Crumb.fill, Focus.tree]

theorem statements_between (older : List Tree) :
    Cursor.statements ⟨.seq .script older, []⟩ = older.reverse := rfl

/-- A token of blanks leads on. It makes a statement if it is a word. -/
theorem feed (h : OfBlanks c) (htoken : BlankToken token) :
    ∃ c', c.feed token = .ok c' ∧ OfBlanks c' ∧
      (c'.statements = [] ↔
        c.statements = [] ∧ ∀ ch ∈ token.value.toList, isWordChar ch = false) := by
  cases h with
  | @between older holder =>
    have hfeed : Cursor.feed ⟨.seq .script older, []⟩ token = feedList .script older [] token := rfl
    rw [hfeed]
    cases htoken with
    | gap hkind hall
    | newline hkind hall =>
      refine ⟨⟨.seq .script older, []⟩, by simp [feedList, hkind], .between holder, ?_⟩
      exact ⟨fun hnil => ⟨hnil, hall⟩, And.left⟩
    | word hkind hblank hword =>
      obtain ⟨ch, hch, hword⟩ := hword
      refine ⟨⟨.seq (.command false) [.leaf (.ident token.value)], [.seq .script older]⟩, ?_,
        .inside (.intro hblank (by simp)) holder, ?_⟩
      · simp [feedList, feedCommand, hkind]
      · refine ⟨fun hnil => absurd hnil (statements_inside _ _), fun hnone => ?_⟩
        rw [hnone.2 ch hch] at hword
        cases hword
  | @inside parts older hparts holder =>
    have hfeed : Cursor.feed ⟨.seq (.command false) parts, [.seq .script older]⟩ token =
        feedCommand false parts [.seq .script older] token := rfl
    rw [hfeed]
    have hiff {c' : Cursor} (hc' : c'.statements ≠ []) : c'.statements = [] ↔
        Cursor.statements ⟨.seq (.command false) parts, [.seq .script older]⟩ = [] ∧
          ∀ ch ∈ token.value.toList, isWordChar ch = false :=
      ⟨fun hnil => absurd hnil hc', fun hnil => absurd hnil.1 (statements_inside _ _)⟩
    have hgrows {part : Tree} (hpart : BlankPart part) :
        OfBlanks ⟨.seq (.command false) (part :: parts), [.seq .script older]⟩ := by
      refine .inside ?_ holder
      rw [List.reverse_cons]
      exact hparts.concat hpart
    cases htoken with
    | gap hkind hall =>
      cases hends : endsInWord parts with
      | true =>
        refine ⟨⟨.seq (.command false) (.leaf (.whitespace token.value) :: parts),
          [.seq .script older]⟩, ?_, hgrows (.gap _), hiff (statements_inside _ _)⟩
        simp [feedCommand, hkind, hends]
      | false =>
        refine ⟨⟨.seq (.command false) parts, [.seq .script older]⟩, ?_, .inside hparts holder,
          hiff (statements_inside _ _)⟩
        simp [feedCommand, hkind, hends]
    | newline hkind hall =>
      refine ⟨⟨.seq .script (.seq (.command false) parts.reverse :: older), []⟩, ?_,
        .between (List.forall_mem_cons.2 ⟨⟨_, rfl, hparts⟩, holder⟩), hiff ?_⟩
      · simp [feedCommand, hkind, isOperand, endStatement, ascend, statementList]
      · simp [statements_between]
    | word hkind hblank _ =>
      refine ⟨⟨.seq (.command false) (.leaf (.ident token.value) :: parts),
        [.seq .script older]⟩, ?_, hgrows (.word hblank), hiff (statements_inside _ _)⟩
      simp [feedCommand, hkind]

end OfBlanks

/-- Blanks are read to their end. They make statements if not all of them are gaps. -/
theorem Parses.ofBlanks (h : c.Parses t r) (hc : OfBlanks c)
    (hblank : Text.isAllBlank t.chars = true) :
    ∃ c', r = .ok c' ∧ OfBlanks c' ∧
      (c'.statements = [] ↔ c.statements = [] ∧ ∀ ch ∈ t.chars, isWordChar ch = false) := by
  induction h with
  | @step c next t t' token r hnext hfeed _ ih =>
    rw [hc.nextToken_eq] at hnext
    obtain ⟨hsplit, hrest, htoken⟩ := Tape.blankToken_of_token hblank hnext
    obtain ⟨next', hfeed', hnext', hnone⟩ := hc.feed htoken
    obtain rfl := Except.ok.inj (hfeed.symm.trans hfeed')
    obtain ⟨c', hr, hc', hnone'⟩ := ih hnext' hrest
    refine ⟨c', hr, hc', ?_⟩
    rw [hnone', hnone, hsplit, List.forall_mem_append, and_assoc]
  | @refused c t t' token cause hnext hfeed =>
    rw [hc.nextToken_eq] at hnext
    obtain ⟨-, -, htoken⟩ := Tape.blankToken_of_token hblank hnext
    obtain ⟨next', hfeed', -⟩ := hc.feed htoken
    cases hfeed.symm.trans hfeed'
  | @ended c t hnext _ =>
    rw [hc.nextToken_eq] at hnext
    have hescape := backslash_not_mem_of_isAllBlank hblank
    obtain ⟨-, hchars⟩ := Tape.token_error_of_not_mem hescape hnext
    exact ⟨c, rfl, hc, by simp [hchars]⟩
  | cutShort _ hcut =>
    rw [hc.isComplete] at hcut
    cases hcut
  | unclosed hnext =>
    rw [hc.nextToken_eq] at hnext
    have hescape := backslash_not_mem_of_isAllBlank hblank
    cases (Tape.token_error_of_not_mem hescape hnext).1

end Cursor

/-- A script of blanks is read as commands of blank words, and as none if all blanks are gaps. -/
theorem Forest.parse_blanks {text : String} (hblank : Text.isAllBlank text.toList = true) :
    ∃ f, parse (Source.ofText text) = .ok f ∧ (∀ t ∈ f.statements, BlankStatement t) ∧
      (f.statements = [] ↔ ∀ c ∈ text.toList, isWordChar c = false) := by
  obtain ⟨r, hr⟩ := Cursor.parses_total Cursor.start ⟨{}, text.toList⟩
  obtain ⟨c, rfl, hc, hnone⟩ := hr.ofBlanks (.between (by simp)) hblank
  obtain ⟨-, f, hf, hstatements⟩ := parse_of_parses hr
  rw [← hstatements] at hnone
  refine ⟨f, hf, hstatements ▸ hc.statements, hnone.trans ?_⟩
  exact ⟨And.right, fun hall => ⟨rfl, hall⟩⟩

/-! ## The words of such commands -/

/-- A segment that is a blank text as it stands, or a gap. -/
inductive BlankSegment : Segment → Prop where
  | literal {text : String} (h : Text.isAllBlank text.toList = true) : BlankSegment (.literal text)
  | gap : BlankSegment .gap

namespace Words

/-- All words so far are blank, and there is one. -/
structure Blank (w : Words) : Prop where
  finished : ∀ word ∈ w.finished, Text.isAllBlank word.toList = true
  current : ∀ word ∈ w.current, Text.isAllBlank word.toList = true
  nonempty : w.finished ≠ [] ∨ w.current.isSome = true

theorem Blank.flush {w : Words} (h : w.Blank) : w.flush.Blank ∧ w.flush.finished ≠ [] := by
  unfold Words.flush
  split
  · rename_i word hword
    refine ⟨⟨?_, by simp, .inl (by simp)⟩, by simp⟩
    exact List.forall_mem_cons.2 ⟨h.current word hword, h.finished⟩
  · rename_i hnone
    refine ⟨h, h.nonempty.resolve_right ?_⟩
    simp [hnone]

theorem Blank.addText {w : Words} (h : w.Blank) {text : String}
    (htext : Text.isAllBlank text.toList = true) : (w.addText text).Blank := by
  refine ⟨h.finished, fun word hword => Option.some.inj hword ▸ ?_, .inr rfl⟩
  cases hcurrent : w.current with
  | none => simpa using htext
  | some current =>
    have hblank := h.current current hcurrent
    unfold Text.isAllBlank at hblank htext ⊢
    simp [hblank, htext]

theorem Blank.splitSegment {w : Words} (h : w.Blank) {segment : Segment}
    (hsegment : BlankSegment segment) : (w.splitSegment segment).Blank := by
  cases hsegment with
  | literal htext => exact h.addText htext
  | gap => exact h.flush.1

/-- Blank texts make blank words. -/
theorem split_blank {text : String} {segments : List Segment}
    (htext : Text.isAllBlank text.toList = true)
    (hall : ∀ segment ∈ segments, BlankSegment segment) :
    ∃ name args, split (.literal text :: segments) = name :: args ∧
      Text.isAllBlank name.toList = true := by
  have hfirst : (Words.addText {} text).Blank :=
    ⟨fun _ hword => absurd hword List.not_mem_nil,
      fun _ hword => Option.some.inj hword ▸ by simpa using htext, .inr rfl⟩
  have hblank : (segments.foldl Words.splitSegment (Words.addText {} text)).Blank := by
    generalize Words.addText {} text = w at hfirst ⊢
    induction segments generalizing w with
    | nil => exact hfirst
    | cons segment segments ih =>
      obtain ⟨hsegment, hall⟩ := List.forall_mem_cons.1 hall
      exact ih hall _ (hfirst.splitSegment hsegment)
  obtain ⟨hflush, hne⟩ := hblank.flush
  obtain ⟨name, args, hwords⟩ := List.exists_cons_of_ne_nil (mt List.reverse_eq_nil_iff.1 hne)
  refine ⟨name, args, hwords, hflush.finished name (List.mem_reverse.1 ?_)⟩
  rw [hwords]
  exact List.mem_cons_self

end Words

/-! ## What such commands do -/

/-- No command of the registry has a blank name. -/
def Registry.NoBlankName (r : Registry) : Prop :=
  ∀ entry ∈ r.entries, Text.isAllBlank entry.1.toList = false

instance (r : Registry) : Decidable r.NoBlankName :=
  inferInstanceAs (Decidable (∀ entry ∈ r.entries, Text.isAllBlank entry.1.toList = false))

theorem Registry.NoBlankName.get?_eq_none {r : Registry} (h : r.NoBlankName) {name : String}
    (hname : Text.isAllBlank name.toList = true) : r.get? name = none := by
  rw [Bindings.get?, List.lookup_eq_none_iff]
  intro entry hentry
  rw [bne_iff_ne]
  rintro rfl
  rw [h entry hentry] at hname
  cases hname

namespace Sequential

variable {sh : Shell} {parts : List Tree} (cancellable : Bool) (dest : Option String) (s : State)

theorem segments_blank (host : Host) (h : ∀ part ∈ parts, BlankPart part) :
    ∃ found, segments host cancellable parts s = (s, found, none) ∧
      ∀ segment ∈ found, BlankSegment segment := by
  induction parts with
  | nil => exact ⟨[], rfl, by simp⟩
  | cons part parts ih =>
    obtain ⟨hpart, hparts⟩ := List.forall_mem_cons.1 h
    obtain ⟨found, hfound, hall⟩ := ih hparts
    cases hpart with
    | word htext =>
      exact ⟨_, by rw [segments, hfound], List.forall_mem_cons.2 ⟨.literal htext, hall⟩⟩
    | gap text => exact ⟨_, by rw [segments, hfound], List.forall_mem_cons.2 ⟨.gap, hall⟩⟩

theorem evalGroup?_blank (host : Host) (h : ∀ part ∈ parts, BlankPart part) :
    evalGroup? host cancellable parts dest s = none := by
  induction parts with
  | nil => rfl
  | cons part parts ih =>
    obtain ⟨hpart, hparts⟩ := List.forall_mem_cons.1 h
    cases hpart <;> exact ih hparts

/-- The status of a command that cannot be found. -/
def unknownStatus : Int :=
  if cancellable && s.cancellation.fired then cancelledStatus else Shell.commandNotFound

theorem launch_unknown {name : String} (hname : sh.registry.get? name = none) (args : List String) :
    ∃ errors, launch sh.host cancellable dest (name :: args) s =
      ({ s with errors := errors }, unknownStatus cancellable s) := by
  unfold launch unknownStatus
  split
  · exact ⟨s.errors, rfl⟩
  · refine ⟨s.errors ++ ("bashlet: " ++ name ++ ": command not found\n"), ?_⟩
    have hexec : sh.host.exec (name :: args) = sh.execute name args := rfl
    rw [hexec, Shell.execute, hname]
    rfl

/-- A command of blank words is looked for in vain. -/
theorem eval_blank (hsh : sh.registry.NoBlankName) {t : Tree} (ht : BlankStatement t) :
    ∃ errors, eval sh.host cancellable t dest s =
      ({ s with errors := errors }, unknownStatus cancellable s) := by
  obtain ⟨_, rfl, @⟨text, parts, htext, hparts⟩⟩ := ht
  have hgroup := evalGroup?_blank cancellable dest s sh.host
    (List.forall_mem_cons.2 ⟨.word htext, hparts⟩)
  obtain ⟨found, hfound, hsegments⟩ := segments_blank cancellable s sh.host hparts
  obtain ⟨name, args, hsplit, hname⟩ := Words.split_blank htext hsegments
  obtain ⟨errors, hlaunch⟩ := launch_unknown cancellable dest s (hsh.get?_eq_none hname) args
  refine ⟨errors, ?_⟩
  simp only [eval, hgroup, segments, hfound, hsplit, hlaunch]

/-- Commands of blank words do nothing but complain. -/
theorem evalAll_blank (hsh : sh.registry.NoBlankName) {ts : List Tree}
    (hts : ∀ t ∈ ts, BlankStatement t) (status : Int) :
    ∃ errors, evalAll sh.host cancellable ts dest status s =
      ({ s with errors := errors }, if ts = [] then status else unknownStatus cancellable s) := by
  induction ts generalizing status s with
  | nil => exact ⟨s.errors, rfl⟩
  | cons t ts ih =>
    obtain ⟨ht, hts⟩ := List.forall_mem_cons.1 hts
    obtain ⟨first, heval⟩ := eval_blank cancellable dest s hsh ht
    obtain ⟨errors, hrest⟩ := ih { s with errors := first } hts (unknownStatus cancellable s)
    refine ⟨errors, ?_⟩
    rw [evalAll, heval]
    simp only [hrest, reduceCtorEq, if_false]
    split <;> rfl

/-- A shell without blank names runs such commands in vain. -/
theorem run_blank (hsh : sh.registry.NoBlankName) {ts : List Tree}
    (hts : ∀ t ∈ ts, BlankStatement t) (hne : ts ≠ []) (input : String) :
    ∃ errors, sh.run ts input =
      (sh, some {
        stderr := errors
        exitCode := unknownStatus sh.cancellable (initial sh input) }) := by
  obtain ⟨errors, hall⟩ := evalAll_blank sh.cancellable none (initial sh input) hsh hts 0
  refine ⟨errors, ?_⟩
  rw [(run_eq sh ts input).1, run, hall, if_neg hne]
  rfl

end Sequential

namespace Shell

variable (sh : Shell) (script input : String)

theorem run_nil : sh.run [] input = (sh, some {}) := by
  rw [(Sequential.run_eq sh [] input).1]
  rfl

theorem exec_of_isAllBlank {script : String} (h : Text.isAllBlank script.toList = true) :
    sh.exec script input = (sh, some {}) := by
  rw [exec, if_pos h]

theorem interpret_of_parse {script : String} {f : Forest}
    (h : Forest.parse (Source.ofText script) = .ok f) :
    sh.interpret script input = sh.run f.statements input := by
  rw [interpret, h]

/-- Not to read a script of blanks gives the answer that reading it gives if the script holds no
blanks but spaces, tabs and line breaks. Any other blank is a character of a command, and a shell
without such a command would not have found it. -/
theorem exec_blank_shortcut :
    ((Text.isAllBlank script.toList = false ∨ ∀ c ∈ script.toList, isGap c = true ∨ c = '\n') →
      sh.exec script input = sh.interpret script input) ∧
    (Text.isAllBlank script.toList = true → (∃ c ∈ script.toList, ¬ (isGap c = true ∨ c = '\n')) →
      sh.exec script input = (sh, some {}) ∧
      (sh.registry.NoBlankName → ∃ errors, sh.interpret script input =
        (sh, some {
          stderr := errors
          exitCode := if sh.cancellable && sh.cancellation.fired then cancelledStatus
            else commandNotFound }))) := by
  have hread (h : Text.isAllBlank script.toList = false) :
      sh.exec script input = sh.interpret script input := by
    rw [exec, h, if_neg Bool.false_ne_true]
  have hwords (h : Text.isAllBlank script.toList = true) :
      (∀ c ∈ script.toList, isWordChar c = false) ↔
        ∀ c ∈ script.toList, isGap c = true ∨ c = '\n' :=
    forall₂_congr fun c hc => isWordChar_eq_false_iff_of_isBlank (List.all_eq_true.1 h c hc)
  constructor
  · intro h
    cases hblank : Text.isAllBlank script.toList with
    | false => exact hread hblank
    | true =>
      obtain ⟨f, hf, -, hnone⟩ := Forest.parse_blanks hblank
      have hgaps := h.resolve_left (by simp [hblank])
      rw [sh.exec_of_isAllBlank input hblank, sh.interpret_of_parse input hf,
        hnone.2 ((hwords hblank).2 hgaps), run_nil]
  · rintro hblank ⟨c, hc, hword⟩
    refine ⟨sh.exec_of_isAllBlank input hblank, fun hsh => ?_⟩
    obtain ⟨f, hf, hall, hnone⟩ := Forest.parse_blanks hblank
    rw [sh.interpret_of_parse input hf]
    exact Sequential.run_blank hsh hall
      (fun hnil => hword ((hwords hblank).1 (hnone.1 hnil) c hc)) input

/-- A line that ends with a carriage return, and holds nothing else, is passed over. -/
theorem exec_blank_shortcut_carriageReturn :
    Text.isAllBlank "\r\n".toList = true ∧ (∃ c ∈ "\r\n".toList, ¬ (isGap c = true ∨ c = '\n')) ∧
      Registry.builtin.NoBlankName ∧
      ∃ errors, ({} : Shell).interpret "\r\n" "" =
        ({}, some { stderr := errors, exitCode := commandNotFound }) := by
  have hblank : Text.isAllBlank "\r\n".toList = true := by decide +kernel
  have hword : ∃ c ∈ "\r\n".toList, ¬ (isGap c = true ∨ c = '\n') :=
    ⟨'\r', by decide, by decide⟩
  have hnames : Registry.builtin.NoBlankName := by decide +kernel
  exact ⟨hblank, hword, hnames, ((exec_blank_shortcut {} "\r\n" "").2 hblank hword).2 hnames⟩

/-- The shell does not look for the command that such a line names. -/
theorem exec_carriageReturn_ne_interpret :
    ¬ ∀ (sh : Shell) (script input : String), sh.exec script input = sh.interpret script input := by
  intro h
  have hexec : (({} : Shell).exec "\r\n").2 = some {} := by decide +kernel
  have hinterpret : (({} : Shell).interpret "\r\n" "").2 =
      some { stderr := "bashlet: \r: command not found\n", exitCode := 127 } := by decide +kernel
  have hsame := congrArg Prod.snd (h {} "\r\n" "")
  rw [hexec, hinterpret] at hsame
  exact absurd hsame (by decide)

end Shell

end PocketShell
