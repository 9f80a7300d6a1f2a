import PocketShell.Proofs.Lexing.Endings
import PocketShell.Proofs.Script.Integrity
import PocketShell.Proofs.Script.Reading

/-!
# What parsing comes to

Every text is parsed to a script or to a fault with a position, and the cursor says to which.

* `Cursor.isComplete` : whether a script may end with this cursor (`Forest.checkComplete_eq`);
* `Cursor.Parses` : what a cursor makes of the rest of a text, a cursor or a syntax error;
* `Cursor.parses_total` : it makes something of every text;
* `Forest.parse_of_parses` : and that is what `Forest.parse` answers.
-/

namespace PocketShell

/-! ## The end of a script -/

namespace Cursor

/-- Whether a node is a command that an operator waits for. -/
def awaitsWords : Focus → List Crumb → Bool
  | .seq (.command _) parts, path => isOperand path && !hasWords parts
  | _, _ => false

/-- Whether an operator waits for words at the end of a script. Comments are none. -/
def isCut : Cursor → Bool
  | ⟨.leaf .comment, .seq kind older :: path⟩ => awaitsWords (.seq kind older) path
  | ⟨focus, path⟩ => awaitsWords focus path

theorem isCut_of_ne {focus : Focus} {path : List Crumb} (h : focus ≠ .leaf .comment) :
    isCut ⟨focus, path⟩ = awaitsWords focus path := by
  unfold isCut
  split
  · exact absurd (congrArg Cursor.focus ‹_›) h
  · rename_i heq
    cases heq
    rfl

theorem awaitsWords_comment (kind : Sequence) (older : List Tree) (path : List Crumb) :
    awaitsWords (.seq kind (.leaf .comment :: older)) path =
      awaitsWords (.seq kind older) path := by
  cases kind <;> rfl

/-- Whether a script may end here: nothing is open, and no operator waits for its right side. -/
def isComplete (c : Cursor) : Bool :=
  !(c.focus.label :: c.path.map Crumb.label).any Tree.Label.isOpen && !c.isCut

end Cursor

namespace Forest

variable {f : Forest} {strays : List NodeId} {context command : NodeId} {c : Cursor}

/-- Whether a node is a command that an operator waits for. -/
def awaitsWords (f : Forest) (id : NodeId) : Bool :=
  match f.shape id with
  | .seq (.command _) _ => f.isOperand id && !f.hasWords id
  | _ => false

theorem awaitsWords_of_command {target : Bool} {body : List NodeId}
    (h : f.shape command = .seq (.command target) body) :
    f.awaitsWords command = (f.isOperand command && !f.hasWords command) := by
  simp only [awaitsWords, h]

theorem awaitsWords_of_ne (h : ∀ target body, f.shape command ≠ .seq (.command target) body) :
    f.awaitsWords command = false := by
  unfold awaitsWords
  split
  · rename_i hshape
    exact absurd hshape (h _ _)
  · rfl

theorem checkComplete_of_open (hopen : (context :: f.ancestors context).any f.opensAt = true) :
    f.checkComplete context = .error .unexpectedEnd := by
  unfold checkComplete
  dsimp only
  split
  · rfl
  · rename_i h
    exact absurd hopen h

/-- The command that has to be complete is the context, or what a comment stands in. -/
theorem checkComplete_of_closed (hopen : (context :: f.ancestors context).any f.opensAt = false)
    (hcommand : f.isComment context = false ∧ context = command ∨
      f.isComment context = true ∧ f.parent? context = some command) :
    f.checkComplete context =
      if f.awaitsWords command = true then .error .unexpectedEnd else .ok () := by
  unfold checkComplete
  dsimp only
  split
  · rename_i h
    exact absurd (h.symm.trans hopen) (by simp)
  · obtain ⟨hcomment, rfl⟩ | ⟨hcomment, hparent⟩ := hcommand
    · simp only [hcomment, Bool.false_eq_true, if_false, pure_bind]
      split
      · rename_i hshape
        rw [awaitsWords_of_command hshape]
        rfl
      · rename_i hshape
        rw [awaitsWords_of_ne hshape]
        rfl
    · simp only [hcomment, if_true, hparent, pure_bind]
      split
      · rename_i hshape
        rw [awaitsWords_of_command hshape]
        rfl
      · rename_i hshape
        rw [awaitsWords_of_ne hshape]
        rfl

theorem Shows.awaitsWords_eq {t : Numbered.Tree} {path : List Numbered.Crumb} {focus : Focus}
    (h : f.Shows strays t path) (hfocus : t.focus? = some focus) :
    f.awaitsWords t.id = Cursor.awaitsWords focus (path.map Numbered.Crumb.plain) := by
  have hshape := h.shape
  cases focus with
  | leaf l =>
    obtain ⟨id, rfl⟩ := Growth.leaf_of_focus hfocus
    exact awaitsWords_of_ne fun target body heq => by cases hshape.symm.trans heq
  | seq kind ts =>
    obtain ⟨id, parts, rfl, rfl⟩ := Growth.seq_of_focus hfocus
    cases kind with
    | command target =>
      rw [awaitsWords_of_command hshape, h.isOperand_eq, Numbered.Tree.id, h.hasWords_eq]
      rfl
    | script | group | dblQuote | sub =>
      exact awaitsWords_of_ne fun target body heq => by cases hshape.symm.trans heq

theorem Shows.isComment_eq {t : Numbered.Tree} {path : List Numbered.Crumb} {focus : Focus}
    (h : f.Shows strays t path) (hfocus : t.focus? = some focus) :
    f.isComment t.id = Cursor.isComment focus.tree := by
  rw [isComment, h.shape]
  cases focus with
  | leaf l =>
    obtain ⟨id, rfl⟩ := Growth.leaf_of_focus hfocus
    cases l <;> rfl
  | seq kind ts =>
    obtain ⟨id, parts, rfl, rfl⟩ := Growth.seq_of_focus hfocus
    rfl

/-- The cursor knows whether the script may end. -/
theorem checkComplete_eq (h : f.At strays context c) (hvalid : c.Valid) :
    f.checkComplete context = if c.isComplete = true then .ok () else .error .unexpectedEnd := by
  obtain ⟨focus, plainPath⟩ := c
  obtain ⟨t, path, hshows, rfl, hfocus, hpath⟩ := h
  obtain rfl : path.map Numbered.Crumb.plain = plainPath := hpath
  have hopen : (t.id :: f.ancestors t.id).any f.opensAt =
      (focus.label :: (path.map Numbered.Crumb.plain).map Crumb.label).any Tree.Label.isOpen := by
    rw [hshows.ancestors_eq, List.any_cons, List.any_cons, any_opensAt_path hshows,
      opensAt_eq hshows hfocus]
  unfold Cursor.isComplete
  rw [← hopen]
  cases hany : (t.id :: f.ancestors t.id).any f.opensAt with
  | true => exact checkComplete_of_open hany
  | false =>
    have hcomment := hshows.isComment_eq hfocus
    have hcut (command : NodeId) (hcommand : f.isComment t.id = false ∧ t.id = command ∨
          f.isComment t.id = true ∧ f.parent? t.id = some command)
        (heq : f.awaitsWords command = Cursor.isCut ⟨focus, path.map Numbered.Crumb.plain⟩) :
        f.checkComplete t.id = if (!false && !Cursor.isCut ⟨focus, path.map Numbered.Crumb.plain⟩) =
          true then .ok () else .error .unexpectedEnd := by
      rw [checkComplete_of_closed hany hcommand, heq]
      cases Cursor.isCut ⟨focus, path.map Numbered.Crumb.plain⟩ <;> rfl
    by_cases hleaf : focus = .leaf .comment
    · subst hleaf
      obtain ⟨kind, older, rest, hpath, -, -⟩ :=
        Cursor.holder_of_valid hvalid rfl (by simp [Focus.label])
      obtain ⟨pid, older', rest', rfl, rfl, rfl⟩ := Growth.seq_of_plain hpath
      obtain ⟨id, rfl⟩ := Growth.leaf_of_focus hfocus
      have hup : f.Shows strays (.seq pid kind (.leaf id .comment :: older')) rest' :=
        shows_fill.2 hshows
      refine hcut pid (.inr ⟨hcomment, hshows.parent?⟩) ((hup.awaitsWords_eq rfl).trans ?_)
      rw [List.map_cons, Numbered.Tree.plain]
      exact Cursor.awaitsWords_comment kind _ _
    · refine hcut t.id (.inl ⟨?_, rfl⟩) ?_
      · rw [hcomment]
        cases focus with
        | seq => rfl
        | leaf l => cases l <;> first | rfl | exact absurd rfl hleaf
      · rw [hshows.awaitsWords_eq hfocus, Cursor.isCut_of_ne hleaf]

end Forest

/-! ## Reading to the end -/

namespace Cursor

variable {c c' : Cursor} {t t' : Tape} {token : Token} {cause : Fault}

/-- What a cursor makes of the rest of a text: a cursor at its end, or a syntax error. -/
inductive Parses : Cursor → Tape → Except SyntaxError Cursor → Prop where
  | step {c c' : Cursor} {t t' : Tape} {token : Token} {r : Except SyntaxError Cursor}
    (hnext : c.nextToken t = .ok (token, t')) (hfeed : c.feed token = .ok c')
    (h : Parses c' t' r) : Parses c t r
  | refused {c : Cursor} {t t' : Tape} {token : Token} {cause : Fault}
    (hnext : c.nextToken t = .ok (token, t')) (hfeed : c.feed token = .error cause) :
    Parses c t (.error ⟨cause, token.position, some token.value⟩)
  | ended {c : Cursor} {t : Tape} (hnext : c.nextToken t = .error .endOfStream)
    (h : c.isComplete = true) : Parses c t (.ok c)
  | cutShort {c : Cursor} {t : Tape} (hnext : c.nextToken t = .error .endOfStream)
    (h : c.isComplete = false) :
    Parses c t (.error { cause := .unexpectedEnd, position := t.last })
  | unclosed {c : Cursor} {t : Tape} (hnext : c.nextToken t = .error .unexpectedEnd) :
    Parses c t (.error { cause := .unexpectedEnd, position := t.last })

theorem nextToken_split (h : c.nextToken t = .ok (token, t')) :
    ∃ taken, taken ≠ [] ∧ t.chars = taken ++ t'.chars ∧ t'.position = t.position.past taken := by
  unfold nextToken at h
  split at h
  · exact Tape.verbatim_split h
  · exact Tape.tokenFrom_split h

/-- Reading does not change where the text ends. -/
theorem last_nextToken (h : c.nextToken t = .ok (token, t')) : t'.last = t.last := by
  obtain ⟨taken, -, htaken, hposition⟩ := nextToken_split h
  rw [Tape.last, Tape.last, htaken, hposition, Position.past_append]

/-- A token is missing because the text is over, or because it breaks off. -/
theorem nextToken_error (h : c.nextToken t = .error cause) :
    cause = .endOfStream ∧ c.wantsVerbatim = false ∨ cause = .unexpectedEnd := by
  unfold nextToken at h
  cases hverbatim : c.wantsVerbatim with
  | true =>
    rw [hverbatim, if_pos rfl] at h
    exact .inr (Tape.verbatim_error h)
  | false =>
    rw [hverbatim, if_neg Bool.false_ne_true] at h
    exact (Tape.tokenFrom_error h).imp_left fun heq => ⟨heq, rfl⟩

/-- Something is made of every text. -/
theorem parses_total (c : Cursor) (t : Tape) : ∃ r, c.Parses t r := by
  induction hn : t.chars.length using Nat.strongRecOn generalizing c t with
  | ind n ih =>
    subst hn
    cases hnext : c.nextToken t with
    | error cause =>
      rcases nextToken_error hnext with ⟨rfl, -⟩ | rfl
      · cases hcomplete : c.isComplete with
        | true => exact ⟨_, .ended hnext hcomplete⟩
        | false => exact ⟨_, .cutShort hnext hcomplete⟩
      · exact ⟨_, .unclosed hnext⟩
    | ok next =>
      obtain ⟨token, t'⟩ := next
      cases hfeed : c.feed token with
      | error cause => exact ⟨_, .refused hnext hfeed⟩
      | ok c' =>
        obtain ⟨taken, hne, htaken, -⟩ := nextToken_split hnext
        have hlt : t'.chars.length < t.chars.length := by
          have hpos := List.length_pos_iff.2 hne
          rw [htaken, List.length_append]
          omega
        obtain ⟨r, hr⟩ := ih t'.chars.length hlt c' t' rfl
        exact ⟨r, .step hnext hfeed hr⟩

/-- The statements of the script so far. -/
def statements (c : Cursor) : List Tree :=
  match c.tree with
  | .seq _ body => body
  | _ => []

theorem plug_of_valid {label : Tree.Label} {t : Tree} {path : List Crumb} (hpath : path ≠ [])
    (h : ValidBelow label path) : ∃ body, plug t path = .seq .script body := by
  induction path generalizing label t with
  | nil => exact absurd rfl hpath
  | cons crumb path ih =>
    cases path with
    | cons next rest => exact ih (by simp) h.2
    | nil =>
      have hlabel : crumb.label = .seq .script := h.2
      cases crumb with
      | join op left => cases hlabel
      | seq kind older =>
        obtain rfl : kind = .script := by simpa [Crumb.label] using hlabel
        exact ⟨_, rfl⟩

theorem tree_of_valid (h : c.Valid) : c.tree = .seq .script c.statements := by
  obtain ⟨body, hbody⟩ : ∃ body, c.tree = .seq .script body := by
    obtain ⟨focus, path⟩ := c
    by_cases hpath : path = []
    · subst hpath
      have hlabel : focus.label = .seq .script := h
      cases focus with
      | leaf l => cases hlabel
      | seq kind parts =>
        obtain rfl : kind = .script := by simpa [Focus.label] using hlabel
        exact ⟨_, rfl⟩
    · exact plug_of_valid hpath h
  rw [statements, hbody]

end Cursor

namespace Forest

variable {f f' : Forest} {strays : List NodeId} {context context' : NodeId} {c : Cursor}
  {s s' : Source} {t : Tape} {token : Token} {cause : Fault}

theorem parseFrom_refused (hnext : f.nextToken context s = (s', .ok token))
    (hfeed : (f.feed context token).2 = .error cause) :
    (f.parseFrom context s).2 = .error (.wrong ⟨cause, token.position, some token.value⟩) := by
  rw [parseFrom]
  split
  · simp_all
  · simp_all
  · rename_i heq
    rw [hnext, Prod.mk.injEq, Except.ok.injEq] at heq
    obtain ⟨rfl, rfl⟩ := heq
    split
    · simp_all
    · simp_all

theorem parseFrom_cutShort (hnext : f.nextToken context s = (s', .error (.fault .endOfStream)))
    (hcomplete : f.checkComplete context = .error cause) :
    (f.parseFrom context s).2 = .error (.wrong { cause := cause, position := s'.position }) := by
  rw [parseFrom]
  split
  · simp_all
  · rename_i heq
    rw [hnext, Prod.mk.injEq, Except.error.injEq, Halt.fault.injEq] at heq
    obtain ⟨rfl, rfl⟩ := heq
    simp only [Fault.isEnd, if_true, hcomplete]
  · simp_all

theorem parseFrom_fault (hnext : f.nextToken context s = (s', .error (.fault cause)))
    (hcause : cause.isEnd = false) :
    (f.parseFrom context s).2 = .error (.wrong { cause := cause, position := s'.position }) := by
  rw [parseFrom]
  split
  · simp_all
  · rename_i heq
    rw [hnext, Prod.mk.injEq, Except.error.injEq, Halt.fault.injEq] at heq
    obtain ⟨rfl, rfl⟩ := heq
    simp only [hcause, Bool.false_eq_true, if_false]
  · simp_all

/-- A missing token is missed at the end of the text. -/
theorem nextToken_halts (h : f.At strays context c) (hs : s.Shows t)
    (hnext : c.nextToken t = .error cause) :
    ∃ s', f.nextToken context s = (s', .error (.fault cause)) ∧ s'.position = t.last := by
  have hyields := yields_nextToken h hs
  rw [hnext] at hyields
  refine ⟨_, Prod.ext rfl hyields, ?_⟩
  rw [Cursor.nextToken] at hnext
  rw [nextToken, wantsVerbatim_eq h]
  split at hnext
  · rename_i hverbatim
    rw [if_pos hverbatim]
    exact Source.verbatim_halts hs hnext
  · rename_i hverbatim
    rw [if_neg hverbatim]
    exact Source.token_halts hs hnext

/-- An answer is the script of this cursor, or this syntax error. -/
def Answers (answer : Except Unparsed Forest) : Except SyntaxError Cursor → Prop
  | .ok c => c.Valid ∧ ∃ f, answer = .ok f ∧ f.statements = c.statements
  | .error e => answer = .error (.wrong e)

theorem At.statements_eq (h : f.At strays context c) (hvalid : c.Valid) :
    f.statements = c.statements := by
  obtain ⟨t, path, hshows, -, hfocus, hpath⟩ := h
  have hbody : Cursor.plug t.plain (path.map Numbered.Crumb.plain) = .seq .script c.statements := by
    rw [hpath, plain_of_focus hfocus]
    exact Cursor.tree_of_valid hvalid
  exact hshows.statements_eq hbody

/-- A forest that shows a cursor parses a text as the cursor does. -/
theorem parseFrom_of_parses {r : Except SyntaxError Cursor} (h : c.Parses t r)
    (hat : f.At strays context c) (hvalid : c.Valid) (hs : s.Shows t) :
    Answers (f.parseFrom context s).2 r := by
  induction h generalizing f context s strays with
  | @step c c' t t' token r hnext hfeed _ ih =>
    obtain ⟨s', f', context', hnext', hfeed', hat', hvalid', hs'⟩ :=
      hat.takes hvalid hs hnext hfeed
    rw [parseFrom_step hnext' hfeed']
    exact ih hat' hvalid' hs'
  | refused hnext hfeed =>
    obtain ⟨s', hnext', hfeed'⟩ := hat.refuses hvalid hs hnext hfeed
    exact parseFrom_refused hnext' hfeed'
  | ended hnext hcomplete =>
    obtain ⟨s', hnext', -⟩ := nextToken_halts hat hs hnext
    have hcheck := checkComplete_eq hat hvalid
    rw [hcomplete, if_pos rfl] at hcheck
    rw [parseFrom_end hnext' hcheck]
    exact ⟨hvalid, f, rfl, hat.statements_eq hvalid⟩
  | cutShort hnext hcomplete =>
    obtain ⟨s', hnext', hposition⟩ := nextToken_halts hat hs hnext
    have hcheck := checkComplete_eq hat hvalid
    rw [hcomplete, if_neg Bool.false_ne_true] at hcheck
    have hanswer := parseFrom_cutShort hnext' hcheck
    rwa [hposition] at hanswer
  | unclosed hnext =>
    obtain ⟨s', hnext', hposition⟩ := nextToken_halts hat hs hnext
    have hanswer := parseFrom_fault hnext' rfl
    rwa [hposition] at hanswer

/-- What the cursor makes of a text from its start is what parsing the text comes to. -/
theorem parse_of_parses {text : String} {r : Except SyntaxError Cursor}
    (h : Cursor.start.Parses ⟨{}, text.toList⟩ r) :
    Answers (parse (Source.ofText text)) r :=
  parseFrom_of_parses h at_start Cursor.valid_start (Source.shows_ofText text)

theorem parses_of_parse_eq_ok {text : String} (h : parse (Source.ofText text) = .ok f) :
    ∃ c, Cursor.start.Parses ⟨{}, text.toList⟩ (.ok c) ∧ c.Valid ∧ f.statements = c.statements := by
  obtain ⟨r, hr⟩ := Cursor.parses_total Cursor.start ⟨{}, text.toList⟩
  have hanswers := parse_of_parses hr
  rw [h] at hanswers
  cases r with
  | error e => cases hanswers
  | ok c =>
    obtain ⟨hvalid, f', hf', hstatements⟩ := hanswers
    obtain rfl := Except.ok.inj hf'
    exact ⟨c, hr, hvalid, hstatements⟩

end Forest

end PocketShell
