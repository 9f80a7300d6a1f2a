import PocketShell.Proofs.Script.Moments

/-!
# Operators and their right sides

An operator gets its right side, unless the group or the substitution around it is closed while the
operator still waits for words.

* `Tree.hasRight` : a join has a right side, which is a join or a command with words;
* `Moment.Takes.not_settled` : a closing token that abandons an operator leaves a join without a
  right side for good;
* `Forest.parse_operands` : in a script every operator has its right side exactly if no token
  abandoned one on the way.
-/

namespace PocketShell

/-- Whether a node has its right side, if it is a join. -/
def Tree.hasRight : Tree → Bool
  | join _ _ right => right.isFilled
  | dangling .. => false
  | _ => true

namespace Cursor

variable {t : Tree} {path : List Crumb} {kind : Sequence} {parts : List Tree} {label : Tree.Label}
  {c d : Cursor} {q : Tree → Bool}

/-! ## At the end of a script -/

/-- Above a node that may stand beside an operator all joins have right sides. -/
theorem along_of_filled (hvalid : ValidBelow label path) (ht : t.hasRight = true)
    (hcomment : isComment t = false) (hright : isOperand path = true → t.isFilled = true) :
    Along Tree.hasRight t path := by
  induction path generalizing t label with
  | nil => exact ht
  | cons crumb path ih =>
    refine ⟨ht, ih hvalid.2 ?_ ?_ fun hoperand => ?_⟩
    · cases crumb with
      | seq => rfl
      | join => exact hright rfl
    · cases crumb <;> rfl
    · cases crumb with
      | join => rfl
      | seq kind older =>
        obtain ⟨target, rfl⟩ := command_of_operand hvalid.2 hoperand
        exact isFilled_fill hcomment

/-- Where no operator waits for words, all joins on the way up have right sides. -/
theorem along_hasRight (hvalid : c.Valid) (hcut : c.isCut = false) :
    Along Tree.hasRight c.focus.tree c.path := by
  obtain ⟨focus, path⟩ := c
  cases focus with
  | seq kind parts =>
    refine along_of_filled hvalid rfl rfl fun hoperand => ?_
    obtain ⟨target, rfl⟩ := command_of_operand hvalid hoperand
    rw [isCut_of_ne (by simp), awaitsWords, hoperand] at hcut
    simpa [Focus.tree, Tree.isFilled, hasWords] using hcut
  | leaf l =>
    obtain ⟨kind, older, rest, rfl, -, hrest⟩ := holder_of_valid hvalid rfl (by simp [Focus.label])
    rcases leaf_of_valid hvalid with ⟨name, rfl⟩ | ⟨text, rfl⟩ | rfl
    · exact along_of_filled hvalid rfl rfl fun hoperand => by cases hoperand
    · exact along_of_filled hvalid rfl rfl fun hoperand => by cases hoperand
    · -- a comment is left to its command, which needs other words
      refine ⟨rfl, along_of_filled hrest rfl rfl fun hoperand => ?_⟩
      obtain ⟨target, rfl⟩ := command_of_operand hrest hoperand
      simp only [isCut, awaitsWords, hoperand, Bool.true_and, Bool.not_eq_false'] at hcut
      simp only [Crumb.fill, Tree.isFilled, hasWords, List.any_reverse, List.any_cons]
      rw [show older.any _ = true from hcut, Bool.or_true]

/-! ## Closing -/

/-- What was closed is settled afterwards. -/
theorem all_of_close (h : close kind parts path = .ok d)
    (hd : Settled q d.focus.tree d.path) : parts.all (Tree.everywhere q) = true := by
  unfold close at h
  split at h
  · obtain rfl := Except.ok.inj h
    simpa [Focus.tree, Tree.inside] using hd.inside
  · unfold leave at h
    split at h
    · obtain rfl := Except.ok.inj h
      have hinside := hd.inside
      simp only [Focus.tree, Tree.inside, List.all_reverse, List.all_cons, Bool.and_eq_true,
        Tree.everywhere_eq] at hinside
      simpa [Tree.inside] using hinside.1.2
    · cases h
  · cases h

/-- A join that was closed off without its right side is found wanting. -/
theorem not_settled_of_ascend {α : Type} {answer : Sequence → Option α} {a : α} {op : JoinOp}
    {left : Tree} {rest : List Crumb} (ht : t.isFilled = false)
    (hup : ascend answer t (.join op left :: path) = some (a, kind, parts, rest))
    (h : close kind parts rest = .ok d) : ¬ Settled Tree.hasRight d.focus.tree d.path := by
  intro hsettled
  have hup : ascend answer (.join op left t) path = some (a, kind, parts, rest) := hup
  have hjoin := everywhere_of_ascend hup (all_of_close h hsettled)
  rw [Tree.everywhere_eq, Tree.hasRight, ht] at hjoin
  cases hjoin

theorem not_settled_closeParenthesis {op : JoinOp} {left : Tree} (ht : t.isFilled = false)
    (h : closeParenthesis t (.join op left :: path) = .ok d) :
    ¬ Settled Tree.hasRight d.focus.tree d.path := by
  unfold closeParenthesis at h
  split at h
  · exact not_settled_of_ascend ht ‹_› h
  · cases h
  · cases h

theorem not_settled_backtick {op : JoinOp} {left : Tree} {quoted : Bool} {kind' : Sequence}
    {parts' : List Tree} {rest : List Crumb} (ht : (Tree.seq kind parts.reverse).isFilled = false)
    (hup : ascend substitution (.seq kind parts.reverse) (.join op left :: path) =
      some (.backtick, kind', parts', rest))
    (h : backtick kind parts (.join op left :: path) quoted = .ok d) :
    ¬ Settled Tree.hasRight d.focus.tree d.path := by
  simp only [backtick, hup] at h
  exact not_settled_of_ascend ht hup h

theorem of_awaitsWords {focus : Focus} (h : awaitsWords focus path = true) :
    ∃ target parts op left rest, focus = .seq (.command target) parts ∧
      path = .join op left :: rest ∧
      (Tree.seq (.command target) parts.reverse).isFilled = false := by
  unfold awaitsWords at h
  split at h
  · rename_i target parts path
    rw [Bool.and_eq_true, Bool.not_eq_true'] at h
    unfold isOperand at h
    split at h
    · exact ⟨_, _, _, _, _, rfl, rfl, by simpa [Tree.isFilled, hasWords] using h.2⟩
    · cases h.1
  · cases h

end Cursor

namespace Moment

open Numbered (Site Settled)

variable {m : Moment} {a b : Site} {c d : Cursor}

/-- A token that abandons an operator leaves a join without a right side. -/
theorem Takes.not_settled (h : m.Takes a b c d)
    (habandons : m.before.Abandons m.context m.token.kind) : ¬ Settled Tree.hasRight b := by
  obtain ⟨hawaits, hk⟩ := habandons
  obtain ⟨strays, hshows⟩ := h.before.shows
  have hid := h.before.id
  rw [← hid, hshows.awaitsWords_eq h.before.focus, h.before.path] at hawaits
  have hplain := plain_of_focus h.before.focus
  have hpath := h.before.path
  have hfeed := h.feed
  rw [Settled, plain_of_focus h.after.focus, h.after.path]
  obtain ⟨focus, path⟩ := c
  obtain ⟨target, parts, op, left, rest, rfl, rfl, hfilled⟩ := Cursor.of_awaitsWords hawaits
  rcases hk with hk | ⟨hk, sub, hsub⟩
  · simp only [Cursor.feed, Cursor.feedFocus, Cursor.feedSequence, Cursor.feedCommand, hk] at hfeed
    exact Cursor.not_settled_closeParenthesis hfilled hfeed
  · simp only [Cursor.feed, Cursor.feedFocus, Cursor.feedSequence, Cursor.feedCommand, hk] at hfeed
    have hup := hshows.nearest?_eq_ascend Cursor.substitution Prod.mk
    rw [hplain, hpath, hid, ← Forest.substitution?_eq, hsub] at hup
    split at hup
    · cases hup
    · rename_i style kind' parts' rest' hascend
      obtain ⟨id, -, -, heq, -⟩ := hup
      obtain rfl : SubStyle.backtick = style := (Prod.mk.inj (Option.some.inj heq)).2
      exact Cursor.not_settled_backtick hfilled hascend hfeed

end Moment

namespace Forest

variable {s : Source} {f : Forest}

/-- A token that abandons no operator leaves none without its right side. -/
theorem fair_hasRight {k : TokenKind} {w : Numbered.Lapses} (habandon : ¬ w.abandon) :
    Numbered.Fair k w Tree.hasRight where
  leaf := fun _ => rfl
  leave := by
    intro t ht
    cases t with
    | leaf | seq => simp [Numbered.Tree.plain, Tree.hasRight]
    | join id op left right =>
      rw [Numbered.Tree.plain, Tree.hasRight]
      exact (ht.right id op left right rfl).resolve_right habandon

/-- In a script every operator has its right side exactly if no token abandoned one that waited for
it. -/
theorem parse_operands (h : parse s = .ok f) :
    (∀ t ∈ f.statements, t.everywhere Tree.hasRight = true) ↔
      ∀ m ∈ moments s, ¬ m.before.Abandons m.context m.token.kind := by
  obtain ⟨last, a, c, hrun, hstands, hcomplete⟩ := exists_run_of_parse h
  rw [hstands.everywhere_statements fun _ => rfl]
  constructor
  · rintro ⟨hsettled, -⟩ m hm habandons
    obtain ⟨a', b, c', d, htakes⟩ := hrun.takes.1 m hm
    exact htakes.not_settled habandons (hrun.settled_of_mem hstands hsettled hm htakes.after)
  · intro hnone
    refine ⟨hrun.settled (fun m hm => fair_hasRight (hnone m hm)) hstands, ?_⟩
    rw [Cursor.isComplete, Bool.and_eq_true, Bool.not_eq_true', Bool.not_eq_true'] at hcomplete
    exact Cursor.along_hasRight hstands.valid hcomplete.2

/-- A pipe without a right side, in a group or a substitution. -/
def barePipe : Tree :=
  .join .pipe (.seq (.command false) [.leaf (.ident "a"), .leaf (.whitespace " ")])
    (.seq (.command false) [])

theorem everywhere_barePipe (kind : Sequence) :
    (Tree.seq (.command false) [.seq kind [barePipe]]).everywhere Tree.hasRight = false := by
  simp [barePipe, Tree.everywhere, Tree.everywhereAll, Tree.hasRight, Tree.isFilled,
    Cursor.hasWords]

/-- A backtick abandons a pipe. -/
theorem parse_operands_abandoned : ∃ f, parse (Source.ofText "`a |`") = .ok f ∧
    ∃ m ∈ moments (Source.ofText "`a |`"), m.before.Abandons m.context m.token.kind := by
  have hparses : Cursor.start.Parses ⟨{}, "`a |`".toList⟩
      (.ok ⟨.seq (.command false) [.seq (.sub .backtick false) [barePipe]], [.seq .script []]⟩) :=
    .step rfl rfl (.step rfl rfl (.step rfl rfl (.step rfl rfl (.step rfl rfl (.ended rfl rfl)))))
  obtain ⟨-, f, hf, hbody⟩ := parse_of_parses hparses
  have hbody : f.statements = [.seq (.command false) [.seq (.sub .backtick false) [barePipe]]] :=
    hbody
  refine ⟨f, hf, ?_⟩
  by_contra hnone
  have hright := (parse_operands hf).2 fun m hm habandons => hnone ⟨m, hm, habandons⟩
  rw [hbody] at hright
  have hpipe := hright _ List.mem_cons_self
  rw [everywhere_barePipe] at hpipe
  cases hpipe

/-- A script with a pipe that has no right side: the parenthesis closes the group all the same. -/
theorem parse_barePipe : ∃ f, parse (Source.ofText "(a |)") = .ok f ∧
    f.statements = [.seq (.command false) [.seq (.group true) [barePipe]]] ∧
    ¬ ∀ t ∈ f.statements, t.everywhere Tree.hasRight = true := by
  have hparses : Cursor.start.Parses ⟨{}, "(a |)".toList⟩
      (.ok ⟨.seq (.group true) [barePipe], [.seq (.command false) [], .seq .script []]⟩) :=
    .step rfl rfl (.step rfl rfl (.step rfl rfl (.step rfl rfl (.step rfl rfl (.ended rfl rfl)))))
  obtain ⟨-, f, hf, hbody⟩ := parse_of_parses hparses
  have hbody : f.statements = [.seq (.command false) [.seq (.group true) [barePipe]]] := hbody
  refine ⟨f, hf, hbody, fun hright => ?_⟩
  rw [hbody] at hright
  have hpipe := hright _ List.mem_cons_self
  rw [everywhere_barePipe] at hpipe
  cases hpipe

end Forest

end PocketShell
