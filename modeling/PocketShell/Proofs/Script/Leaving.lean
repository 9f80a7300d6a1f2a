import PocketShell.Proofs.Script.Edits
import PocketShell.Proofs.Script.Outcomes

/-!
# Tokens as edits

Whatever `Forest.feed` does to a forest is a sequence of edits of the tree that the forest shows.

* `Numbered.edits_cross` : how the nodes between the context and a place above it are left;
* `Forest.Shows.nearest?_cases`, `Forest.Shows.operandTo_crossed` : what a forest finds above a
  node, and what it has to cross for that;
* `Growth.Yields` : a change that succeeds is a sequence of edits;
* `Growth.yields_feed` : feeding a token is. What it may leave before its time depends on the forest
  (`Forest.crosses`, `Forest.Abandons`).
-/

namespace PocketShell

open Relation

/-! ## Crossing -/

/-- A sequence beside an operator is a command. -/
theorem Cursor.command_of_operand {kind : Sequence} {path : List Crumb}
    (h : ValidBelow (.seq kind) path) (hoperand : isOperand path = true) :
    ∃ target, kind = .command target := by
  unfold isOperand at hoperand
  split at hoperand
  · have hadmits := h.1
    cases kind with
    | command target => exact ⟨target, rfl⟩
    | script | group | dblQuote | sub => simp [Crumb.admits] at hadmits
  · cases hoperand

/-- A command with a part that is no comment is a right side. -/
theorem Cursor.isFilled_fill {t : Tree} {target : Bool} {older : List Tree}
    (ht : isComment t = false) : ((Crumb.seq (.command target) older).fill t).isFilled = true := by
  simp [Crumb.fill, Tree.isFilled, hasWords, ht]

theorem Cursor.substitution_of_isHolder {kind : Sequence} (h : kind.isHolder = true) :
    substitution kind = none := by
  cases kind with
  | command | dblQuote => rfl
  | script | group | sub => cases h

namespace Numbered

variable {n : Nat} {k : TokenKind} {w : Lapses} {t : Tree} {crumb : Crumb}
  {crossed path rest : List Crumb} {label : PocketShell.Tree.Label}

/-- The tree of the outermost of the crumbs. -/
def fold (t : Tree) : List Crumb → Tree
  | [] => t
  | crumb :: path => fold (crumb.fill t) path

theorem Leavable.fill (h : Leavable k w crumb.kind?)
    (hright : Cursor.isOperand (crumb.plain :: rest.map Crumb.plain) = true →
      t.plain.isFilled = true ∨ w.abandon) : MayLeave k w (crumb.fill t) := by
  refine ⟨Crumb.kind?_fill t crumb ▸ h, fun id op left right heq => ?_⟩
  · cases crumb with
    | seq => cases heq
    | join id op left =>
      cases heq
      exact hright rfl

theorem isComment_seq (id : NodeId) (kind : Sequence) (parts : List Tree) :
    Cursor.isComment (Tree.seq id kind parts).plain = false := by
  simp [Tree.plain, Cursor.isComment]

theorem isFilled_fill {id : NodeId} {target : Bool} {older : List Tree}
    (ht : Cursor.isComment t.plain = false) :
    ((Crumb.seq id (.command target) older).fill t).plain.isFilled = true := by
  rw [Crumb.plain_fill]
  exact Cursor.isFilled_fill ht

/-- The nodes between a place and one above it are left one by one. -/
theorem edits_cross (n : Nat)
    (hvalid : Cursor.ValidBelow label ((crossed ++ rest).map Crumb.plain))
    (ht : MayLeave k w t) (hcomment : Cursor.isComment t.plain = false)
    (hright : Cursor.isOperand ((crossed ++ rest).map Crumb.plain) = true →
      t.plain.isFilled = true ∨ w.abandon)
    (hcross : ∀ crumb ∈ crossed, Leavable k w crumb.kind?) :
    Edits n k w (t, crossed ++ rest) (fold t crossed, rest) ∧ MayLeave k w (fold t crossed) := by
  induction crossed generalizing t label with
  | nil => exact ⟨.refl, ht⟩
  | cons crumb crossed ih =>
    obtain ⟨hcrumb, hcross⟩ := List.forall_mem_cons.1 hcross
    have hfill : MayLeave k w (crumb.fill t) := Leavable.fill hcrumb hright
    have hnot : Cursor.isComment (crumb.fill t).plain = false := by
      cases crumb <;> simp [Crumb.fill, Tree.plain, Cursor.isComment]
    -- below an operator stands a join, or a command with a part on the path
    have hfilled : Cursor.isOperand ((crossed ++ rest).map Crumb.plain) = true →
        (crumb.fill t).plain.isFilled = true ∨ w.abandon := by
      intro hoperand
      cases crumb with
      | join id op left => exact .inl (by simp [Crumb.fill, Tree.plain, PocketShell.Tree.isFilled])
      | seq id kind older =>
        obtain ⟨target, rfl⟩ := Cursor.command_of_operand hvalid.2 hoperand
        exact .inl (isFilled_fill hcomment)
    obtain ⟨hedits, hleave⟩ := ih hvalid.2 hfill hnot hfilled hcross
    exact ⟨.head (.leave crumb (crossed ++ rest) ht) hedits, hleave⟩

/-- A sequence above a place, as a place, when all between them has been left. -/
theorem edits_found (n : Nat) {id : NodeId} {kind : Sequence} {older : List Tree}
    (hvalid : Cursor.ValidBelow label ((crossed ++ .seq id kind older :: rest).map Crumb.plain))
    (ht : MayLeave k w t) (hcomment : Cursor.isComment t.plain = false)
    (hright : Cursor.isOperand ((crossed ++ .seq id kind older :: rest).map Crumb.plain) = true →
      t.plain.isFilled = true ∨ w.abandon)
    (hcross : ∀ crumb ∈ crossed, Leavable k w crumb.kind?) :
    Edits n k w (t, crossed ++ .seq id kind older :: rest)
      (.seq id kind (fold t crossed :: older), rest) := by
  obtain ⟨hedits, hleave⟩ := edits_cross n hvalid ht hcomment hright hcross
  exact hedits.tail (.leave (.seq id kind older) rest hleave)

end Numbered

/-! ## Finding -/

namespace Forest

variable {f : Forest} {strays : List NodeId} {t : Numbered.Tree} {crumb : Numbered.Crumb}
  {crossed path rest : List Numbered.Crumb}

theorem Shows.fold (h : f.Shows strays t (crossed ++ path)) :
    f.Shows strays (Numbered.fold t crossed) path := by
  induction crossed generalizing t with
  | nil => exact h
  | cons crumb crossed ih => exact ih (shows_fill.2 h)

theorem Shows.about_crumb {α β : Type} (h : f.Shows strays t (crumb :: path))
    (answer : Sequence → Option α) (found : NodeId → α → β) :
    f.about answer found crumb.id =
      (crumb.kind?.bind answer).map (found crumb.id) := by
  rw [about, h.shape_crumb]
  cases crumb <;> rfl

/-- The nearest sequence above a node that has an answer, and the crumbs below it that have none. -/
theorem Shows.nearest?_cases {α β : Type} (h : f.Shows strays t path)
    (answer : Sequence → Option α) (found : NodeId → α → β) :
    f.nearest? (f.about answer found) t.id = none ∨
      ∃ crossed id kind older rest a, path = crossed ++ .seq id kind older :: rest ∧
        (∀ crumb ∈ crossed, crumb.kind?.bind answer = none) ∧ answer kind = some a ∧
        f.nearest? (f.about answer found) t.id = some (found id a) := by
  rw [nearest?_eq, h.ancestors_eq]
  induction path generalizing t with
  | nil => exact .inl rfl
  | cons crumb path ih =>
    rw [List.map_cons, List.findSome?_cons, h.about_crumb]
    cases ha : crumb.kind?.bind answer with
    | some a =>
      cases crumb with
      | join => cases ha
      | seq id kind older => exact .inr ⟨[], id, kind, older, path, a, rfl, by simp, ha, rfl⟩
    | none =>
      rcases ih (shows_fill.2 h) with
        hnone | ⟨crossed, id, kind, older, rest, a, rfl, hcrossed, hfound⟩
      · exact .inl hnone
      · exact .inr ⟨crumb :: crossed, id, kind, older, rest, a, rfl,
          List.forall_mem_cons.2 ⟨ha, hcrossed⟩, hfound⟩

/-- A crumb that has no answer is passed over. -/
theorem Shows.nearest?_above {α β : Type} (h : f.Shows strays t (crumb :: path))
    {answer : Sequence → Option α} {found : NodeId → α → β}
    (hnone : crumb.kind?.bind answer = none) :
    f.nearest? (f.about answer found) t.id = f.nearest? (f.about answer found) crumb.id := by
  have hup : f.ancestors crumb.id = path.map Numbered.Crumb.id := by
    rw [← Numbered.Crumb.id_fill t crumb]
    exact (shows_fill.2 h).ancestors_eq
  rw [nearest?_eq, nearest?_eq, h.ancestors_eq, hup, List.map_cons, List.findSome?_cons,
    h.about_crumb, hnone]
  rfl

/-- The widest operand is found by crossing joins. -/
theorem Shows.operandTo_crossed (h : f.Shows strays t path) (op : JoinOp) {m : Nat}
    (hm : path.length ≤ m) :
    ∃ crossed rest, path = crossed ++ rest ∧ (∀ crumb ∈ crossed, crumb.kind? = none) ∧
      f.operandTo op m t.id = (Numbered.fold t crossed).id := by
  induction path generalizing t m with
  | nil =>
    refine ⟨[], [], rfl, by simp, ?_⟩
    cases m <;> simp [operandTo, h.parent?, Numbered.above, Numbered.fold]
  | cons crumb path ih =>
    obtain ⟨m, rfl⟩ : ∃ l, m = l + 1 := ⟨m - 1, by simp at hm; omega⟩
    have hparent : f.parent? t.id = some crumb.id := h.parent?
    cases crumb with
    | seq id kind older =>
      refine ⟨[], _, rfl, by simp, ?_⟩
      have hshape : f.shape id = .seq kind (t.id :: older.map Numbered.Tree.id) := h.shape_crumb
      simp only [operandTo, hparent, Numbered.Crumb.id, hshape, Numbered.fold]
    | join id outer left =>
      have hshape : f.shape id = .join outer left.id (some t.id) := h.shape_crumb
      simp only [operandTo, hparent, Numbered.Crumb.id, hshape, true_and]
      split
      · obtain ⟨crossed, rest, rfl, hcrossed, hoperand⟩ :=
          ih (shows_fill.2 h) (Nat.le_of_succ_le_succ hm)
        exact ⟨.join id outer left :: crossed, rest, rfl,
          List.forall_mem_cons.2 ⟨rfl, hcrossed⟩, hoperand⟩
      · exact ⟨[], _, rfl, by simp, rfl⟩

theorem Shows.id_lt (h : f.Shows strays t path) : t.id < f.size :=
  h.holds.lt_size (by simp [Numbered.nodesAt, Numbered.Tree.nodes, Numbered.Tree.entry])

/-- A command that an operator waits for is closed off with a token of this kind. -/
def Abandons (f : Forest) (context : NodeId) (k : TokenKind) : Prop :=
  f.awaitsWords context = true ∧
    (k = .rparen ∨ k = .backtick ∧ ∃ sub, f.substitution? context = some (sub, .backtick))

/-- The kind of a node that is a sequence. -/
def sequence? (f : Forest) (id : NodeId) : Option Sequence := (f.shape id).sequence?

/-- A node and those above it. -/
def lineage (f : Forest) (id : NodeId) : List NodeId := id :: f.ancestors id

/-- Whether a backtick would cross double quotes or an open group. In a comment and between single
quotes it means nothing. -/
def crosses (f : Forest) (context : NodeId) : Bool :=
  match f.shape context with
  | .leaf .comment | .leaf (.quote _) => false
  | _ => Sequence.crossing ((f.lineage context).filterMap f.sequence?)

theorem Shows.sequence?_eq (h : f.Shows strays t path) : f.sequence? t.id = t.kind? := by
  rw [sequence?, h.shape, Numbered.Tree.sequence?_shape]

theorem Shows.sequences_eq (h : f.Shows strays t path) :
    (f.lineage t.id).filterMap f.sequence? = Numbered.sequences (t, path) := by
  rw [lineage, h.ancestors_eq]
  induction path generalizing t with
  | nil =>
    rw [List.map_nil, List.filterMap_cons, h.sequence?_eq]
    rfl
  | cons crumb path ih =>
    have hup := ih (shows_fill.2 h)
    rw [Numbered.Crumb.id_fill] at hup
    rw [List.map_cons, List.filterMap_cons, hup, h.sequence?_eq, Numbered.sequences,
      Numbered.sequences, Numbered.spine_cons, List.filterMap_cons]

theorem Shows.crosses_eq (h : f.Shows strays t path) (hcomment : t.shape ≠ .leaf .comment)
    (hquote : ∀ text, t.shape ≠ .leaf (.quote text)) :
    f.crosses t.id = Sequence.crossing (Numbered.sequences (t, path)) := by
  rw [crosses, h.shape, h.sequences_eq]
  split
  · exact absurd ‹_› hcomment
  · exact absurd ‹_› (hquote _)
  · rfl

/-- How a token of this kind may leave nodes before their time. -/
def lapses (f : Forest) (context : NodeId) (k : TokenKind) : Numbered.Lapses where
  cross := k = .backtick ∧ f.crosses context = true
  abandon := f.Abandons context k

theorem not_abandons_of_kind {id : NodeId} {k : TokenKind} (hrparen : k ≠ .rparen)
    (hbacktick : k ≠ .backtick) : ¬ f.Abandons id k := by
  rintro ⟨-, hk | ⟨hk, -⟩⟩
  · exact hrparen hk
  · exact hbacktick hk

/-- Nothing waits for a sequence with a part that is no comment. -/
theorem Shows.not_abandons {id : NodeId} {kind : Sequence} {part : Numbered.Tree}
    {parts : List Numbered.Tree} (h : f.Shows strays (.seq id kind (part :: parts)) path)
    (hpart : Cursor.isComment part.plain = false) (k : TokenKind) : ¬ f.Abandons id k := by
  rintro ⟨hawaits, -⟩
  rw [show f.awaitsWords id = _ from h.awaitsWords_eq rfl] at hawaits
  cases kind with
  | command target => simp [Cursor.awaitsWords, Cursor.hasWords, hpart] at hawaits
  | script | group | dblQuote | sub => cases hawaits

end Forest

/-! ## Changes as edits -/

namespace Growth

open Numbered (Site Edits Steps Lapses Leavable MayLeave fold sequences sequences_seq
  sequences_leaf isComment_seq edits_cross edits_found)

/-- A change that succeeds is a sequence of edits. -/
def Yields (n : Nat) (k : TokenKind) (w : Lapses) (g : Growth NodeId) (f : Forest)
    (strays : List NodeId) (a : Site) : Prop :=
  ∀ x f', g.on f = (.ok x, f') →
    ∃ b : Site, f'.Shows strays b.1 b.2 ∧ b.1.id = x ∧ Steps n k w a b

variable {n : Nat} {k : TokenKind} {w : Lapses} {f f' : Forest} {strays : List NodeId}
  {g g' : Growth NodeId} {a b : Site} {t : Numbered.Tree} {path rest : List Numbered.Crumb}
  {id x : NodeId} {kind : Sequence} {parts : List Numbered.Tree} {label : Tree.Label}

theorem yields_of_on (hon : g.on f = (.ok x, f')) (hb : f'.Shows strays b.1 b.2) (hid : b.1.id = x)
    (hsteps : Steps n k w a b) : Yields n k w g f strays a := by
  intro y f'' hon'
  obtain ⟨hx, rfl⟩ := Prod.mk.inj (hon.symm.trans hon')
  exact ⟨b, hb, hid.trans (Except.ok.inj hx), hsteps⟩

theorem yields_of_error (cause : Fault) (hon : g.on f = (.error cause, f)) :
    Yields n k w g f strays a := by
  intro y f'' hon'
  cases (Prod.mk.inj (hon.symm.trans hon')).1

theorem yields_throw (cause : Fault) : Yields n k w (throw cause) f strays a :=
  yields_of_error cause rfl

/-- A change that does, after some edits, what another one does. -/
theorem Yields.congr (h : Yields n k w g' f' strays b) (hedits : Edits n k w a b)
    (hon : g.on f = g'.on f') : Yields n k w g f strays a := by
  intro x f'' hon'
  obtain ⟨c, hc, hid, hsteps⟩ := h x f'' (hon.symm.trans hon')
  exact ⟨c, hc, hid, hsteps.head hedits⟩

theorem yields_pure (h : f.Shows strays t path) : Yields n k w (pure t.id) f strays (t, path) :=
  yields_of_on rfl h rfl (Edits.steps .refl)

/-! ## Closing and joining -/

theorem yields_closeGroup (h : f.Shows strays (.seq id (.group false) parts) path) :
    Yields n .rparen w (close id) f strays (.seq id (.group false) parts, path) := by
  have hshape : f.shape id = .seq (.group false) (parts.map Numbered.Tree.id) := h.shape
  have hset := shows_setShape (.seq id (.group true) parts) h rfl
    (by simp only [Numbered.Tree.inner])
  refine yields_of_on (b := (.seq id (.group true) parts, path)) ?_ hset rfl
    ⟨_, .refl, .inr ⟨rfl, id, parts, path, rfl, rfl⟩⟩
  simp only [close, on_get_bind, hshape, on_modify_bind]
  rfl

theorem on_parentOf_root (h : f.Shows strays t []) :
    on (parentOf t.id) f = (.error .unknown, f) := by
  have hparent : f.parent? t.id = none := h.parent?
  simp only [parentOf, on_get_bind, hparent, on_throw]

theorem yields_parentOf (h : f.Shows strays t path) (hid : t.id = id) (ht : MayLeave k w t) :
    Yields n k w (parentOf id) f strays (t, path) := by
  subst hid
  cases path with
  | nil => exact yields_of_error .unknown (on_parentOf_root h)
  | cons crumb path =>
    exact yields_of_on (on_parentOf h rfl) (Forest.shows_fill.2 h) (Numbered.Crumb.id_fill _ _)
      (Edits.steps (.single (.leave crumb path ht)))

theorem mayLeave_seq
    (h : kind.endsWith k = true ∨ k = .backtick ∧ kind.isCrossed = true ∧ w.cross) :
    MayLeave k w (.seq id kind parts) := by
  refine ⟨?_, nofun⟩
  rintro _ ⟨⟩
  exact h

theorem yields_closeSub {style : SubStyle} {quoted : Bool}
    (h : f.Shows strays (.seq id (.sub style quoted) parts) path)
    (hk : (Sequence.sub style quoted).endsWith k = true) :
    Yields n k w (close id) f strays (.seq id (.sub style quoted) parts, path) := by
  have hshape : f.shape id = .seq (.sub style quoted) (parts.map Numbered.Tree.id) := h.shape
  refine (yields_parentOf h rfl (mayLeave_seq (.inl hk))).congr .refl ?_
  simp only [close, on_get_bind, hshape]
  rfl

/-- Between a statement and the list it belongs to stand operators only. -/
theorem joins_of_crossed {α : Type} {answer : Sequence → Option α} {crumb : Numbered.Crumb}
    {crossed : List Numbered.Crumb}
    (hanswer : ∀ kind, Cursor.statementList kind = some () → answer kind = none → kind = .script)
    (hvalid : Cursor.ValidBelow label ((crossed ++ crumb :: rest).map Numbered.Crumb.plain))
    (hlabel : label.isStatement = true)
    (hcrossed : ∀ crumb ∈ crossed, crumb.kind?.bind answer = none) :
    ∀ crumb ∈ crossed, crumb.kind? = none := by
  induction crossed generalizing label with
  | nil => simp
  | cons first crossed ih =>
    obtain ⟨hfirst, hothers⟩ := List.forall_mem_cons.1 hcrossed
    cases first with
    | join id op left =>
      exact List.forall_mem_cons.2 ⟨rfl, ih hvalid.2 rfl hothers⟩
    | seq id kind older =>
      -- the list would be the script, but there is something above it
      have hlist := Cursor.statementList_of_admits hvalid.1 hlabel
      obtain rfl := hanswer kind hlist hfirst
      have hnil := Cursor.path_of_script hvalid.2
      simp at hnil

theorem leavable_of_join {crumb : Numbered.Crumb} (h : crumb.kind? = none) :
    Leavable k w crumb.kind? :=
  fun kind hkind => by simp [h] at hkind

theorem yields_endStatement (h : f.Shows strays t path)
    (hvalid : Cursor.ValidBelow label (path.map Numbered.Crumb.plain))
    (hlabel : label.isStatement = true) (ht : MayLeave k w t)
    (hcomment : Cursor.isComment t.plain = false)
    (hright : Cursor.isOperand (path.map Numbered.Crumb.plain) = true →
      t.plain.isFilled = true ∨ w.abandon) :
    Yields n k w (endStatement t.id) f strays (t, path) := by
  have hup := h.nearest?_cases Cursor.statementList fun p _ => p
  rw [← Forest.statementList?_eq] at hup
  rcases hup with hnone | ⟨crossed, id, kind, older, rest, a, rfl, hcrossed, ha, hnear⟩
  · refine yields_of_error .unknown ?_
    simp only [endStatement, on_get_bind, hnone, on_throw]
  · have hjoins := joins_of_crossed (by simp_all) hvalid hlabel hcrossed
    have hedits := edits_found n hvalid ht hcomment hright
      fun crumb hcrumb => leavable_of_join (hjoins crumb hcrumb)
    refine (yields_pure (Forest.shows_fill.2 h.fold)).congr hedits ?_
    simp only [endStatement, on_get_bind, hnear]
    rfl

theorem yields_closeParenthesis (h : f.Shows strays t path)
    (hvalid : Cursor.ValidBelow label (path.map Numbered.Crumb.plain))
    (hlabel : label.isStatement = true) (ht : MayLeave .rparen w t)
    (hcomment : Cursor.isComment t.plain = false)
    (hright : Cursor.isOperand (path.map Numbered.Crumb.plain) = true →
      t.plain.isFilled = true ∨ w.abandon) :
    Yields n .rparen w (closeParenthesis t.id) f strays (t, path) := by
  have hup := h.nearest?_cases Cursor.parenthesis fun p => Except.map fun _ => p
  rw [← Forest.parenthesis?_eq] at hup
  rcases hup with hnone | ⟨crossed, id, kind, older, rest, a, rfl, hcrossed, ha, hnear⟩
  · refine yields_of_error .unexpectedToken ?_
    simp only [closeParenthesis, on_get_bind, hnone, on_throw]
  · have hanswer : ∀ kind, Cursor.statementList kind = some () →
        Cursor.parenthesis kind = none → kind = .script := by
      intro kind hlist hnone
      rcases kind with _ | _ | (_ | _) | _ | ⟨(_ | _), _⟩ <;>
        simp_all [Cursor.statementList, Cursor.parenthesis]
    have hjoins := joins_of_crossed hanswer hvalid hlabel hcrossed
    have hedits := edits_found n hvalid ht hcomment hright
      fun crumb hcrumb => leavable_of_join (hjoins crumb hcrumb)
    have hshows := Forest.shows_fill.2 h.fold
    cases a with
    | error cause =>
      refine yields_of_error cause ?_
      simp only [closeParenthesis, on_get_bind, hnear, Except.map, on_throw]
    | ok =>
      have hon : on (closeParenthesis t.id) f = on (close id) f := by
        simp only [closeParenthesis, on_get_bind, hnear, Except.map]
      unfold Cursor.parenthesis at ha
      split at ha
      · exact (yields_closeGroup hshows).congr hedits hon
      · exact (yields_closeSub hshows rfl).congr hedits hon
      · cases ha
      · cases ha

/-- A new child of the context becomes the context. -/
theorem yields_addChild (hn : n ≤ f.size) (new : Numbered.Tree)
    (h : f.Shows strays (.seq id kind parts) path) (hid : new.id = f.size)
    (hinner : new.inner = []) :
    Yields n k w (addChild id new.shape) f strays (.seq id kind parts, path) := by
  obtain ⟨f', hon, hf'⟩ := shows_addChild new h hid hinner
  exact yields_of_on hon hf' rfl
    (Edits.steps (.single (.enter id kind parts path (hid ▸ hn) hinner)))

theorem yields_addLeaf (hn : n ≤ f.size) (l : Leaf)
    (h : f.Shows strays (.seq id kind parts) path) :
    Yields n k w (addChild id (.leaf l)) f strays (.seq id kind parts, path) :=
  yields_addChild hn (.leaf f.size l) h rfl (by simp [Numbered.Tree.inner])

theorem yields_addSeq (hn : n ≤ f.size) (new : Sequence)
    (h : f.Shows strays (.seq id kind parts) path) :
    Yields n k w (addChild id (.seq new [])) f strays (.seq id kind parts, path) :=
  yields_addChild hn (.seq f.size new []) h rfl (by simp [Numbered.Tree.inner])

/-- A new leaf below the context, which stays the context. -/
theorem shows_append (l : Leaf) (h : f.Shows strays (.seq id kind parts) path) :
    ∃ f', on (do let _ ← addChild id (.leaf l); return id) f = (.ok id, f') ∧
      f'.Shows strays (.seq id kind (.leaf f.size l :: parts)) path ∧ f.size ≤ f'.size := by
  obtain ⟨f', hon, hf'⟩ := shows_addChild (.leaf f.size l) h rfl (by simp [Numbered.Tree.inner])
  refine ⟨f', ?_, Forest.shows_fill.2 hf', Nat.le_of_lt hf'.id_lt⟩
  rw [on_bind (show on (addChild id (.leaf l)) f = _ from hon), on_pure]

theorem yields_append (hn : n ≤ f.size) (l : Leaf)
    (h : f.Shows strays (.seq id kind parts) path) :
    Yields n k w (do let _ ← addChild id (.leaf l); return id) f strays
      (.seq id kind parts, path) := by
  obtain ⟨f', hon, hf', -⟩ := shows_append l h
  exact yields_of_on hon hf' rfl (Edits.steps (.single (.write id kind parts path f.size l hn)))

/-- Nothing is open below a closed group. -/
theorem kind?_ne_closed (hvalid : Cursor.ValidBelow label (path.map Numbered.Crumb.plain)) :
    ∀ crumb ∈ path, crumb.kind? ≠ some (.group true) := by
  induction path generalizing label with
  | nil => simp
  | cons crumb path ih =>
    refine List.forall_mem_cons.2 ⟨?_, ih hvalid.2⟩
    intro heq
    have hadmits : crumb.plain.admits label = true := hvalid.1
    cases crumb with
    | join => cases heq
    | seq id kind older =>
      obtain rfl : kind = .group true := Option.some.inj heq
      simp [Numbered.Crumb.plain, Crumb.admits] at hadmits

theorem yields_backtick {quoted : Bool} (hn : n ≤ f.size)
    (h : f.Shows strays (.seq id kind parts) path)
    (hvalid : Cursor.ValidBelow label (path.map Numbered.Crumb.plain))
    (hkind : kind.isHolder = true)
    (hcross : Sequence.crossing (sequences (.seq id kind parts, path)) = true → w.cross)
    (hright : Cursor.isOperand (path.map Numbered.Crumb.plain) = true →
      (∃ sub, f.substitution? id = some (sub, .backtick)) →
        (Numbered.Tree.seq id kind parts).plain.isFilled = true ∨ w.abandon) :
    Yields n .backtick w (backtick id quoted) f strays (.seq id kind parts, path) := by
  have hopen (hne : ∀ sub, f.substitution? id ≠ some (sub, .backtick)) :
      Yields n .backtick w (backtick id quoted) f strays (.seq id kind parts, path) := by
    refine (yields_addSeq hn (.sub .backtick quoted) h).congr .refl ?_
    simp only [backtick, on_get_bind]
  have hup := h.nearest?_cases Cursor.substitution Prod.mk
  rw [← Forest.substitution?_eq] at hup
  rcases hup with hnone | ⟨crossed, sub, kind', older, rest, style, rfl, hcrossed, hstyle, hnear⟩
  · refine hopen fun sub hsub => ?_
    simp [show f.substitution? id = none from hnone] at hsub
  · have hnear : f.substitution? id = some (sub, style) := hnear
    cases style with
    | dollar =>
      refine hopen fun sub' hsub => ?_
      simp [hnear] at hsub
    | backtick =>
      have hnone : ∀ k ∈ kind :: crossed.filterMap Numbered.Crumb.kind?,
          Cursor.substitution k = none := by
        refine List.forall_mem_cons.2 ⟨Cursor.substitution_of_isHolder hkind, fun k hk => ?_⟩
        obtain ⟨crumb, hcrumb, hk⟩ := List.mem_filterMap.1 hk
        simpa [hk] using hcrossed crumb hcrumb
      have hlapse : ∀ k ∈ kind :: crossed.filterMap Numbered.Crumb.kind?, k.isCrossed = true →
          w.cross := by
        intro k hk hcross'
        refine hcross ?_
        rw [sequences_seq, List.filterMap_append, List.filterMap_cons]
        exact Sequence.crossing_append hnone hstyle hk hcross'
      have hleave : MayLeave .backtick w (.seq id kind parts) := by
        refine mayLeave_seq ?_
        cases kind with
        | command => exact .inl rfl
        | dblQuote => exact .inr ⟨rfl, rfl, hlapse _ List.mem_cons_self rfl⟩
        | script | group | sub => cases hkind
      have hcross : ∀ crumb ∈ crossed, Leavable .backtick w crumb.kind? := by
        intro crumb hcrumb k hk
        have hmem := List.mem_cons_of_mem kind (List.mem_filterMap.2 ⟨crumb, hcrumb, hk⟩)
        have hclosed := kind?_ne_closed hvalid crumb
          (List.mem_append_left (.seq sub kind' older :: rest) hcrumb)
        rw [hk] at hclosed
        rcases k with _ | _ | (_ | _) | _ | _
        · exact .inl rfl
        · exact .inl rfl
        · exact .inr ⟨rfl, rfl, hlapse _ hmem rfl⟩
        · exact absurd rfl hclosed
        · exact .inr ⟨rfl, rfl, hlapse _ hmem rfl⟩
        · cases hnone _ hmem
      have hedits := edits_found n hvalid hleave (isComment_seq ..)
        (fun hoperand => hright hoperand ⟨sub, hnear⟩) hcross
      have hshows := Forest.shows_fill.2 h.fold
      have hon : on (backtick id quoted) f = on (close sub) f := by
        simp only [backtick, on_get_bind, hnear]
      unfold Cursor.substitution at hstyle
      split at hstyle
      · cases hstyle
        exact (yields_closeSub hshows rfl).congr hedits hon
      · cases hstyle

theorem yields_join (hn : n ≤ f.size) (op : JoinOp) (target : Bool) (h : f.Shows strays t path)
    (hvalid : Cursor.ValidBelow label (path.map Numbered.Crumb.plain))
    (ht : MayLeave k w t) (hcomment : Cursor.isComment t.plain = false)
    (hfilled : t.plain.isFilled = true) :
    Yields n k w (join t.id op target) f strays (t, path) := by
  obtain ⟨crossed, rest, rfl, hjoins, hoperand⟩ := h.operandTo_crossed op h.length_path_le
  obtain ⟨hedits, hleave⟩ := edits_cross n hvalid ht hcomment (fun _ => .inl hfilled)
    fun crumb hcrumb => leavable_of_join (hjoins crumb hcrumb)
  have hshows := h.fold
  have hfor : f.operandFor op t.id = (fold t crossed).id := hoperand
  by_cases htarget : (target && op.isRedirect) = true
  · refine yields_of_error .unexpectedToken ?_
    simp only [join, htarget, ↓reduceIte, on_throw_bind]
  · cases rest with
    | nil =>
      refine yields_of_error .unknown ?_
      simp only [join, htarget, Bool.false_eq_true, ↓reduceIte, on_get_bind, hfor]
      exact on_bind_error (on_parentOf_root hshows)
    | cons crumb rest =>
      obtain ⟨f', joined, command, hon, hf', hjoined, hcommand⟩ := shows_joined op hshows
      refine yields_of_on ?_ hf' rfl (Edits.steps (hedits.tail (.join crumb rest op
        (Nat.le_trans hn hjoined) (Nat.le_trans hn hcommand) hleave)))
      simp only [join, htarget, Bool.false_eq_true, ↓reduceIte, on_get_bind, hfor]
      rw [on_bind (on_parentOf hshows rfl), on_bind (on_pop hshows)]
      simp only [ne_eq, not_true_eq_false, ↓reduceIte]
      exact hon

/-! ## One token -/

theorem isFilled_command (id : NodeId) (target : Bool) (parts : List Numbered.Tree) :
    (Numbered.Tree.seq id (.command target) parts).plain.isFilled =
      Cursor.hasWords (parts.map Numbered.Tree.plain) := by
  simp [Numbered.Tree.plain, Tree.isFilled, Cursor.hasWords]

theorem yields_feedCommand {target : Bool} (token : Token) (hn : n ≤ f.size)
    (h : f.Shows strays (.seq id (.command target) parts) path)
    (hvalid : Cursor.ValidBelow (.seq (.command target)) (path.map Numbered.Crumb.plain))
    (hcross : token.kind = .backtick →
      Sequence.crossing (sequences (.seq id (.command target) parts, path)) = true → w.cross)
    (habandon : f.Abandons id token.kind → w.abandon) :
    Yields n token.kind w (feedCommand id token) f strays
      (.seq id (.command target) parts, path) := by
  have hshape : f.shape id = .seq (.command target) (parts.map Numbered.Tree.id) := h.shape
  have hoperand : f.isOperand id = Cursor.isOperand (path.map Numbered.Crumb.plain) :=
    h.isOperand_eq
  have hleave : ∀ k, MayLeave k w (.seq id (.command target) parts) := fun k =>
    mayLeave_seq (.inl rfl)
  have hcomment := isComment_seq id (.command target) parts
  have hfilled := isFilled_command id target parts
  rw [← h.hasWords_eq] at hfilled
  -- an operator waits for the command, unless the command holds words
  have hawaits (hpath : Cursor.isOperand (path.map Numbered.Crumb.plain) = true)
      (hk : token.kind = .rparen ∨ token.kind = .backtick ∧
        ∃ sub, f.substitution? id = some (sub, .backtick)) :
      (Numbered.Tree.seq id (.command target) parts).plain.isFilled = true ∨ w.abandon := by
    cases hwords : f.hasWords id with
    | true => exact .inl (hfilled.trans hwords)
    | false =>
      refine .inr (habandon ⟨?_, hk⟩)
      rw [Forest.awaitsWords_of_command hshape, hoperand, hpath, hwords]
      rfl
  have hjoin (hwords : ¬ (!f.hasWords id) = true) (k : TokenKind) (op : JoinOp) :
      Yields n k w (join id op target) f strays (.seq id (.command target) parts, path) := by
    have hfull := hfilled
    rw [show f.hasWords id = true by simpa using hwords] at hfull
    exact yields_join (t := .seq id (.command target) parts) hn op target h hvalid (hleave k)
      hcomment hfull
  refine Yields.congr ?_ .refl (by simp only [feedCommand, on_get_bind, hshape]; rfl)
  split
  case h_1 =>
    split
    · exact yields_pure h
    · rename_i hcond
      refine yields_endStatement h hvalid rfl (hleave _) hcomment fun hpath => .inl ?_
      rw [hfilled]
      simpa [hoperand, hpath] using hcond
  case h_2 =>
    split
    · exact yields_throw _
    · rename_i hcond
      refine yields_endStatement h hvalid rfl (hleave _) hcomment fun _ => .inl ?_
      rw [hfilled]
      simpa using hcond
  case h_3 => exact yields_append hn _ h
  case h_4 =>
    split
    · exact yields_append hn _ h
    · exact yields_pure h
  case h_5 =>
    split
    · exact yields_of_error .unexpectedToken (on_throw_bind _ _)
    · exact yields_addSeq hn _ h
  case h_6 hk =>
    have hright := fun hpath => hawaits hpath (.inl hk)
    rw [hk]
    exact yields_closeParenthesis h hvalid rfl (hleave _) hcomment hright
  case h_7 => exact yields_addLeaf hn _ h
  case h_8 => exact yields_addSeq hn _ h
  case h_9 hk =>
    have hright := fun hpath hsub => hawaits hpath (.inr ⟨hk, hsub⟩)
    rw [hk]
    exact yields_backtick hn h hvalid rfl (hcross hk) hright
  case h_10 => exact yields_addLeaf hn _ h
  case h_11 => exact yields_addSeq hn _ h
  case h_12 => exact yields_addLeaf hn _ h
  case h_13 =>
    split
    · exact yields_of_error .unexpectedToken (on_throw_bind _ _)
    · rename_i hwords
      split
      · exact hjoin hwords _ _
      · exact yields_throw _

theorem yields_feedList (token : Token) (hn : n ≤ f.size)
    (h : f.Shows strays (.seq id kind parts) path)
    (hvalid : Cursor.ValidBelow (.seq kind) (path.map Numbered.Crumb.plain))
    (hkind : Cursor.statementList kind = some ())
    (hcross : token.kind = .backtick →
      Sequence.crossing (sequences (.seq id kind parts, path)) = true → w.cross) :
    Yields n token.kind w (feedList id kind token) f strays (.seq id kind parts, path) := by
  unfold feedList
  split
  iterate 3 exact yields_pure h
  case h_4 closed hk =>
    cases closed with
    | false =>
      rw [hk]
      exact yields_closeGroup h
    | true => cases hkind
  case h_5 hk => exact yields_closeSub h (by simp [hk, Sequence.endsWith])
  case h_6 => exact yields_throw _
  case h_7 hk => exact yields_closeSub h (by simp [hk, Sequence.endsWith])
  case h_8 =>
    obtain ⟨f', hon, hf'⟩ := shows_addChild (.seq f.size (.command false) []) h rfl
      (by simp [Numbered.Tree.inner])
    -- the new command is not beside an operator
    have hnot : ¬ f'.Abandons f.size token.kind := by
      rintro ⟨hawaits, -⟩
      rw [show f'.awaitsWords f.size = _ from hf'.awaitsWords_eq rfl] at hawaits
      cases hawaits
    refine (yields_feedCommand token (Nat.le_trans hn (Nat.le_of_lt hf'.id_lt)) hf'
      ⟨Cursor.admits_command _ hkind, hvalid⟩ (fun hk hcommand => hcross hk ?_)
      (absurd · hnot)).congr (.single (.enter id _ parts path hn ?_)) (on_bind hon)
    · rw [sequences_seq, Sequence.crossing_cons rfl rfl] at hcommand
      rwa [sequences_seq]
    · simp [Numbered.Tree.inner]

theorem yields_feedClosedGroup (token : Token) (hn : n ≤ f.size)
    (h : f.Shows strays (.seq id (.group true) parts) path)
    (hvalid : Cursor.ValidBelow (.seq (.group true)) (path.map Numbered.Crumb.plain)) :
    Yields n token.kind w (feedClosedGroup id token) f strays
      (.seq id (.group true) parts, path) := by
  obtain ⟨older, rest, hpath, hrest⟩ := Cursor.command_of_group hvalid
  obtain ⟨holder, older', rest', rfl, rfl, rfl⟩ := seq_of_plain hpath
  let group : Numbered.Tree := .seq id (.group true) parts
  let command : Numbered.Tree := .seq holder (.command false) (group :: older')
  have hup : f.Shows strays command rest' := Forest.shows_fill.2 h
  have hleave : ∀ k, MayLeave k w command := fun k => mayLeave_seq (.inl rfl)
  have hcomment : Cursor.isComment command.plain = false := isComment_seq ..
  have hfilled : command.plain.isFilled = true :=
    Numbered.isFilled_fill (t := group) (isComment_seq ..)
  -- the group is left first
  have hedits (hk : (Sequence.group true).endsWith token.kind = true) :
      Edits n token.kind w (group, .seq holder (.command false) older' :: rest')
        (command, rest') :=
    .single (.leave _ _ (mayLeave_seq (.inl hk)))
  have hend : on (endStatement id) f = on (endStatement holder) f := by
    have habove : f.statementList? id = f.statementList? holder := by
      rw [Forest.statementList?_eq, Forest.statementList?_eq]
      exact h.nearest?_above rfl
    simp only [endStatement, on_get_bind, habove]
  have hclose : on (closeParenthesis id) f = on (closeParenthesis holder) f := by
    have habove : f.parenthesis? id = f.parenthesis? holder := by
      rw [Forest.parenthesis?_eq, Forest.parenthesis?_eq]
      exact h.nearest?_above rfl
    simp only [closeParenthesis, on_get_bind, habove]
  refine Yields.congr ?_ .refl (on_bind (on_parentOf h rfl))
  split
  case h_1 => exact yields_pure h
  case h_2 hk =>
    exact (yields_endStatement hup hrest rfl (hleave _) hcomment fun _ => .inl hfilled).congr
      (hedits (by rw [hk]; rfl)) hend
  case h_3 hk =>
    exact (yields_endStatement hup hrest rfl (hleave _) hcomment fun _ => .inl hfilled).congr
      (hedits (by rw [hk]; rfl)) hend
  case h_4 hk =>
    have hgroup := hedits (by rw [hk]; rfl)
    rw [hk] at hgroup ⊢
    exact (yields_closeParenthesis hup hrest rfl (hleave _) hcomment fun _ => .inl hfilled).congr
      hgroup hclose
  case h_5 hk => exact (yields_addLeaf hn .comment hup).congr (hedits (by rw [hk]; rfl)) rfl
  case h_6 =>
    split
    · rename_i hop
      exact (yields_join hn _ false hup hrest (hleave _) hcomment hfilled).congr
        (hedits (by simp [Sequence.endsWith, hop])) rfl
    · exact yields_throw _

theorem yields_feedDblQuote (token : Token) (hn : n ≤ f.size)
    (h : f.Shows strays (.seq id .dblQuote parts) path)
    (hvalid : Cursor.ValidBelow (.seq .dblQuote) (path.map Numbered.Crumb.plain))
    (hcross : token.kind = .backtick →
      Sequence.crossing (sequences (.seq id .dblQuote parts, path)) = true → w.cross) :
    Yields n token.kind w (feedDblQuote id token) f strays (.seq id .dblQuote parts, path) := by
  unfold feedDblQuote
  split
  case h_1 hk =>
    rw [hk]
    exact yields_parentOf h rfl (mayLeave_seq (.inl rfl))
  case h_2 => exact yields_addLeaf hn _ h
  case h_3 => exact yields_addSeq hn _ h
  case h_4 hk =>
    rw [hk]
    refine yields_backtick hn h hvalid rfl (hcross hk) fun hoperand => ?_
    obtain ⟨target, hcommand⟩ := Cursor.command_of_operand hvalid hoperand
    cases hcommand
  case h_5 => exact yields_append hn _ h

theorem yields_feedSequence (token : Token) (hn : n ≤ f.size)
    (h : f.Shows strays (.seq id kind parts) path)
    (hvalid : Cursor.ValidBelow (.seq kind) (path.map Numbered.Crumb.plain))
    (hcross : token.kind = .backtick →
      Sequence.crossing (sequences (.seq id kind parts, path)) = true → w.cross)
    (habandon : f.Abandons id token.kind → w.abandon) :
    Yields n token.kind w (feedSequence id token) f strays (.seq id kind parts, path) := by
  have hshape : f.shape id = .seq kind (parts.map Numbered.Tree.id) := h.shape
  have hlist (hkind : Cursor.statementList kind = some ())
      (hon : on (feedSequence id token) f = on (feedList id kind token) f) :
      Yields n token.kind w (feedSequence id token) f strays (.seq id kind parts, path) :=
    (yields_feedList token hn h hvalid hkind hcross).congr .refl hon
  cases kind with
  | script => exact hlist rfl (by simp only [feedSequence, on_get_bind, hshape])
  | group closed =>
    cases closed with
    | false => exact hlist rfl (by simp only [feedSequence, on_get_bind, hshape])
    | true =>
      exact (yields_feedClosedGroup token hn h hvalid).congr .refl
        (by simp only [feedSequence, on_get_bind, hshape])
  | sub style quoted => exact hlist rfl (by simp only [feedSequence, on_get_bind, hshape])
  | command target =>
    exact (yields_feedCommand token hn h hvalid hcross habandon).congr .refl
      (by simp only [feedSequence, on_get_bind, hshape])
  | dblQuote =>
    exact (yields_feedDblQuote token hn h hvalid hcross).congr .refl
      (by simp only [feedSequence, on_get_bind, hshape])

/-- A word goes into a command or between double quotes as it is. -/
theorem on_feedSequence_identifier {token : Token} (h : f.Shows strays (.seq id kind parts) path)
    (hkind : kind.isHolder = true) (htoken : token.kind = .identifier) :
    on (feedSequence id token) f =
      on (do let _ ← addChild id (.leaf (.ident token.value)); return id) f := by
  have hshape : f.shape id = .seq kind (parts.map Numbered.Tree.id) := h.shape
  cases kind with
  | command target =>
    simp only [feedSequence, on_get_bind, hshape, feedCommand, htoken]
  | dblQuote => simp only [feedSequence, on_get_bind, hshape, feedDblQuote, htoken]
  | script | group | sub => cases hkind

theorem yields_feedVariable {name : String} (token : Token) (hn : n ≤ f.size)
    (h : f.Shows strays (.leaf id (.var name)) path)
    (hvalid : Cursor.ValidBelow (.leaf (.var name)) (path.map Numbered.Crumb.plain))
    (hstray : id ∈ strays) (hcross : token.kind = .backtick →
      Sequence.crossing (sequences (.leaf id (.var name), path)) = true → w.cross) :
    Yields n token.kind w (feedVariable id name token) f strays (.leaf id (.var name), path) := by
  obtain ⟨kind, older, rest, hpath, hkind, hrest⟩ := Cursor.holder_of_valid hvalid rfl (by simp)
  obtain ⟨pid, older', rest', rfl, rfl, rfl⟩ := seq_of_plain hpath
  have hparent : on (parentOf id) f = (.ok pid, f) := on_parentOf h rfl
  -- the variable is not among the sequences
  have hcross' (parts : List Numbered.Tree) (hk : token.kind = .backtick)
      (hparts : Sequence.crossing (sequences (.seq pid kind parts, rest')) = true) : w.cross := by
    refine hcross hk ?_
    rwa [sequences_leaf, ← sequences_seq pid kind parts]
  have renamed (name' : String) : (f.setShape id (.leaf (.var name'))).Shows strays
      (.leaf id (.var name')) (.seq pid kind older' :: rest') :=
    shows_setShape (.leaf id (.var name')) h rfl (by simp only [Numbered.Tree.inner])
  have hsize (name' : String) : n ≤ (f.setShape id (.leaf (.var name'))).size := by
    simpa [Forest.setShape, Forest.size] using hn
  -- the parent with another part that is no comment
  have onParent {f' : Forest} {part : Numbered.Tree} (hn' : n ≤ f'.size)
      (hf' : f'.Shows strays (.seq pid kind (part :: older')) rest')
      (hpart : Cursor.isComment part.plain = false) (token' : Token)
      (hkind : token'.kind = token.kind) :
      Yields n token'.kind w (feedSequence pid token') f' strays
        (.seq pid kind (part :: older'), rest') :=
    yields_feedSequence token' hn' hf' hrest (hkind ▸ hcross' _)
      (absurd · (hf'.not_abandons hpart _))
  have hvar (name' : String) :
      Cursor.isComment (Numbered.Tree.leaf id (.var name')).plain = false := by
    simp [Numbered.Tree.plain, Cursor.isComment]
  refine Yields.congr ?_ .refl (on_bind hparent)
  split
  · rename_i hident
    simp only
    generalize name.toList ++ token.value.toList = text
    generalize text.takeWhile isNameChar = matched
    split
    · obtain ⟨hpop, hshows⟩ := shows_pop (renamed _) hstray
      refine (yields_feedSequence { token with value := "$" ++ token.value } ?_ hshows hrest
        (hcross' _) ?_).congr (.single (.drop id name pid kind older' rest'))
        ((on_modify_bind _ _).trans (on_bind hpop))
      · rw [size_detach]
        exact hsize _
      · exact (absurd · (Forest.not_abandons_of_kind (by simp [hident]) (by simp [hident])))
    · refine Yields.congr ?_ (.single (.rewrite id _ (.var (String.ofList matched)) _))
        (on_modify_bind _ _)
      split
      · exact (onParent (hsize _) (Forest.shows_fill.2 (renamed _)) (hvar _)
          { token with value := String.ofList (text.drop matched.length) } rfl).congr
          (.single (.leave _ _ (Numbered.mayLeave_leaf ..))) rfl
      · exact yields_pure (renamed _)
  · split
    · obtain ⟨hpop, hshows⟩ := shows_pop h hstray
      obtain ⟨f', hon, hf', hle⟩ := shows_append (.ident "$") hshows
      have hdollar : on (feedSequence pid ⟨.identifier, "$", token.position⟩) (f.detach pid id) =
          (.ok pid, f') := (on_feedSequence_identifier hshows hkind rfl).trans hon
      have hn' : n ≤ (f.detach pid id).size := by rwa [size_detach]
      refine (onParent (Nat.le_trans hn' hle) hf' ?_ token rfl).congr
        (.tail (.single (.drop id name pid kind older' rest'))
          (.write pid kind older' rest' _ (.ident "$") hn'))
        ((on_bind hpop).trans (on_bind hdollar))
      simp [Numbered.Tree.plain, Cursor.isComment]
    · exact (onParent hn (Forest.shows_fill.2 h) (hvar name) token rfl).congr
        (.single (.leave _ _ (Numbered.mayLeave_leaf ..))) rfl

/-- What a token does to a forest is a sequence of edits. -/
theorem yields_feed {focus : Focus} (token : Token) (h : f.Shows strays t path)
    (hfocus : t.focus? = some focus)
    (hvalid : Cursor.ValidBelow focus.label (path.map Numbered.Crumb.plain))
    (hstray : t.id ∈ strays) :
    Yields f.size token.kind (f.lapses t.id token.kind) (feed t.id token) f strays (t, path) := by
  have hcross (hk : token.kind = .backtick) (hcrosses : f.crosses t.id = true) :
      (f.lapses t.id token.kind).cross := ⟨hk, hcrosses⟩
  have habandon (h : f.Abandons t.id token.kind) : (f.lapses t.id token.kind).abandon := h
  have hshape := h.shape
  have hn : f.size ≤ f.size := Nat.le_refl _
  cases focus with
  | seq kind parts =>
    obtain ⟨id, parts', rfl, rfl⟩ := seq_of_focus hfocus
    rw [h.crosses_eq (by simp [Numbered.Tree.shape]) (by simp [Numbered.Tree.shape])] at hcross
    refine (yields_feedSequence token hn h hvalid hcross habandon).congr .refl ?_
    simp only [feed, on_get_bind, hshape]
    rfl
  | leaf l =>
    obtain ⟨id, rfl⟩ := leaf_of_focus hfocus
    have hshape : f.shape id = .leaf l := hshape
    rcases Cursor.leaf_of_valid hvalid with ⟨name, rfl⟩ | ⟨text, rfl⟩ | rfl
    · rw [h.crosses_eq (by simp [Numbered.Tree.shape]) (by simp [Numbered.Tree.shape])] at hcross
      refine (yields_feedVariable token hn h hvalid hstray hcross).congr .refl ?_
      simp only [feed, on_get_bind, Numbered.Tree.id, hshape]
    · have hset := shows_setShape (.leaf id (.quote token.value)) h rfl
        (by simp only [Numbered.Tree.inner])
      refine (yields_parentOf hset rfl (Numbered.mayLeave_leaf ..)).congr
        (.single (.rewrite id (.quote text) _ path)) ?_
      simp only [feed, on_get_bind, Numbered.Tree.id, hshape, feedQuote, on_modify_bind]
      rfl
    · refine Yields.congr ?_ .refl (show on (feed id token) f = on (feedComment id token) f by
        simp only [feed, on_get_bind, hshape])
      simp only [feedComment]
      split
      · rename_i hk
        obtain ⟨kind, older, rest, hpath, -, hrest⟩ :=
          Cursor.holder_of_valid hvalid rfl (by simp [Focus.label])
        obtain ⟨pid, older', rest', rfl, rfl, rfl⟩ := seq_of_plain hpath
        have hparent : on (parentOf id) f = (.ok pid, f) := on_parentOf h rfl
        have hup : f.Shows strays (.seq pid kind (.leaf id .comment :: older')) rest' :=
          Forest.shows_fill.2 h
        refine (yields_feedSequence token hn hup hrest ?_ ?_).congr
          (.single (.leave _ _ (Numbered.mayLeave_leaf ..))) (on_bind hparent)
        · exact fun hbacktick => absurd (hk.symm.trans hbacktick) (by simp)
        · exact (absurd · (Forest.not_abandons_of_kind (by simp [hk]) (by simp [hk])))
      · exact yields_pure h

end Growth

end PocketShell
