import PocketShell.Proofs.Script.Numbering

/-!
# Forests follow cursors

What the table of nodes goes through when a token is fed is what the cursor goes through.

* `Growth.on` : a change of a forest as a function, with one equation for each construct;
* `Growth.Follows` : a change leads from a forest that shows one cursor to a forest that shows
  another, or fails with the same fault;
* `follows_feed` : `Forest.feed` follows `Cursor.feed` from every valid cursor.

The only node that gets lost is a variable whose `$` turns out to be a literal (`Cursor.drops`).
-/

namespace PocketShell.Growth

open Numbered (nodesAt above pathNodes outermost)

/-! ## Changes as functions -/

section on

variable {α β : Type} {g : Growth α} {k : α → Growth β} {f f' : Forest}

/-- What a change makes of a forest. -/
def on (g : Growth α) (f : Forest) : Except Fault α × Forest := g.run.run f

@[simp] theorem on_pure (a : α) : on (pure a) f = (.ok a, f) := rfl

@[simp] theorem on_throw (cause : Fault) : on (throw cause : Growth α) f = (.error cause, f) := rfl

theorem on_bind {a : α} (h : on g f = (.ok a, f')) : on (g >>= k) f = on (k a) f' := by
  change (ExceptT.bindCont k (on g f).1).run (on g f).2 = _
  rw [h]
  rfl

theorem on_bind_error {cause : Fault} (h : on g f = (.error cause, f')) :
    on (g >>= k) f = (.error cause, f') := by
  change (ExceptT.bindCont k (on g f).1).run (on g f).2 = _
  rw [h]
  rfl

@[simp] theorem on_get_bind (k : Forest → Growth β) : on (get >>= k) f = on (k f) f :=
  on_bind rfl

@[simp] theorem on_set_bind (k : PUnit → Growth β) : on (set f' >>= k) f = on (k ⟨⟩) f' :=
  on_bind rfl

@[simp] theorem on_modify_bind (change : Forest → Forest) (k : PUnit → Growth β) :
    on (modify change >>= k) f = on (k ⟨⟩) (change f) :=
  on_bind rfl

@[simp] theorem on_throw_bind (cause : Fault) (k : α → Growth β) :
    on (throw cause >>= k) f = (.error cause, f) :=
  on_bind_error rfl

end on

/-! ## Single changes -/

variable {f : Forest} {strays : List NodeId} {t : Numbered.Tree} {crumb : Numbered.Crumb}
  {path : List Numbered.Crumb} {id : NodeId} {kind : Sequence} {parts : List Numbered.Tree}
  {es : List (NodeId × Node)} {p : Option NodeId}

theorem on_parentOf {id : NodeId} (h : f.Shows strays t (crumb :: path)) (hid : t.id = id) :
    on (parentOf id) f = (.ok crumb.id, f) := by
  subst hid
  have hparent : f.parent? t.id = some crumb.id := h.parent?
  simp [parentOf, hparent]

theorem refusal?_hollow (crumb : Numbered.Crumb) : crumb.hollow.refusal? = none := by
  cases crumb <;> rfl

/-- A new node goes into the open place of its parent. -/
theorem on_addChild (crumb : Numbered.Crumb) (new : Numbered.Tree)
    (h : f.Holds strays ((crumb.id, ⟨p, crumb.hollow⟩) :: es)) (hid : new.id = f.size) :
    ∃ f', on (addChild crumb.id new.shape) f = (.ok new.id, f') ∧
      f'.Holds strays ((crumb.id, ⟨p, crumb.shape new.id⟩) :: new.entry (some crumb.id) :: es) := by
  have hadd := (h.add new.shape).perm (.swap ..)
  have hshape : (f.add new.shape).1.shape crumb.id = crumb.hollow :=
    congrArg Node.shape (hadd.node List.mem_cons_self)
  refine ⟨(f.add new.shape).1.attach crumb.id f.size, ?_, ?_⟩
  · simp only [addChild, on_get_bind, Forest.addChild, hshape, refusal?_hollow, on_set_bind]
    rw [on_pure, hid]
    rfl
  · rw [Numbered.Tree.entry, hid]
    exact hadd.attach

/-- A new child becomes the context. -/
theorem shows_addChild (new : Numbered.Tree) (h : f.Shows strays (.seq id kind parts) path)
    (hid : new.id = f.size) (hinner : new.inner = []) :
    ∃ f', on (addChild id new.shape) f = (.ok new.id, f') ∧
      f'.Shows strays new (.seq id kind parts :: path) := by
  have hholds : f.Holds strays ((id, ⟨above path, .seq kind (parts.map Numbered.Tree.id)⟩) ::
      ((Numbered.Tree.seq id kind parts).inner ++ pathNodes id path)) := h.holds
  obtain ⟨f', hon, hf'⟩ := on_addChild (.seq id kind parts) new hholds hid
  have hperm : ((id, ⟨above path, .seq kind (new.id :: parts.map Numbered.Tree.id)⟩) ::
      new.entry (some id) :: ((Numbered.Tree.seq id kind parts).inner ++ pathNodes id path)).Perm
      (nodesAt new (.seq id kind parts :: path)) := by
    simp only [nodesAt, Numbered.Tree.nodes, hinner, List.cons_append, List.nil_append, pathNodes,
      Numbered.Crumb.inner, Numbered.Tree.inner]
    exact .swap ..
  exact ⟨f', hon, hf'.perm hperm, h.root⟩

/-- A node may get another shape with the same children. -/
theorem shows_setShape (new : Numbered.Tree) (h : f.Shows strays t path) (hid : new.id = t.id)
    (hinner : new.inner = t.inner) : (f.setShape t.id new.shape).Shows strays new path := by
  have hnodes : nodesAt new path =
      (t.id, ⟨above path, new.shape⟩) :: (t.inner ++ pathNodes t.id path) := by
    rw [nodesAt, Numbered.Tree.nodes, Numbered.Tree.entry, hid, hinner, List.cons_append]
  have hholds : f.Holds strays ((t.id, ⟨above path, t.shape⟩) :: (t.inner ++ pathNodes t.id path)) :=
    h.holds
  refine ⟨?_, by rw [hid]; exact h.root⟩
  rw [hnodes]
  exact hholds.setShape new.shape

theorem removable_shape (crumb : Numbered.Crumb) (child : NodeId) :
    (crumb.shape child).removable = .ok child := by
  cases crumb <;> rfl

theorem on_pop (h : f.Shows strays t (crumb :: path)) :
    on (pop crumb.id) f = (.ok t.id, f.detach crumb.id t.id) := by
  simp only [pop, on_get_bind, h.shape_crumb, removable_shape, on_modify_bind, on_pure]

/-- The entries around the open place of a crumb. -/
theorem perm_nodesAt_cons (t : Numbered.Tree) (crumb : Numbered.Crumb)
    (path : List Numbered.Crumb) :
    (nodesAt t (crumb :: path)).Perm ((crumb.id, ⟨above path, crumb.shape t.id⟩) ::
      (t.id, ⟨some crumb.id, t.shape⟩) :: (t.inner ++ (crumb.inner ++ pathNodes crumb.id path))) := by
  simp only [nodesAt, Numbered.Tree.nodes, Numbered.Tree.entry, pathNodes, above, List.head?_cons,
    Option.map_some]
  grind

/-- A variable that is taken away leaves its parent as the context. -/
theorem shows_pop {name : String} {older : List Numbered.Tree} {pid : NodeId}
    (h : f.Shows strays (.leaf id (.var name)) (.seq pid kind older :: path)) (hid : id ∈ strays) :
    on (pop pid) f = (.ok id, f.detach pid id) ∧
      (f.detach pid id).Shows strays (.seq pid kind older) path := by
  have hpop := on_pop h
  refine ⟨hpop, ?_⟩
  let crumb : Numbered.Crumb := .seq pid kind older
  have hperm := perm_nodesAt_cons (.leaf id (.var name)) crumb path
  have hnodes : nodesAt (.seq pid kind older) path = (pid, ⟨above path, crumb.hollow⟩) ::
      ((Numbered.Tree.leaf id (.var name)).inner ++ (crumb.inner ++ pathNodes pid path)) := by
    simp only [nodesAt, Numbered.Tree.nodes, Numbered.Tree.inner, List.nil_append]
    rfl
  refine ⟨?_, h.root⟩
  rw [hnodes]
  exact ((h.holds.perm hperm).detach.perm (.swap ..)).forget hid

theorem on_push (child : NodeId) (h : f.shape crumb.id = crumb.hollow) :
    on (push crumb.id child) f = (.ok ⟨⟩, f.attach crumb.id child) := by
  simp only [push, on_get_bind, h, refusal?_hollow]
  rfl

theorem on_addJoin (op : JoinOp) (left : NodeId) :
    on (addJoin op left) f = (.ok f.size,
      (f.add (.join op left none)).1.setParent left (some f.size)) := rfl

theorem size_attach (f : Forest) (parent child : NodeId) :
    (f.attach parent child).size = f.size := by
  unfold Forest.attach
  split <;> simp [Forest.size, Forest.setShape, Forest.setParent]

theorem size_detach (f : Forest) (parent child : NodeId) :
    (f.detach parent child).size = f.size := by
  unfold Forest.detach
  split <;> simp [Forest.size, Forest.setShape, Forest.setParent]

/-- The steps of a join, once its left operand has been taken away: it gets into the place of its
operand, and an empty command onto its right. Both are new nodes. -/
theorem shows_joined (op : JoinOp) (h : f.Shows strays t (crumb :: path)) :
    ∃ f' joined command, on (do
        let joined ← addJoin op t.id
        push crumb.id joined
        addChild joined (.seq (.command op.isRedirect) [])) (f.detach crumb.id t.id) =
          (.ok command, f') ∧
      f'.Shows strays (.seq command (.command op.isRedirect) [])
        (.join joined op t :: crumb :: path) ∧ f.size ≤ joined ∧ f.size ≤ command := by
  have hperm := perm_nodesAt_cons t crumb path
  have hdetached := (h.holds.perm hperm).detach
  rw [← size_detach f crumb.id t.id]
  generalize f.detach crumb.id t.id = f₁ at hdetached ⊢
  generalize hrest : t.inner ++ (crumb.inner ++ pathNodes crumb.id path) = rest at hdetached hperm
  -- the entries are brought into the order in which the steps change them
  have hadded : (f₁.add (.join op t.id none)).1.Holds strays ((t.id, ⟨none, t.shape⟩) ::
      (f₁.size, ⟨none, .join op t.id none⟩) :: (crumb.id, ⟨above path, crumb.hollow⟩) :: rest) :=
    (hdetached.add (.join op t.id none)).perm (by grind)
  have hmoved := hadded.setParent (some f₁.size)
  generalize hf₂ : (f₁.add (.join op t.id none)).1.setParent t.id (some f₁.size) = f₂ at hmoved
  have hhollow : f₂.Holds strays ((crumb.id, ⟨above path, crumb.hollow⟩) ::
      (f₁.size, ⟨none, .join op t.id none⟩) :: (t.id, ⟨some f₁.size, t.shape⟩) :: rest) :=
    hmoved.perm (by grind)
  have hshape : f₂.shape crumb.id = crumb.hollow :=
    congrArg Node.shape (hhollow.node List.mem_cons_self)
  let command : Numbered.Tree :=
    .seq (f₂.attach crumb.id f₁.size).size (.command op.isRedirect) []
  obtain ⟨f₃, hon, hf₃⟩ := on_addChild (.join f₁.size op t) command
    (hhollow.attach.perm (.swap ..)) rfl
  have hnodes : (nodesAt command (.join f₁.size op t :: crumb :: path)).Perm
      ((f₁.size, ⟨some crumb.id, .join op t.id (some command.id)⟩) ::
        command.entry (some f₁.size) :: (crumb.id, ⟨above path, crumb.shape f₁.size⟩) ::
        (t.id, ⟨some f₁.size, t.shape⟩) :: rest) := by
    have houter := perm_nodesAt_cons command (.join f₁.size op t) (crumb :: path)
    rw [show command.inner = [] by simp [command, Numbered.Tree.inner], List.nil_append] at houter
    refine houter.trans ((List.Perm.cons _ ?_).cons _)
    rw [← hrest]
    exact (List.perm_middle.cons _).trans (.swap ..)
  have hsize : command.id = f₁.size + 1 := by
    rw [show command.id = (f₂.attach crumb.id f₁.size).size from rfl, size_attach, ← hf₂]
    simp [Forest.size, Forest.setParent, Forest.add]
  have hle : f₁.size ≤ command.id := by
    rw [hsize]
    exact Nat.le_succ _
  refine ⟨f₃, f₁.size, command.id, ?_, ⟨hf₃.perm hnodes.symm, h.root⟩, Nat.le_refl _, hle⟩
  rw [on_bind (on_addJoin op t.id), hf₂, on_bind (on_push f₁.size hshape)]
  exact hon

end PocketShell.Growth

namespace PocketShell

/-- A node that receives tokens, as a focus. -/
def Numbered.Tree.focus? : Numbered.Tree → Option Focus
  | .seq _ kind parts => some (.seq kind (parts.map plain))
  | .leaf _ l => some (.leaf l)
  | .join .. => none

theorem plain_of_focus {t : Numbered.Tree} {focus : Focus} (h : t.focus? = some focus) :
    t.plain = focus.tree := by
  cases t with
  | join id op left right => simp [Numbered.Tree.focus?] at h
  | seq id kind parts
  | leaf id l =>
    obtain rfl : _ = focus := Option.some.inj h
    simp [Numbered.Tree.plain, Focus.tree]

/-- A forest shows a cursor, with this node as its focus. -/
def Forest.At (f : Forest) (strays : List NodeId) (context : NodeId) (c : Cursor) : Prop :=
  ∃ t path, f.Shows strays t path ∧ t.id = context ∧ t.focus? = some c.focus ∧
    path.map Numbered.Crumb.plain = c.path

namespace Growth

open Numbered (nodesAt above pathNodes outermost)

/-- A change gives a forest that shows a cursor, or the fault that there is instead of it. -/
def Follows (g : Growth NodeId) (f : Forest) (strays : List NodeId) : Except Fault Cursor → Prop
  | .ok c => ∃ f' context, g.on f = (.ok context, f') ∧ f'.At strays context c
  | .error cause => ∃ f', g.on f = (.error cause, f')

variable {f : Forest} {strays : List NodeId} {t : Numbered.Tree} {path : List Numbered.Crumb}
  {id : NodeId} {kind : Sequence} {parts : List Numbered.Tree} {label : Tree.Label}

theorem follows_pure {c : Cursor} (h : f.Shows strays t path) (hfocus : t.focus? = some c.focus)
    (hpath : path.map Numbered.Crumb.plain = c.path) : Follows (pure t.id) f strays (.ok c) :=
  ⟨f, t.id, rfl, t, path, h, rfl, hfocus, hpath⟩

theorem follows_throw (cause : Fault) : Follows (throw cause) f strays (.error cause) := ⟨f, rfl⟩

/-- Changes that do the same follow the same. -/
theorem Follows.congr {g g' : Growth NodeId} {f' : Forest} {r : Except Fault Cursor}
    (h : Follows g' f' strays r) (hon : g.on f = g'.on f') : Follows g f strays r := by
  cases r <;> simpa only [Follows, hon] using h

/-! ## Closing and joining -/

theorem seq_of_plain {older : List Tree} {rest : List Crumb}
    (h : path.map Numbered.Crumb.plain = .seq kind older :: rest) :
    ∃ id older' rest', path = .seq id kind older' :: rest' ∧
      older'.map Numbered.Tree.plain = older ∧ rest'.map Numbered.Crumb.plain = rest := by
  cases path with
  | nil => simp at h
  | cons crumb path =>
    cases crumb with
    | join id op left => simp [Numbered.Crumb.plain] at h
    | seq id k older' =>
      simp only [List.map_cons, Numbered.Crumb.plain, List.cons.injEq, Crumb.seq.injEq] at h
      obtain ⟨⟨rfl, rfl⟩, rfl⟩ := h
      exact ⟨id, older', path, rfl, rfl, rfl⟩

theorem seq_of_focus {ts : List Tree} (h : t.focus? = some (.seq kind ts)) :
    ∃ id parts, t = .seq id kind parts ∧ parts.map Numbered.Tree.plain = ts := by
  cases t with
  | seq id k parts =>
    simp only [Numbered.Tree.focus?, Option.some.injEq, Focus.seq.injEq] at h
    obtain ⟨rfl, rfl⟩ := h
    exact ⟨id, parts, rfl, rfl⟩
  | join | leaf => simp [Numbered.Tree.focus?] at h

theorem leaf_of_focus {l : Leaf} (h : t.focus? = some (.leaf l)) : ∃ id, t = .leaf id l := by
  cases t with
  | leaf id l' =>
    simp only [Numbered.Tree.focus?, Option.some.injEq, Focus.leaf.injEq] at h
    exact ⟨id, h ▸ rfl⟩
  | join | seq => simp [Numbered.Tree.focus?] at h

theorem follows_parentOf (h : f.Shows strays t path)
    (hvalid : Cursor.ValidBelow label (path.map Numbered.Crumb.plain))
    (hlabel : label.isStatement = false) (hscript : label ≠ .seq .script) :
    Follows (parentOf t.id) f strays (Cursor.leave t.plain (path.map Numbered.Crumb.plain)) := by
  obtain ⟨kind, older, rest, hpath, -, -⟩ := Cursor.holder_of_valid hvalid hlabel hscript
  obtain ⟨id, older', rest', rfl, rfl, rfl⟩ := seq_of_plain hpath
  refine ⟨f, id, on_parentOf h rfl, _, _, Forest.shows_fill.2 h, rfl, ?_, rfl⟩
  simp [Numbered.Crumb.fill, Numbered.Tree.focus?]

theorem follows_close (h : f.Shows strays (.seq id kind parts) path)
    (hvalid : Cursor.ValidBelow (.seq kind) (path.map Numbered.Crumb.plain)) :
    Follows (close id) f strays
      (Cursor.close kind (parts.map Numbered.Tree.plain) (path.map Numbered.Crumb.plain)) := by
  have hshape : f.shape id = .seq kind (parts.map Numbered.Tree.id) := h.shape
  cases kind with
  | group closed =>
    refine ⟨_, id, ?_, _, path, shows_setShape (.seq id (.group true) parts) h rfl ?_, rfl,
      rfl, rfl⟩
    · simp only [close, on_get_bind, hshape, on_modify_bind]
      rfl
    · simp only [Numbered.Tree.inner]
  | sub style quoted =>
    have hleave := follows_parentOf h hvalid rfl (by simp)
    rw [Numbered.Tree.plain] at hleave
    refine hleave.congr ?_
    simp only [close, on_get_bind, hshape]
    rfl
  | script | command | dblQuote =>
    refine ⟨f, ?_⟩
    simp only [close, on_get_bind, hshape, on_throw]

theorem follows_closeParenthesis (h : f.Shows strays t path)
    (hvalid : Cursor.ValidBelow label (path.map Numbered.Crumb.plain)) :
    Follows (closeParenthesis t.id) f strays
      (Cursor.closeParenthesis t.plain (path.map Numbered.Crumb.plain)) := by
  have hup := h.nearest?_eq_ascend Cursor.parenthesis fun p => Except.map fun _ => p
  rw [← Forest.parenthesis?_eq] at hup
  unfold Cursor.closeParenthesis
  split <;> rename_i hascend <;> rw [hascend] at hup
  · obtain ⟨id, parts', rest', hnear, hshows, rfl, rfl⟩ := hup
    refine (follows_close hshows (Cursor.validBelow_ascend hvalid hascend).2).congr ?_
    simp only [closeParenthesis, on_get_bind, hnear, Except.map]
  · obtain ⟨id, -, -, hnear, -⟩ := hup
    refine ⟨f, ?_⟩
    simp only [closeParenthesis, on_get_bind, hnear, Except.map, on_throw]
  · refine ⟨f, ?_⟩
    simp only [closeParenthesis, on_get_bind, hup, on_throw]

theorem follows_backtick {quoted : Bool} (h : f.Shows strays (.seq id kind parts) path)
    (hvalid : Cursor.ValidBelow (.seq kind) (path.map Numbered.Crumb.plain)) :
    Follows (backtick id quoted) f strays (Cursor.backtick kind (parts.map Numbered.Tree.plain)
      (path.map Numbered.Crumb.plain) quoted) := by
  have hup := h.nearest?_eq_ascend Cursor.substitution Prod.mk
  rw [← Forest.substitution?_eq, Numbered.Tree.plain] at hup
  unfold Cursor.backtick
  split
  · rename_i hascend
    rw [hascend] at hup
    obtain ⟨sub, parts', rest', hnear, hshows, rfl, rfl⟩ := hup
    refine (follows_close hshows (Cursor.validBelow_ascend hvalid hascend).2).congr ?_
    simp only [backtick, on_get_bind, show f.substitution? id = _ from hnear]
  · rename_i hascend
    obtain ⟨f', hon, hf'⟩ := shows_addChild (.seq f.size (.sub .backtick quoted) []) h rfl
      (by simp [Numbered.Tree.inner])
    refine ⟨f', f.size, ?_, _, _, hf', rfl, rfl, rfl⟩
    -- the substitution around, if any, was not begun by a backtick
    have hnear : ∀ sub, f.substitution? id ≠ some (sub, .backtick) := by
      intro sub hsub
      cases hr : Cursor.ascend Cursor.substitution
        (.seq kind (parts.map Numbered.Tree.plain).reverse) (path.map Numbered.Crumb.plain) with
      | none =>
        rw [hr] at hup
        simp [show f.substitution? id = none from hup] at hsub
      | some found =>
        obtain ⟨style, kind', parts', rest'⟩ := found
        rw [hr] at hup
        obtain ⟨sub', -, -, hsub', -⟩ := hup
        rw [show f.substitution? id = _ from hsub', Option.some.injEq, Prod.mk.injEq] at hsub
        obtain ⟨rfl, rfl⟩ := hsub
        exact hascend kind' parts' rest' hr
    simp only [backtick, on_get_bind]
    exact hon

theorem follows_endStatement (h : f.Shows strays t path) :
    Follows (endStatement t.id) f strays
      (Cursor.endStatement t.plain (path.map Numbered.Crumb.plain)) := by
  have hup := h.nearest?_eq_ascend Cursor.statementList fun p _ => p
  rw [← Forest.statementList?_eq] at hup
  unfold Cursor.endStatement
  split <;> rename_i hascend <;> rw [hascend] at hup
  · obtain ⟨id, parts', rest', hnear, hshows, rfl, rfl⟩ := hup
    refine ⟨f, id, ?_, _, rest', hshows, rfl, rfl, rfl⟩
    simp only [endStatement, on_get_bind, hnear, on_pure]
  · refine ⟨f, ?_⟩
    simp only [endStatement, on_get_bind, hup, on_throw]

theorem follows_join (op : JoinOp) (target : Bool) (h : f.Shows strays t path)
    (hvalid : Cursor.ValidBelow label (path.map Numbered.Crumb.plain))
    (hlabel : label.isStatement = true) :
    Follows (join t.id op target) f strays
      (Cursor.join t.plain (path.map Numbered.Crumb.plain) op target) := by
  obtain ⟨operand, rest, hoperand, hshows, hwidest⟩ := h.operandTo_eq_widest op h.length_path_le
  have hrest := Cursor.validBelow_widest op t.plain hvalid hlabel
  rw [hwidest] at hrest
  unfold Cursor.join
  split
  · rename_i htarget
    exact ⟨f, by simp only [join, htarget, ↓reduceIte, on_throw_bind]⟩
  · rename_i htarget
    rw [hwidest]
    cases rest with
    | nil => simp [Cursor.ValidBelow] at hrest
    | cons crumb rest =>
      obtain ⟨f', joined, command, hon, hf', -, -⟩ := shows_joined op hshows
      refine ⟨f', command, ?_, _, _, hf', rfl, rfl, rfl⟩
      have hfor : f.operandFor op t.id = operand.id := hoperand
      simp only [join, htarget, Bool.false_eq_true, ↓reduceIte, on_get_bind, hfor]
      rw [on_bind (on_parentOf hshows rfl), on_bind (on_pop hshows)]
      simp only [ne_eq, not_true_eq_false, ↓reduceIte]
      exact hon

/-! ## One token -/

/-- A new child of the context becomes the context. -/
theorem follows_addChild (new : Numbered.Tree) {focus : Focus}
    (h : f.Shows strays (.seq id kind parts) path) (hid : new.id = f.size)
    (hinner : new.inner = []) (hfocus : new.focus? = some focus) :
    Follows (addChild id new.shape) f strays (.ok ⟨focus,
      .seq kind (parts.map Numbered.Tree.plain) :: path.map Numbered.Crumb.plain⟩) := by
  obtain ⟨f', hon, hf'⟩ := shows_addChild new h hid hinner
  exact ⟨f', new.id, hon, new, _, hf', rfl, hfocus, rfl⟩

theorem follows_addLeaf (l : Leaf) (h : f.Shows strays (.seq id kind parts) path) :
    Follows (addChild id (.leaf l)) f strays (.ok ⟨.leaf l,
      .seq kind (parts.map Numbered.Tree.plain) :: path.map Numbered.Crumb.plain⟩) :=
  follows_addChild (.leaf f.size l) h rfl (by simp [Numbered.Tree.inner]) rfl

theorem follows_addSeq (k : Sequence) (h : f.Shows strays (.seq id kind parts) path) :
    Follows (addChild id (.seq k [])) f strays (.ok ⟨.seq k [],
      .seq kind (parts.map Numbered.Tree.plain) :: path.map Numbered.Crumb.plain⟩) :=
  follows_addChild (.seq f.size k []) h rfl (by simp [Numbered.Tree.inner]) rfl

/-- A new leaf below the context, which stays the context. -/
theorem follows_append (l : Leaf) (h : f.Shows strays (.seq id kind parts) path) :
    Follows (do let _ ← addChild id (.leaf l); return id) f strays (.ok ⟨.seq kind
      (.leaf l :: parts.map Numbered.Tree.plain), path.map Numbered.Crumb.plain⟩) := by
  obtain ⟨f', hon, hf'⟩ := shows_addChild (.leaf f.size l) h rfl (by simp [Numbered.Tree.inner])
  refine ⟨f', id, ?_, _, _, Forest.shows_fill.2 hf', rfl, ?_, rfl⟩
  · rw [on_bind (show on (addChild id (.leaf l)) f = _ from hon), on_pure]
  · simp [Numbered.Crumb.fill, Numbered.Tree.focus?, Numbered.Tree.plain]

theorem follows_feedCommand {target : Bool} (token : Token)
    (h : f.Shows strays (.seq id (.command target) parts) path)
    (hvalid : Cursor.ValidBelow (.seq (.command target)) (path.map Numbered.Crumb.plain)) :
    Follows (feedCommand id token) f strays (Cursor.feedCommand target
      (parts.map Numbered.Tree.plain) (path.map Numbered.Crumb.plain) token) := by
  have hshape : f.shape id = .seq (.command target) (parts.map Numbered.Tree.id) := h.shape
  have hoperand : f.isOperand id = Cursor.isOperand (path.map Numbered.Crumb.plain) :=
    h.isOperand_eq
  have hplain : (Numbered.Tree.seq id (.command target) parts).plain =
      .seq (.command target) (parts.map Numbered.Tree.plain).reverse := by rw [Numbered.Tree.plain]
  have hend := follows_endStatement h
  rw [hplain] at hend
  have hjoin : ∀ op, Follows (join id op target) f strays (Cursor.join (.seq (.command target)
      (parts.map Numbered.Tree.plain).reverse) (path.map Numbered.Crumb.plain) op target) := by
    intro op
    have := follows_join op target h hvalid rfl
    rwa [hplain] at this
  obtain ⟨tokenKind, value, position⟩ := token
  cases tokenKind
  all_goals
    simp only [Cursor.feedCommand]
    refine Follows.congr ?_ (by simp only [feedCommand, on_get_bind, hshape]; rfl)
  case newline =>
    rw [h.hasWords_eq, hoperand]
    split
    · exact follows_pure h rfl rfl
    · exact hend
  case semicolon =>
    rw [h.hasWords_eq]
    split
    · exact follows_throw _
    · exact hend
  case identifier => exact follows_append _ h
  case whitespace =>
    rw [h.endsInWord_eq]
    split
    · exact follows_append _ h
    · exact follows_pure h rfl rfl
  case lparen =>
    rw [h.hasWords_eq, Bool.not_not]
    split
    · exact ⟨f, rfl⟩
    · exact follows_addSeq _ h
  case rparen =>
    rw [← hplain]
    exact follows_closeParenthesis h hvalid
  case dollar => exact follows_addLeaf _ h
  case dollarParen => exact follows_addSeq _ h
  case backtick => exact follows_backtick h hvalid
  case quote => exact follows_addLeaf _ h
  case dblQuote => exact follows_addSeq _ h
  case hash => exact follows_addLeaf _ h
  all_goals
    rw [h.hasWords_eq]
    split
    · exact ⟨f, rfl⟩
    · generalize JoinOp.ofToken? _ = joined
      cases joined with
      | none => exact follows_throw _
      | some op => exact hjoin op

theorem follows_feedList {token : Token} (h : f.Shows strays (.seq id kind parts) path)
    (hvalid : Cursor.ValidBelow (.seq kind) (path.map Numbered.Crumb.plain))
    (hkind : Cursor.statementList kind = some ()) :
    Follows (feedList id kind token) f strays (Cursor.feedList kind
      (parts.map Numbered.Tree.plain) (path.map Numbered.Crumb.plain) token) := by
  unfold feedList
  split
  case h_1 hk => simp only [Cursor.feedList, hk]; exact follows_pure h rfl rfl
  case h_2 hk => simp only [Cursor.feedList, hk]; exact follows_pure h rfl rfl
  case h_3 hk => simp only [Cursor.feedList, hk]; exact follows_pure h rfl rfl
  case h_4 hk => simp only [Cursor.feedList, hk]; exact follows_close h hvalid
  case h_5 hk => simp only [Cursor.feedList, hk]; exact follows_close h hvalid
  case h_6 hk hgroup hsub => simp only [Cursor.feedList, hk]; exact follows_throw _
  case h_7 hk => simp only [Cursor.feedList, hk]; exact follows_close h hvalid
  case h_8 =>
    obtain ⟨f', hon, hf'⟩ := shows_addChild (.seq f.size (.command false) []) h rfl
      (by simp [Numbered.Tree.inner])
    have hcommand := follows_feedCommand token hf'
      ⟨Cursor.admits_command _ hkind, hvalid⟩
    simp only [Cursor.feedList]
    exact hcommand.congr (on_bind hon)

theorem follows_feedClosedGroup {token : Token}
    (h : f.Shows strays (.seq id (.group true) parts) path)
    (hvalid : Cursor.ValidBelow (.seq (.group true)) (path.map Numbered.Crumb.plain)) :
    Follows (feedClosedGroup id token) f strays (Cursor.feedClosedGroup
      (parts.map Numbered.Tree.plain) (path.map Numbered.Crumb.plain) token) := by
  obtain ⟨older, rest, hpath, hrest⟩ := Cursor.command_of_group hvalid
  obtain ⟨holder, older', rest', rfl, rfl, rfl⟩ := seq_of_plain hpath
  have hplain : (Numbered.Tree.seq id (.group true) parts).plain =
      .seq (.group true) (parts.map Numbered.Tree.plain).reverse := by rw [Numbered.Tree.plain]
  have hup : f.Shows strays (.seq holder (.command false) (.seq id (.group true) parts :: older'))
      rest' := Forest.shows_fill.2 h
  have hend := follows_endStatement h
  have hclose := follows_closeParenthesis h hvalid
  have hcomment := follows_addLeaf .comment hup
  rw [hplain] at hend hclose
  rw [List.map_cons, hplain] at hcomment
  have hjoin : ∀ op, Follows (join holder op false) f strays (Cursor.join (.seq (.command false)
      (.seq (.group true) (parts.map Numbered.Tree.plain).reverse ::
        older'.map Numbered.Tree.plain).reverse) (rest'.map Numbered.Crumb.plain) op false) := by
    intro op
    have := follows_join op false hup hrest rfl
    rwa [Numbered.Tree.plain, List.map_cons, hplain] at this
  refine Follows.congr ?_ (on_bind (on_parentOf h rfl))
  obtain ⟨tokenKind, value, position⟩ := token
  cases tokenKind
  case whitespace => exact follows_pure h rfl rfl
  case newline => exact hend
  case semicolon => exact hend
  case rparen => exact hclose
  case hash => exact hcomment
  all_goals
    simp only [Cursor.feedClosedGroup, List.map_cons, Numbered.Crumb.plain]
    generalize JoinOp.ofToken? _ = joined
    cases joined with
    | none => exact follows_throw _
    | some op => exact hjoin op

theorem follows_feedDblQuote {token : Token} (h : f.Shows strays (.seq id .dblQuote parts) path)
    (hvalid : Cursor.ValidBelow (.seq .dblQuote) (path.map Numbered.Crumb.plain)) :
    Follows (feedDblQuote id token) f strays (Cursor.feedDblQuote
      (parts.map Numbered.Tree.plain) (path.map Numbered.Crumb.plain) token) := by
  have hleave := follows_parentOf h hvalid rfl (by simp)
  rw [Numbered.Tree.plain] at hleave
  obtain ⟨tokenKind, value, position⟩ := token
  cases tokenKind
  case dblQuote => exact hleave
  case dollar => exact follows_addLeaf _ h
  case dollarParen => exact follows_addSeq _ h
  case backtick => exact follows_backtick h hvalid
  all_goals exact follows_append _ h

theorem follows_feedSequence (token : Token) (h : f.Shows strays (.seq id kind parts) path)
    (hvalid : Cursor.ValidBelow (.seq kind) (path.map Numbered.Crumb.plain)) :
    Follows (feedSequence id token) f strays (Cursor.feedSequence kind
      (parts.map Numbered.Tree.plain) (path.map Numbered.Crumb.plain) token) := by
  have hshape : f.shape id = .seq kind (parts.map Numbered.Tree.id) := h.shape
  cases kind with
  | script =>
    exact (follows_feedList h hvalid rfl).congr (by simp only [feedSequence, on_get_bind, hshape])
  | group closed =>
    cases closed with
    | false =>
      exact (follows_feedList h hvalid rfl).congr
        (by simp only [feedSequence, on_get_bind, hshape])
    | true =>
      exact (follows_feedClosedGroup h hvalid).congr
        (by simp only [feedSequence, on_get_bind, hshape])
  | sub style quoted =>
    exact (follows_feedList h hvalid rfl).congr (by simp only [feedSequence, on_get_bind, hshape])
  | command target =>
    exact (follows_feedCommand token h hvalid).congr
      (by simp only [feedSequence, on_get_bind, hshape])
  | dblQuote =>
    exact (follows_feedDblQuote h hvalid).congr (by simp only [feedSequence, on_get_bind, hshape])

theorem follows_feedFocus {c : Cursor} {context : NodeId} {token : Token}
    (h : f.At strays context c) (hvalid : c.Valid) (hfocus : ∃ kind parts, c.focus = .seq kind parts) :
    Follows (feedSequence context token) f strays (c.feedFocus token) := by
  obtain ⟨focus, path⟩ := c
  obtain ⟨kind, parts, rfl⟩ := hfocus
  obtain ⟨t, path, hshows, rfl, ht, rfl⟩ := h
  obtain ⟨id, parts, rfl, rfl⟩ := seq_of_focus ht
  exact follows_feedSequence token hshows hvalid

theorem follows_feedVariable {name : String} {token : Token}
    (h : f.Shows strays (.leaf id (.var name)) path)
    (hvalid : Cursor.ValidBelow (.leaf (.var name)) (path.map Numbered.Crumb.plain))
    (hstray : Cursor.literalDollar name token = true → id ∈ strays) :
    Follows (feedVariable id name token) f strays
      (Cursor.feedVariable name (path.map Numbered.Crumb.plain) token) := by
  obtain ⟨kind, older, rest, hpath, hkind, hrest⟩ := Cursor.holder_of_valid hvalid rfl (by simp)
  obtain ⟨pid, older', rest', rfl, rfl, rfl⟩ := seq_of_plain hpath
  have hparent : on (parentOf id) f = (.ok pid, f) := on_parentOf h rfl
  have renamed : ∀ name' : String, (f.setShape id (.leaf (.var name'))).Shows strays
      (.leaf id (.var name')) (.seq pid kind older' :: rest') := fun name' =>
    shows_setShape (.leaf id (.var name')) h rfl (by simp only [Numbered.Tree.inner])
  -- the parent with the variable as its last child
  have onParent : ∀ {f' : Forest} {name' : String}, f'.Shows strays (.leaf id (.var name'))
      (.seq pid kind older' :: rest') → ∀ token', Follows (feedSequence pid token') f' strays
        (Cursor.feedSequence kind (.leaf (.var name') :: older'.map Numbered.Tree.plain)
          (rest'.map Numbered.Crumb.plain) token') := by
    intro f' name' hf' token'
    have hup : f'.Shows strays (.seq pid kind (.leaf id (.var name') :: older')) rest' :=
      Forest.shows_fill.2 hf'
    have := follows_feedSequence token' hup hrest
    rwa [List.map_cons, Numbered.Tree.plain] at this
  simp only [Cursor.feedVariable, List.map_cons, Numbered.Crumb.plain]
  refine Follows.congr ?_ (on_bind hparent)
  split
  · rename_i hident
    simp only
    split
    · rename_i hmatched
      have hid : id ∈ strays := hstray (by rw [Cursor.literalDollar, if_pos hident, hmatched])
      obtain ⟨hpop, hshows⟩ := shows_pop (renamed _) hid
      exact (follows_feedSequence _ hshows hrest).congr
        ((on_modify_bind _ _).trans (on_bind hpop))
    · refine Follows.congr ?_ (on_modify_bind _ _)
      split
      · exact onParent (renamed _) _
      · exact follows_pure (renamed _) rfl rfl
  · rename_i hident
    split
    · rename_i hname
      have hid : id ∈ strays := hstray (by rw [Cursor.literalDollar, if_neg hident, hname])
      obtain ⟨hpop, hshows⟩ := shows_pop h hid
      refine Follows.congr ?_ (on_bind hpop)
      -- the literal goes to a command or a text in double quotes, which then gets the token
      have hdollar := follows_feedSequence ⟨.identifier, "$", token.position⟩ hshows hrest
      rw [Cursor.feedSequence_identifier hkind rfl] at hdollar ⊢
      obtain ⟨f', context, hon, hf'⟩ := hdollar
      exact (follows_feedFocus hf' hrest ⟨_, _, rfl⟩).congr (on_bind hon)
    · exact onParent h _

/-- What a token does to a forest is what it does to the cursor that the forest shows. -/
theorem follows_feed {c : Cursor} {context : NodeId} {token : Token} (h : f.At strays context c)
    (hvalid : c.Valid) (hstray : c.drops token = true → context ∈ strays) :
    Follows (feed context token) f strays (c.feed token) := by
  obtain ⟨focus, plainPath⟩ := c
  have hat := h
  obtain ⟨t, path, hshows, rfl, hfocus, hpath⟩ := h
  obtain rfl : path.map Numbered.Crumb.plain = plainPath := hpath
  have hshape := hshows.shape
  cases focus with
  | seq kind parts =>
    refine (follows_feedFocus hat hvalid ⟨kind, parts, rfl⟩).congr ?_
    obtain ⟨id, parts', rfl, rfl⟩ := seq_of_focus hfocus
    simp only [feed, on_get_bind, hshape]
    rfl
  | leaf l =>
    obtain ⟨id, rfl⟩ := leaf_of_focus hfocus
    have hshape : f.shape id = .leaf l := hshape
    rcases Cursor.leaf_of_valid hvalid with ⟨name, rfl⟩ | ⟨text, rfl⟩ | rfl
    · refine (follows_feedVariable hshows hvalid hstray).congr ?_
      simp only [feed, on_get_bind, Numbered.Tree.id, hshape]
    · have hset := shows_setShape (.leaf id (.quote token.value)) hshows rfl
        (by simp only [Numbered.Tree.inner])
      have hleave := follows_parentOf hset hvalid rfl (by simp [Focus.label])
      rw [Numbered.Tree.plain] at hleave
      refine hleave.congr ?_
      simp only [feed, on_get_bind, Numbered.Tree.id, hshape, feedQuote, on_modify_bind]
      rfl
    · refine Follows.congr ?_ (show on (feed id token) f = on (feedComment id token) f by
        simp only [feed, on_get_bind, hshape])
      simp only [feedComment, Cursor.feed]
      split
      · obtain ⟨kind, older, rest, hpath, -, hrest⟩ :=
          Cursor.holder_of_valid hvalid rfl (by simp [Focus.label])
        obtain ⟨pid, older', rest', rfl, rfl, rfl⟩ := seq_of_plain hpath
        have hparent : on (parentOf id) f = (.ok pid, f) := on_parentOf hshows rfl
        have hup : f.Shows strays (.seq pid kind (.leaf id .comment :: older')) rest' :=
          Forest.shows_fill.2 hshows
        have hfollows := follows_feedSequence token hup hrest
        rw [List.map_cons, Numbered.Tree.plain] at hfollows
        exact hfollows.congr (on_bind hparent)
      · exact follows_pure hshows rfl rfl

end Growth

namespace Forest

variable {f f' : Forest} {strays : List NodeId} {context context' : NodeId} {c : Cursor}
  {token : Token}

theorem at_start : ({} : Forest).At [] root Cursor.start :=
  ⟨_, _, shows_start, rfl, rfl, rfl⟩

theorem At.mono {strays' : List NodeId} (h : f.At strays context c) (hsub : strays ⊆ strays') :
    f.At strays' context c := by
  obtain ⟨t, path, hshows, hrest⟩ := h
  exact ⟨t, path, hshows.mono hsub, hrest⟩

theorem feed_of_ok {c' : Cursor} (h : f.At strays context c) (hvalid : c.Valid)
    (hstray : c.drops token = true → context ∈ strays) (hc : c.feed token = .ok c') :
    ∃ f' context', f.feed context token = (f', .ok context') ∧ f'.At strays context' c' := by
  have hfollows := Growth.follows_feed h hvalid hstray
  rw [hc] at hfollows
  obtain ⟨f', context', hon, hf'⟩ := hfollows
  refine ⟨f', context', ?_, hf'⟩
  rw [feed, show (Growth.feed context token).run.run f = _ from hon]

theorem feed_of_error {cause : Fault} (h : f.At strays context c) (hvalid : c.Valid)
    (hstray : c.drops token = true → context ∈ strays) (hc : c.feed token = .error cause) :
    (f.feed context token).2 = .error cause := by
  have hfollows := Growth.follows_feed h hvalid hstray
  rw [hc] at hfollows
  obtain ⟨f', hon⟩ := hfollows
  rw [feed, show (Growth.feed context token).run.run f = _ from hon]

end Forest

end PocketShell
