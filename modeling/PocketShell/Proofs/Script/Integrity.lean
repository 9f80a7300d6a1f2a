import Mathlib.Data.List.Induction
import Mathlib.Logic.Relation
import PocketShell.Proofs.Script.Simulation

/-!
# The table of nodes stays intact

Whatever tokens are fed to a new forest, as long as none is refused:

* parents and children agree, every node has one place, and there is no cycle (`Forest.Intact`);
* every node is below the script, but for the variables whose `$` turned out to be a literal;
* the context is reached from the script by going to the last child, time and again.

So no token is ever refused for want of a node, and a join always finds its left operand where it
takes it away from (`intact_feedAll`).
-/

namespace PocketShell

open Relation (ReflTransGen TransGen)

/-- The children of a node. -/
def Shape.members : Shape → List NodeId
  | .seq _ children => children
  | .join _ left right => left :: right.toList
  | .leaf _ => []

def Shape.lastMember? : Shape → Option NodeId
  | .seq _ children => children.head?
  | .join _ _ right => right
  | .leaf _ => none

namespace Forest

def Child (f : Forest) (p n : NodeId) : Prop := n ∈ (f.shape p).members

def LastChild (f : Forest) (p n : NodeId) : Prop := (f.shape p).lastMember? = some n

/-- A variable that hangs nowhere. -/
structure Stray (f : Forest) (n : NodeId) : Prop where
  isVariable : ∃ name, f.shape n = .leaf (.var name)
  noParent : f.parent? n = none
  noHolder : ∀ p, ¬ f.Child p n

/-- The shape of a table of nodes with a context. -/
structure Intact (f : Forest) (context : NodeId) : Prop where
  parent_iff : ∀ n p, f.parent? n = some p ↔ f.Child p n
  once : ∀ p, (f.shape p).members.Nodup
  acyclic : ∀ n, ¬ TransGen f.Child n n
  connected : ∀ n < f.size, ReflTransGen f.Child root n ∨ f.Stray n
  context_last : ReflTransGen f.LastChild root context

end Forest

/-! ## Tables with a tree -/

namespace Numbered.Tree

def children : Tree → List Tree
  | seq _ _ parts => parts
  | join _ _ left right => [left, right]
  | leaf .. => []

theorem children_induct {motive : Tree → Prop}
    (step : ∀ t : Tree, (∀ child ∈ t.children, motive child) → motive t) (t : Tree) : motive t := by
  induction t using Tree.induct with
  | seq id kind parts ih => exact step _ ih
  | join id op left right ihl ihr => exact step _ (by simp [children, ihl, ihr])
  | leaf id l => exact step _ (by simp [children])

theorem inner_eq_flatMap (t : Tree) : t.inner = t.children.flatMap (nodes (some t.id)) := by
  cases t <;> simp [inner, children, nodes, id]
  rfl

theorem map_id_sublist (ts : List Tree) (parent : Option NodeId) :
    (ts.map id).Sublist ((ts.flatMap (nodes parent)).map Prod.fst) := by
  induction ts with
  | nil => exact .slnil
  | cons t ts ih =>
    rw [List.flatMap_cons, List.map_append]
    exact (ih.trans (List.sublist_append_right _ _)).cons_cons _

theorem members_shape (t : Tree) : t.shape.members = t.children.map id := by
  cases t <;> rfl

def label : Tree → PocketShell.Tree.Label
  | seq _ kind _ => .seq kind
  | join _ op .. => .join op
  | leaf _ l => .leaf l

theorem label_of_focus {t : Tree} {focus : Focus} (h : t.focus? = some focus) :
    t.label = focus.label := by
  cases t with
  | join => simp [focus?] at h
  | seq | leaf => obtain rfl := Option.some.inj h; rfl

theorem label_fill (crumb : Crumb) (t : Tree) : (crumb.fill t).label = crumb.plain.label := by
  cases crumb <;> rfl

end Numbered.Tree

namespace Forest

variable {f : Forest} {parent : Option NodeId} {t : Numbered.Tree}

theorem HasTree.child (h : f.HasTree parent t) :
    ∀ child ∈ t.children, f.HasTree (some t.id) child := by
  intro child hchild e he
  refine h e (List.mem_cons_of_mem _ ?_)
  rw [Numbered.Tree.inner_eq_flatMap]
  exact List.mem_flatMap.2 ⟨child, hchild, he⟩

theorem HasTree.members (h : f.HasTree parent t) :
    (f.shape t.id).members = t.children.map Numbered.Tree.id := by
  rw [h.shape, Numbered.Tree.members_shape]

/-- An entry below the top has a parent that holds it. -/
theorem HasTree.child_of_mem_inner (h : f.HasTree parent t) :
    ∀ e ∈ t.inner, ∃ p, e.2.parent = some p ∧ f.Child p e.1 := by
  induction t using Numbered.Tree.children_induct generalizing parent with
  | step t ih =>
    intro e he
    rw [Numbered.Tree.inner_eq_flatMap] at he
    obtain ⟨child, hchild, he⟩ := List.mem_flatMap.1 he
    rcases List.mem_cons.1 he with rfl | he
    · refine ⟨t.id, rfl, ?_⟩
      rw [Child, h.members]
      exact List.mem_map_of_mem hchild
    · exact ih child hchild (h.child child hchild) e he

/-- What an entry holds has it as its parent. -/
theorem HasTree.parent?_of_mem (h : f.HasTree parent t) :
    ∀ e ∈ t.nodes parent, ∀ n ∈ e.2.shape.members, f.parent? n = some e.1 := by
  induction t using Numbered.Tree.children_induct generalizing parent with
  | step t ih =>
    intro e he n hn
    rcases List.mem_cons.1 he with rfl | he
    · rw [Numbered.Tree.entry, Numbered.Tree.members_shape] at hn
      obtain ⟨child, hchild, rfl⟩ := List.mem_map.1 hn
      exact congrArg Node.parent (h.child child hchild).node
    · rw [Numbered.Tree.inner_eq_flatMap] at he
      obtain ⟨child, hchild, he⟩ := List.mem_flatMap.1 he
      exact ih child hchild (h.child child hchild) e he n hn

theorem HasTree.reach (h : f.HasTree parent t) :
    ∀ e ∈ t.nodes parent, ReflTransGen f.Child t.id e.1 := by
  induction t using Numbered.Tree.children_induct generalizing parent with
  | step t ih =>
    intro e he
    rcases List.mem_cons.1 he with rfl | he
    · exact .refl
    · rw [Numbered.Tree.inner_eq_flatMap] at he
      obtain ⟨child, hchild, he⟩ := List.mem_flatMap.1 he
      have hfirst : f.Child t.id child.id := by
        rw [Child, h.members]
        exact List.mem_map_of_mem hchild
      exact .head hfirst (ih child hchild (h.child child hchild) e he)

theorem nodup_members (hnodup : ((t.nodes parent).map Prod.fst).Nodup) :
    ∀ e ∈ t.nodes parent, e.2.shape.members.Nodup := by
  induction t using Numbered.Tree.children_induct generalizing parent with
  | step t ih =>
    have hinner : (t.inner.map Prod.fst).Nodup := (List.nodup_cons.1 hnodup).2
    rw [Numbered.Tree.inner_eq_flatMap] at hinner
    intro e he
    rcases List.mem_cons.1 he with rfl | he
    · rw [Numbered.Tree.entry, Numbered.Tree.members_shape]
      exact hinner.sublist (Numbered.Tree.map_id_sublist _ _)
    · rw [Numbered.Tree.inner_eq_flatMap] at he
      obtain ⟨child, hchild, he⟩ := List.mem_flatMap.1 he
      refine ih child hchild (hinner.sublist (List.Sublist.map _ ?_)) e he
      rw [List.flatMap_def]
      exact List.sublist_flatten_of_mem (List.mem_map_of_mem hchild)

/-! ## Forests that show a tree -/

variable {strays : List NodeId} {path : List Numbered.Crumb} {c : Cursor} {context : NodeId}

/-- A node of the table is an entry, a stray, or there is no such node. -/
theorem Holds.node_cases {es : List (NodeId × Node)} (h : f.Holds strays es) (n : NodeId) :
    (n, f.node n) ∈ es ∨ (n ∈ strays ∧ ∃ name, f.node n = ⟨none, .leaf (.var name)⟩) ∨
      (f.size ≤ n ∧ f.node n = {}) := by
  by_cases hn : n < f.size
  · rcases h.rest n hn with hmem | ⟨hstray, name, hname⟩
    · obtain ⟨e, he, rfl⟩ := List.mem_map.1 hmem
      exact .inl (by rwa [h.node he])
    · exact .inr (.inl ⟨hstray, name, by rw [Forest.node, hname, Option.getD_some]⟩)
  · refine .inr (.inr ⟨Nat.le_of_not_lt hn, ?_⟩)
    rw [Forest.node, Array.getElem?_eq_none (Nat.le_of_not_lt hn), Option.getD_none]

theorem Shows.lastChild (h : f.Shows strays t path) :
    ReflTransGen f.LastChild Forest.root t.id := by
  induction path generalizing t with
  | nil =>
    rw [show t.id = Forest.root from h.root]
  | cons crumb path ih =>
    have hup := ih (shows_fill.2 h)
    rw [Numbered.Crumb.id_fill] at hup
    refine hup.tail ?_
    rw [LastChild, h.shape_crumb]
    cases crumb <;> rfl

/-- No node below a top is below itself: going up from it leads to the top. -/
theorem not_transGen_self (hparent : ∀ n p, f.parent? n = some p ↔ f.Child p n) {top n : NodeId}
    (htop : f.parent? top = none) (hn : ReflTransGen f.Child top n) : ¬ TransGen f.Child n n := by
  induction hn with
  | refl =>
    intro hcycle
    obtain ⟨p, -, hp⟩ := TransGen.tail'_iff.1 hcycle
    exact absurd ((hparent top p).2 hp) (by simp [htop])
  | @tail m n _ hstep ih =>
    intro hcycle
    obtain ⟨p, hback, hp⟩ := TransGen.tail'_iff.1 hcycle
    -- the node above is the only parent, so it is on the cycle as well
    have hpm : some p = some m := by rw [← (hparent n p).2 hp, ← (hparent n m).2 hstep]
    obtain rfl := Option.some.inj hpm
    exact ih (.head' hstep hback)

theorem parent?_eq_some_iff (hholds : f.Holds strays (t.nodes none)) (n p : NodeId) :
    f.parent? n = some p ↔ f.Child p n := by
  have htree : f.HasTree none t := hholds.get
  constructor
  · intro hp
    rcases hholds.node_cases n with hmem | ⟨-, name, hname⟩ | ⟨-, hnode⟩
    · rcases List.mem_cons.1 hmem with heq | hmem
      · rw [parent?, (Prod.mk.inj heq).2] at hp
        simp at hp
      · obtain ⟨q, hq, hchild⟩ := htree.child_of_mem_inner _ hmem
        rw [parent?, hq, Option.some.injEq] at hp
        exact hp ▸ hchild
    · simp [parent?, hname] at hp
    · simp [parent?, hnode] at hp
  · intro hp
    rcases hholds.node_cases p with hmem | ⟨-, name, hname⟩ | ⟨-, hnode⟩
    · exact htree.parent?_of_mem _ hmem n hp
    · simp [Child, shape, hname, Shape.members] at hp
    · simp [Child, shape, hnode, Shape.members] at hp

theorem reach_or_stray (hholds : f.Holds strays (t.nodes none)) {n : NodeId} (hn : n < f.size) :
    ReflTransGen f.Child t.id n ∨ n ∈ strays ∧ f.Stray n := by
  have htree : f.HasTree none t := hholds.get
  rcases hholds.node_cases n with hmem | ⟨hstray, name, hname⟩ | ⟨hsize, -⟩
  · exact .inl (htree.reach _ hmem)
  · have hnone : f.parent? n = none := by rw [parent?, hname]
    refine .inr ⟨hstray, ⟨name, by rw [shape, hname]⟩, hnone, fun p hp => ?_⟩
    simp [(parent?_eq_some_iff hholds n p).2 hp] at hnone
  · exact absurd hn (Nat.not_lt.2 hsize)

/-- The entries are those of one tree, which has the root on top. -/
theorem holds_of_shows (h : f.Shows strays t path) :
    ∃ top : Numbered.Tree, top.id = root ∧ f.Holds strays (top.nodes none) := by
  obtain ⟨top, htop, -⟩ := h.whole
  refine ⟨top, htop.root, ?_⟩
  simpa [Numbered.nodesAt, Numbered.pathNodes, Numbered.above] using htop.holds

theorem intact_of_shows (h : f.Shows strays t path) : f.Intact t.id := by
  obtain ⟨top, hid, hholds⟩ := holds_of_shows h
  have hroot : f.parent? root = none := by
    rw [← hid]
    exact congrArg Node.parent (hholds.node List.mem_cons_self)
  have hparent := parent?_eq_some_iff hholds
  have hconnected : ∀ n < f.size, ReflTransGen f.Child root n ∨ f.Stray n := fun n hn =>
    hid ▸ (reach_or_stray hholds hn).imp_right And.right
  refine ⟨hparent, fun p => ?_, fun n hcycle => ?_, hconnected, h.lastChild⟩
  · rcases hholds.node_cases p with hmem | ⟨-, name, hname⟩ | ⟨-, hnode⟩
    · exact nodup_members hholds.nodup _ hmem
    · simp [shape, hname, Shape.members]
    · simp [shape, hnode, Shape.members]
  · obtain ⟨p, -, hp⟩ := TransGen.tail'_iff.1 hcycle
    by_cases hn : n < f.size
    · rcases hconnected n hn with hreach | hstray
      · exact not_transGen_self hparent hroot hreach hcycle
      · exact hstray.noHolder p hp
    · have hnode : f.node n = {} := by
        rw [node, Array.getElem?_eq_none (Nat.le_of_not_lt hn), Option.getD_none]
      simpa [parent?, hnode] using (hparent n p).2 hp

/-! ## Runs -/

/-- Feeds tokens one by one, until one is refused. -/
def feedAll (f : Forest) (context : NodeId) : List Token → Forest × Except Fault NodeId
  | [] => (f, .ok context)
  | token :: tokens =>
    match f.feed context token with
    | (f, .ok context) => feedAll f context tokens
    | (f, .error cause) => (f, .error cause)

theorem feedAll_concat (f : Forest) (context : NodeId) (tokens : List Token) (token : Token) :
    f.feedAll context (tokens ++ [token]) = match f.feedAll context tokens with
      | (f, .ok context) => f.feed context token
      | (f, .error cause) => (f, .error cause) := by
  induction tokens generalizing f context with
  | nil =>
    simp only [List.nil_append, feedAll]
    split <;> simp_all
  | cons first tokens ih =>
    simp only [List.cons_append, feedAll]
    split
    · exact ih _ _
    · rfl

/-- At some point of the run the node was the context, a `$` without a name, and the next token did
not begin with a name. -/
def TurnedLiteral (tokens : List Token) (n : NodeId) : Prop :=
  ∃ before token after f, tokens = before ++ token :: after ∧
    feedAll {} root before = (f, .ok n) ∧ f.shape n = .leaf (.var "") ∧
    (token.kind = .identifier → ∀ ch ∈ token.value.toList.head?, isNameChar ch = false)

theorem TurnedLiteral.concat {tokens : List Token} {n : NodeId} (h : TurnedLiteral tokens n)
    (token : Token) : TurnedLiteral (tokens ++ [token]) n := by
  obtain ⟨before, tok, after, f, rfl, hrest⟩ := h
  exact ⟨before, tok, after ++ [token], f, by simp, hrest⟩

/-- A `$` turns out to be a literal before it has a name. -/
theorem name_of_literalDollar {name : String} {token : Token}
    (hname : name.toList.all isNameChar = true) (h : Cursor.literalDollar name token = true) :
    name = "" ∧
      (token.kind = .identifier → ∀ ch ∈ token.value.toList.head?, isNameChar ch = false) := by
  rw [Cursor.literalDollar] at h
  have hempty : name.toList = [] := by
    cases hlist : name.toList with
    | nil => rfl
    | cons ch rest =>
      rw [hlist, List.all_cons, Bool.and_eq_true] at hname
      split at h
      · simp [hlist, hname.1] at h
      · simp [String.isEmpty_iff.1 h] at hlist
  refine ⟨String.toList_eq_nil_iff.1 hempty, fun hident ch hch => ?_⟩
  rw [if_pos hident, hempty, List.nil_append] at h
  cases hlist : token.value.toList with
  | nil => simp [hlist] at hch
  | cons first rest =>
    rw [hlist, List.head?_cons, Option.mem_some] at hch
    subst hch
    cases hc : isNameChar first with
    | false => rfl
    | true => simp [hlist, hc] at h

/-- A variable gets lost because no name follows its `$`. -/
theorem At.turnedLiteral {tokens : List Token} {token : Token} (h : f.At strays context c)
    (hvalid : c.Valid) (hfeed : feedAll {} root tokens = (f, .ok context))
    (hdrops : c.drops token = true) : TurnedLiteral (tokens ++ [token]) context := by
  obtain ⟨focus, plainPath⟩ := c
  obtain ⟨t, path, hshows, rfl, hfocus, hpath⟩ := h
  obtain ⟨name, rfl⟩ : ∃ name, focus = .leaf (.var name) := by
    unfold Cursor.drops at hdrops
    split at hdrops
    · exact ⟨_, ‹_›⟩
    · simp at hdrops
  obtain ⟨id, rfl⟩ := Growth.leaf_of_focus hfocus
  obtain ⟨rfl, htoken⟩ := name_of_literalDollar (Cursor.isNameChar_of_valid hvalid) hdrops
  exact ⟨tokens, token, [], f, rfl, hfeed, hshows.shape, htoken⟩

/-- One token: the cursor takes it as well, and at most the context gets lost. -/
theorem At.step {f' : Forest} {context' : NodeId} {token : Token} (h : f.At strays context c)
    (hvalid : c.Valid) (hfeed : f.feed context token = (f', .ok context')) :
    ∃ c', c.feed token = .ok c' ∧ c'.Valid ∧
      f'.At (if c.drops token then context :: strays else strays) context' c' := by
  have hat : f.At (if c.drops token then context :: strays else strays) context c :=
    h.mono (by split <;> simp)
  have hdrops : c.drops token = true →
      context ∈ (if c.drops token then context :: strays else strays) := fun h => by simp [h]
  have hsound := Cursor.sound_feed token hvalid
  cases hc : c.feed token with
  | ok c' =>
    obtain ⟨f₁, context₁, hfeed₁, hat₁⟩ := feed_of_ok hat hvalid hdrops hc
    rw [hfeed₁, Prod.mk.injEq, Except.ok.injEq] at hfeed
    obtain ⟨rfl, rfl⟩ := hfeed
    rw [hc] at hsound
    exact ⟨c', rfl, hsound, hat₁⟩
  | error cause =>
    have herror := feed_of_error hat hvalid hdrops hc
    simp [hfeed] at herror

theorem At.feed_ne_unknown {token : Token} (h : f.At strays context c) (hvalid : c.Valid) :
    (f.feed context token).2 ≠ .error .unknown := by
  have hat := h.mono (List.subset_cons_self context strays)
  have hsound := Cursor.sound_feed token hvalid
  cases hc : c.feed token with
  | ok c' =>
    obtain ⟨f₁, context₁, hfeed, -⟩ := feed_of_ok hat hvalid (fun _ => List.mem_cons_self) hc
    simp [hfeed]
  | error cause =>
    rw [hc] at hsound
    rw [feed_of_error hat hvalid (fun _ => List.mem_cons_self) hc]
    exact fun heq => hsound (Except.error.inj heq)

/-- What a run leads to: a valid cursor, and strays that all turned literal on the way. -/
theorem at_feedAll (tokens : List Token) (f : Forest) (context : NodeId)
    (h : feedAll {} root tokens = (f, .ok context)) :
    ∃ strays c, f.At strays context c ∧ c.Valid ∧ ∀ n ∈ strays, TurnedLiteral tokens n := by
  induction tokens using List.reverseRecOn generalizing f context with
  | nil =>
    obtain ⟨rfl, hcontext⟩ := Prod.mk.inj h
    obtain rfl := Except.ok.inj hcontext
    exact ⟨[], Cursor.start, at_start, Cursor.valid_start, by simp⟩
  | append_singleton tokens token ih =>
    rw [feedAll_concat] at h
    split at h
    · rename_i f₁ context₁ hrun
      obtain ⟨strays, c, hat, hvalid, hstrays⟩ := ih f₁ context₁ hrun
      obtain ⟨c', -, hvalid', hat'⟩ := hat.step hvalid h
      refine ⟨_, c', hat', hvalid', fun n hn => ?_⟩
      split at hn
      · rename_i hdrops
        rcases List.mem_cons.1 hn with rfl | hn
        · exact hat.turnedLiteral hvalid hrun hdrops
        · exact (hstrays n hn).concat token
      · exact (hstrays n hn).concat token
    · simp at h

/-! ## Joining on the way to the context -/

/-- Every node on the path to the context may be taken for the one that is shown. -/
theorem exists_shows_of_mem {id : NodeId} (h : f.Shows strays t path)
    (hvalid : Cursor.ValidBelow t.label (path.map Numbered.Crumb.plain))
    (hid : id ∈ t.id :: path.map Numbered.Crumb.id) :
    ∃ t' path', t'.id = id ∧ f.Shows strays t' path' ∧
      Cursor.ValidBelow t'.label (path'.map Numbered.Crumb.plain) := by
  induction path generalizing t with
  | nil =>
    obtain rfl : id = t.id := by simpa using hid
    exact ⟨t, [], rfl, h, hvalid⟩
  | cons crumb path ih =>
    rcases List.mem_cons.1 hid with rfl | hid
    · exact ⟨t, _, rfl, h, hvalid⟩
    · refine ih (shows_fill.2 h) ?_ ?_
      · rw [Numbered.Tree.label_fill]
        exact hvalid.2
      · rwa [Numbered.Crumb.id_fill]

/-- Every command on the path to the context can be joined with what follows, but a target cannot be
redirected. -/
theorem join_of_mem_path {command : NodeId} {target : Bool} {children : List NodeId} {op : JoinOp}
    (h : f.Shows strays t path)
    (hvalid : Cursor.ValidBelow t.label (path.map Numbered.Crumb.plain))
    (hcommand : command ∈ t.id :: path.map Numbered.Crumb.id)
    (hshape : f.shape command = .seq (.command target) children)
    (hop : (target && op.isRedirect) = false) :
    ∃ joined f', (Growth.join command op target).on f = (.ok joined, f') := by
  obtain ⟨t', path', rfl, hshows, hvalid'⟩ := exists_shows_of_mem h hvalid hcommand
  rw [hshows.shape] at hshape
  cases t' with
  | join | leaf => simp [Numbered.Tree.shape] at hshape
  | seq id kind parts =>
    obtain ⟨rfl, -⟩ : kind = .command target ∧ _ := by simpa [Numbered.Tree.shape] using hshape
    have hfollows := Growth.follows_join op target hshows hvalid' rfl
    rw [Cursor.join, hop, if_neg Bool.false_ne_true] at hfollows
    obtain ⟨f', joined, hon, -⟩ := hfollows
    exact ⟨joined, f', hon⟩

/-- Feeding tokens keeps the table of nodes intact. The nodes that are no longer below the script are
variables whose `$` turned out to be a literal; no token is refused for want of a node; the context
is a node that receives tokens; and joining any command on the path to the context finds the left
operand where it takes it away from. -/
theorem intact_feedAll (tokens : List Token) (f : Forest) (context : NodeId)
    (h : feedAll {} root tokens = (f, .ok context)) :
    f.Intact context ∧
      (∀ n < f.size, ¬ ReflTransGen f.Child root n → f.Stray n ∧ TurnedLiteral tokens n) ∧
      (∀ token, (f.feed context token).2 ≠ .error .unknown) ∧
      ((∃ kind children, f.shape context = .seq kind children) ∨
        (∃ name, f.shape context = .leaf (.var name)) ∨
        (∃ text, f.shape context = .leaf (.quote text)) ∨ f.shape context = .leaf .comment) ∧
      ∀ command ∈ context :: f.ancestors context, ∀ target children op,
        f.shape command = .seq (.command target) children → (target && op.isRedirect) = false →
          ∃ joined f', (Growth.join command op target).run.run f = (.ok joined, f') := by
  obtain ⟨strays, c, hat, hvalid, hstrays⟩ := at_feedAll tokens f context h
  have hunknown : ∀ token, (f.feed context token).2 ≠ .error .unknown := fun _ =>
    hat.feed_ne_unknown hvalid
  obtain ⟨focus, plainPath⟩ := c
  obtain ⟨t, path, hshows, rfl, hfocus, hpath⟩ := hat
  obtain rfl : path.map Numbered.Crumb.plain = plainPath := hpath
  refine ⟨intact_of_shows hshows, fun n hn hreach => ?_, hunknown, ?_, ?_⟩
  · obtain ⟨top, hid, hholds⟩ := holds_of_shows hshows
    rcases reach_or_stray hholds hn with hreach' | ⟨hmem, hstray⟩
    · exact absurd (hid ▸ hreach') hreach
    · exact ⟨hstray, hstrays n hmem⟩
  · rw [hshows.shape]
    cases focus with
    | seq kind parts =>
      obtain ⟨id, parts', rfl, -⟩ := Growth.seq_of_focus hfocus
      exact .inl ⟨kind, _, rfl⟩
    | leaf l =>
      obtain ⟨id, rfl⟩ := Growth.leaf_of_focus hfocus
      rcases Cursor.leaf_of_valid hvalid with ⟨name, rfl⟩ | ⟨text, rfl⟩ | rfl
      · exact .inr (.inl ⟨name, rfl⟩)
      · exact .inr (.inr (.inl ⟨text, rfl⟩))
      · exact .inr (.inr (.inr rfl))
  · intro command hcommand target children op hshape hop
    rw [hshows.ancestors_eq] at hcommand
    refine join_of_mem_path hshows ?_ hcommand hshape hop
    rw [Numbered.Tree.label_of_focus hfocus]
    exact hvalid

/-- A `$` that is a literal, a pipe, and a group with a variable in it. -/
def strayTokens : List Token :=
  [⟨.identifier, "a", {}⟩, ⟨.whitespace, " ", {}⟩, ⟨.dollar, "$", {}⟩, ⟨.pipe, "|", {}⟩,
    ⟨.lparen, "(", {}⟩, ⟨.dollar, "$", {}⟩, ⟨.identifier, "x", {}⟩]

/-- The table after these tokens. The variable of the first `$` is node 4. -/
def strayForest : Forest where
  nodes := #[⟨none, .seq .script [6]⟩, ⟨some 6, .seq (.command false) [5, 3, 2]⟩,
    ⟨some 1, .leaf (.ident "a")⟩, ⟨some 1, .leaf (.whitespace " ")⟩, ⟨none, .leaf (.var "")⟩,
    ⟨some 1, .leaf (.ident "$")⟩, ⟨some 0, .join .pipe 1 (some 7)⟩,
    ⟨some 6, .seq (.command false) [8]⟩, ⟨some 7, .seq (.group false) [9]⟩,
    ⟨some 8, .seq (.command false) [10]⟩, ⟨some 9, .leaf (.var "x")⟩]

theorem intact_strayTokens : feedAll {} root strayTokens = (strayForest, .ok 10) ∧
    strayForest.Intact 10 ∧ strayForest.Stray 4 ∧ TurnedLiteral strayTokens 4 := by
  have hrun : feedAll {} root strayTokens = (strayForest, .ok 10) := by decide
  obtain ⟨hintact, hstrays, -⟩ := intact_feedAll strayTokens strayForest 10 hrun
  have hreach : ¬ ReflTransGen strayForest.Child root 4 := by
    intro hreach
    rcases hreach.cases_tail with heq | ⟨p, -, hp⟩
    · exact absurd heq (by decide)
    · exact absurd ((hintact.parent_iff 4 p).2 hp) (by simp [show strayForest.parent? 4 = none by decide])
  exact ⟨hrun, hintact, hstrays 4 (by decide) hreach⟩

end Forest

end PocketShell
