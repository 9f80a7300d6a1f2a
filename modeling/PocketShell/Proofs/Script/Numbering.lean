import Mathlib.Data.List.Perm.Subperm
import PocketShell.Proofs.Script.Cursor

/-!
# Cursors with numbers

The trees of `Cursor` again, each node with its number in a forest.

* `Numbered.nodesAt` : the entries that a tree and the crumbs above it make in the table of nodes;
* `Forest.Holds` : a forest has these entries, each under a number of its own, and apart from them
  only strays. A change of a forest changes one entry or adds one (`Holds.setShape`,
  `Holds.setParent`, `Holds.add`);
* `Forest.Shows` : a forest holds a tree below crumbs, the outermost of which is the script. Going up
  and down changes nothing (`shows_fill`);
* `Shows.statements_eq`, `Shows.nearest?_eq_ascend` : what a forest says about itself is what its tree
  says.
-/

namespace PocketShell.Numbered

/-! ## Trees -/

inductive Tree where
  /-- The parts are kept newest first. -/
  | seq (id : NodeId) (kind : Sequence) (parts : List Tree)
  | join (id : NodeId) (op : JoinOp) (left right : Tree)
  | leaf (id : NodeId) (leaf : Leaf)

namespace Tree

theorem induct {motive : Tree → Prop}
    (seq : ∀ id kind parts, (∀ t ∈ parts, motive t) → motive (.seq id kind parts))
    (join : ∀ id op left right, motive left → motive right → motive (.join id op left right))
    (leaf : ∀ id l, motive (.leaf id l)) (t : Tree) : motive t := by
  refine @Tree.rec motive (fun parts => ∀ t ∈ parts, motive t) seq join leaf ?_ ?_ t
  · exact fun t ht => absurd ht List.not_mem_nil
  · exact fun t ts ht hts => List.forall_mem_cons.2 ⟨ht, hts⟩

def id : Tree → NodeId
  | seq id .. | join id .. | leaf id _ => id

/-- A tree without its numbers. -/
def plain : Tree → PocketShell.Tree
  | seq _ kind parts => .seq kind (parts.map plain).reverse
  | join _ op left right => .join op left.plain right.plain
  | leaf _ l => .leaf l

def shape : Tree → Shape
  | seq _ kind parts => .seq kind (parts.map id)
  | join _ op left right => .join op left.id (some right.id)
  | leaf _ l => .leaf l

/-- The entry of the node at the top. -/
def entry (parent : Option NodeId) (t : Tree) : NodeId × Node := (t.id, ⟨parent, t.shape⟩)

/-- The entries of the nodes below the top. -/
def inner : Tree → List (NodeId × Node)
  | seq id _ parts => parts.flatMap fun t => t.entry (some id) :: t.inner
  | join id _ left right =>
    left.entry (some id) :: left.inner ++ right.entry (some id) :: right.inner
  | leaf .. => []

def nodes (parent : Option NodeId) (t : Tree) : List (NodeId × Node) := t.entry parent :: t.inner

theorem length_inner_lt (id : NodeId) (kind : Sequence) {parts : List Tree} {part : Tree}
    (h : part ∈ parts) : part.inner.length < (seq id kind parts).inner.length := by
  have hle : (part.nodes (some id)).length ≤ (seq id kind parts).inner.length := by
    rw [inner, List.flatMap_def]
    exact (List.sublist_flatten_of_mem (List.mem_map_of_mem h)).length_le
  rwa [nodes, List.length_cons] at hle

end Tree

/-! ## Crumbs -/

inductive Crumb where
  | seq (id : NodeId) (kind : Sequence) (older : List Tree)
  | join (id : NodeId) (op : JoinOp) (left : Tree)

namespace Crumb

def id : Crumb → NodeId
  | seq id .. | join id .. => id

def plain : Crumb → PocketShell.Crumb
  | seq _ kind older => .seq kind (older.map Tree.plain)
  | join _ op left => .join op left.plain

def fill (t : Tree) : Crumb → Tree
  | seq id kind older => .seq id kind (t :: older)
  | join id op left => .join id op left t

/-- The shape with a child in the open place. -/
def shape (child : NodeId) : Crumb → Shape
  | seq _ kind older => .seq kind (child :: older.map Tree.id)
  | join _ op left => .join op left.id (some child)

/-- The shape with nothing in the open place. -/
def hollow : Crumb → Shape
  | seq _ kind older => .seq kind (older.map Tree.id)
  | join _ op left => .join op left.id none

/-- The entries of the other children and all below them. -/
def inner : Crumb → List (NodeId × Node)
  | seq id _ older => older.flatMap (Tree.nodes (some id))
  | join id _ left => left.nodes (some id)

@[simp] theorem id_fill (t : Tree) (crumb : Crumb) : (crumb.fill t).id = crumb.id := by
  cases crumb <;> rfl

@[simp] theorem shape_fill (t : Tree) (crumb : Crumb) :
    (crumb.fill t).shape = crumb.shape t.id := by
  cases crumb <;> simp [fill, Tree.shape, shape]

@[simp] theorem plain_fill (t : Tree) (crumb : Crumb) :
    (crumb.fill t).plain = crumb.plain.fill t.plain := by
  cases crumb <;> simp [fill, Tree.plain, plain, PocketShell.Crumb.fill]

theorem inner_fill (t : Tree) (crumb : Crumb) :
    (crumb.fill t).inner.Perm (t.nodes (some crumb.id) ++ crumb.inner) := by
  cases crumb with
  | seq id kind older => simp [fill, Tree.inner, Tree.nodes, inner, Crumb.id]; rfl
  | join id op left =>
    simp only [fill, Tree.inner, inner]
    exact List.perm_append_comm

end Crumb

/-- The number of the node above. -/
def above (path : List Crumb) : Option NodeId := path.head?.map Crumb.id

/-- The entries of crumbs, the innermost of which has a child. -/
def pathNodes : NodeId → List Crumb → List (NodeId × Node)
  | _, [] => []
  | child, crumb :: path =>
    (crumb.id, ⟨above path, crumb.shape child⟩) :: (crumb.inner ++ pathNodes crumb.id path)

/-- The entries of a tree and of the crumbs above it. -/
def nodesAt (t : Tree) (path : List Crumb) : List (NodeId × Node) :=
  t.nodes (above path) ++ pathNodes t.id path

/-- The number of the outermost node. -/
def outermost : NodeId → List Crumb → NodeId
  | id, [] => id
  | _, crumb :: path => outermost crumb.id path

/-- Going down to the last child changes no entry. -/
theorem nodesAt_fill (t : Tree) (crumb : Crumb) (path : List Crumb) :
    (nodesAt (crumb.fill t) path).Perm (nodesAt t (crumb :: path)) := by
  simp only [nodesAt, pathNodes, Crumb.id_fill, Tree.nodes, Tree.entry, Crumb.shape_fill]
  refine List.Perm.trans ?_ List.perm_middle.symm
  rw [List.cons_append, ← List.append_assoc]
  exact ((crumb.inner_fill t).append_right _).cons _

theorem length_path_le (t : Tree) (path : List Crumb) :
    path.length ≤ (nodesAt t path).length := by
  have hpath : ∀ child : NodeId, path.length ≤ (pathNodes child path).length := by
    induction path with
    | nil => exact fun _ => Nat.le_refl _
    | cons crumb path ih =>
      intro child
      have := ih crumb.id
      simp only [pathNodes, List.length_cons, List.length_append]
      omega
  have := hpath t.id
  simp only [nodesAt, List.length_append]
  omega

end PocketShell.Numbered

namespace PocketShell.Forest

open Numbered (nodesAt above outermost pathNodes)

/-! ## Tables of nodes -/

/-- A forest has these entries, each under a number of its own. All other nodes are among the strays,
which are variables that hang nowhere. -/
structure Holds (f : Forest) (strays : List NodeId) (es : List (NodeId × Node)) : Prop where
  get : ∀ e ∈ es, f.nodes[e.1]? = some e.2
  nodup : (es.map Prod.fst).Nodup
  rest : ∀ id < f.size, id ∈ es.map Prod.fst ∨
    id ∈ strays ∧ ∃ name, f.nodes[id]? = some ⟨none, .leaf (.var name)⟩

variable {f : Forest} {strays : List NodeId} {es es' : List (NodeId × Node)} {id : NodeId} {n : Node}

namespace Holds

theorem perm (h : f.Holds strays es) (hp : es.Perm es') : f.Holds strays es' where
  get := fun e he => h.get e (hp.mem_iff.2 he)
  nodup := (hp.map _).nodup_iff.1 h.nodup
  rest := fun id hid => (h.rest id hid).imp_left (hp.map Prod.fst).mem_iff.1

theorem lt_size (h : f.Holds strays es) (hid : id ∈ es.map Prod.fst) : id < f.size := by
  obtain ⟨e, he, rfl⟩ := List.mem_map.1 hid
  exact (Array.getElem?_eq_some_iff.1 (h.get e he)).1

theorem node (h : f.Holds strays es) (hid : (id, n) ∈ es) : f.node id = n := by
  rw [Forest.node, h.get _ hid, Option.getD_some]

theorem length_le (h : f.Holds strays es) : es.length ≤ f.size := by
  have hsub : es.map Prod.fst ⊆ List.range f.size := fun _ hid =>
    List.mem_range.2 (h.lt_size hid)
  simpa using (h.nodup.subperm hsub).length_le

/-- A change of one node changes its entry. -/
theorem modify (h : f.Holds strays ((id, n) :: es)) (g : Node → Node) :
    Holds ⟨f.nodes.modify id g⟩ strays ((id, g n) :: es) where
  get := by
    intro e he
    rw [Array.getElem?_modify]
    rcases List.mem_cons.1 he with rfl | hes
    · rw [if_pos rfl, h.get (id, n) List.mem_cons_self]
      rfl
    · have hmem : e.1 ∈ es.map Prod.fst := List.mem_map_of_mem hes
      have hne : id ≠ e.1 := by
        rintro rfl
        exact (List.nodup_cons.1 h.nodup).1 hmem
      rw [if_neg hne, h.get e (List.mem_cons_of_mem _ hes)]
  nodup := h.nodup
  rest := by
    intro i hi
    simp only [size, Array.size_modify] at hi
    rcases h.rest i hi with hmem | ⟨hstray, name, hname⟩
    · exact .inl hmem
    · by_cases hid : id = i
      · exact .inl (by simp [hid])
      · exact .inr ⟨hstray, name, by rw [Array.getElem?_modify, if_neg hid, hname]⟩

theorem setShape (h : f.Holds strays ((id, n) :: es)) (shape : Shape) :
    (f.setShape id shape).Holds strays ((id, { n with shape := shape }) :: es) := h.modify _

theorem setParent (h : f.Holds strays ((id, n) :: es)) (parent : Option NodeId) :
    (f.setParent id parent).Holds strays ((id, { n with parent := parent }) :: es) := h.modify _

theorem add (h : f.Holds strays es) (shape : Shape) :
    (f.add shape).1.Holds strays ((f.size, ⟨none, shape⟩) :: es) := by
  have hget : ∀ i : NodeId, (f.add shape).1.nodes[i]? =
      if i = f.size then some { shape := shape } else f.nodes[i]? := fun _ => Array.getElem?_push
  refine ⟨?_, List.nodup_cons.2 ⟨fun hid => Nat.lt_irrefl _ (h.lt_size hid), h.nodup⟩, ?_⟩
  · intro e he
    rw [hget]
    rcases List.mem_cons.1 he with rfl | hes
    · rw [if_pos rfl]
    · rw [if_neg (Nat.ne_of_lt (h.lt_size (List.mem_map_of_mem hes))), h.get e hes]
  · intro i hi
    by_cases heq : i = f.size
    · exact .inl (by simp [heq])
    · have hlt : i < f.size := by
        simp only [Forest.add, size, Array.size_push] at hi heq ⊢
        omega
      rcases h.rest i hlt with hmem | ⟨hstray, name, hname⟩
      · exact .inl (List.mem_cons_of_mem _ hmem)
      · exact .inr ⟨hstray, name, by rw [hget, if_neg heq, hname]⟩

/-- A stray variable need not be an entry. -/
theorem forget {name : String} (h : f.Holds strays ((id, ⟨none, .leaf (.var name)⟩) :: es))
    (hid : id ∈ strays) : f.Holds strays es where
  get := fun e he => h.get e (List.mem_cons_of_mem _ he)
  nodup := (List.nodup_cons.1 h.nodup).2
  rest := by
    intro i hi
    rcases h.rest i hi with hmem | hname
    · rcases List.mem_cons.1 hmem with rfl | hmem
      · exact .inr ⟨hid, name, h.get _ List.mem_cons_self⟩
      · exact .inl hmem
    · exact .inr hname

variable {crumb : Numbered.Crumb} {p q : Option NodeId} {child : NodeId} {shape : Shape}

theorem attach (h : f.Holds strays ((crumb.id, ⟨p, crumb.hollow⟩) :: (child, ⟨q, shape⟩) :: es)) :
    (f.attach crumb.id child).Holds strays
      ((crumb.id, ⟨p, crumb.shape child⟩) :: (child, ⟨some crumb.id, shape⟩) :: es) := by
  have hshape : f.shape crumb.id = crumb.hollow :=
    congrArg Node.shape (h.node List.mem_cons_self)
  have hchange := (((h.setShape (crumb.shape child)).perm (.swap ..)).setParent
    (some crumb.id)).perm (.swap ..)
  rw [Forest.attach, hshape]
  cases crumb <;> exact hchange

theorem detach (h : f.Holds strays ((crumb.id, ⟨p, crumb.shape child⟩) :: (child, ⟨q, shape⟩) :: es)) :
    (f.detach crumb.id child).Holds strays
      ((crumb.id, ⟨p, crumb.hollow⟩) :: (child, ⟨none, shape⟩) :: es) := by
  have hshape : f.shape crumb.id = crumb.shape child :=
    congrArg Node.shape (h.node List.mem_cons_self)
  have hchange := (((h.setShape crumb.hollow).perm (.swap ..)).setParent none).perm (.swap ..)
  rw [Forest.detach, hshape]
  cases crumb <;> exact hchange

end Holds

/-! ## Forests that show a tree -/

/-- A forest holds a tree below a path that ends with its root. -/
structure Shows (f : Forest) (strays : List NodeId) (t : Numbered.Tree)
    (path : List Numbered.Crumb) : Prop where
  holds : f.Holds strays (nodesAt t path)
  root : outermost t.id path = root

variable {t : Numbered.Tree} {path : List Numbered.Crumb}
  {crumb : Numbered.Crumb}

theorem shows_start : ({} : Forest).Shows [] (.seq root .script []) [] where
  holds :=
    { get := by simp [nodesAt, Numbered.Tree.nodes, Numbered.Tree.entry, Numbered.Tree.inner,
        pathNodes, above, Numbered.Tree.id, Numbered.Tree.shape, root]
      nodup := by simp [nodesAt, Numbered.Tree.nodes, Numbered.Tree.inner, pathNodes]
      rest := fun id hid => .inl (by
        obtain rfl : id = 0 := Nat.lt_one_iff.1 hid
        exact List.mem_cons_self) }
  root := rfl

/-- A node and the last of its children show the same forest. -/
theorem shows_fill : f.Shows strays (crumb.fill t) path ↔ f.Shows strays t (crumb :: path) := by
  have hperm := Numbered.nodesAt_fill t crumb path
  constructor
  · intro h
    exact ⟨h.holds.perm hperm, by simpa [outermost] using h.root⟩
  · intro h
    exact ⟨h.holds.perm hperm.symm, by simpa [outermost] using h.root⟩

/-- The answer to a question about sequences, with the number of the one that has it. -/
def about {α β : Type} (f : Forest) (answer : Sequence → Option α) (found : NodeId → α → β)
    (id : NodeId) : Option β :=
  match f.shape id with
  | .seq kind _ => (answer kind).map (found id)
  | _ => none

theorem parenthesis?_eq (f : Forest) (id : NodeId) :
    f.parenthesis? id = f.nearest?
      (f.about Cursor.parenthesis fun p => Except.map fun _ => p) id := by
  unfold parenthesis?
  congr 1
  funext p
  unfold about Cursor.parenthesis
  rcases f.shape p with ⟨kind, _⟩ | _ | _
  · rcases kind with _ | _ | (_ | _) | _ | ⟨(_ | _), _⟩ <;> rfl
  · rfl
  · rfl

theorem substitution?_eq (f : Forest) (id : NodeId) :
    f.substitution? id = f.nearest? (f.about Cursor.substitution Prod.mk) id := by
  unfold substitution?
  congr 1
  funext p
  unfold about Cursor.substitution
  rcases f.shape p with ⟨kind, _⟩ | _ | _
  · cases kind <;> rfl
  · rfl
  · rfl

theorem statementList?_eq (f : Forest) (id : NodeId) :
    f.statementList? id = f.nearest? (f.about Cursor.statementList fun p _ => p) id := by
  unfold statementList?
  congr 1
  funext p
  unfold about Cursor.statementList isStatementList
  rcases f.shape p with ⟨kind, _⟩ | _ | _
  · rcases kind with _ | _ | (_ | _) | _ | _ <;> rfl
  · rfl
  · rfl

namespace Shows

theorem mono {strays' : List NodeId} (h : f.Shows strays t path) (hsub : strays ⊆ strays') :
    f.Shows strays' t path :=
  ⟨⟨h.holds.get, h.holds.nodup, fun id hid =>
    (h.holds.rest id hid).imp_right (And.imp_left (hsub ·))⟩, h.root⟩

theorem node (h : f.Shows strays t path) : f.node t.id = ⟨above path, t.shape⟩ :=
  h.holds.node (by simp [nodesAt, Numbered.Tree.nodes, Numbered.Tree.entry])

theorem shape (h : f.Shows strays t path) : f.shape t.id = t.shape := congrArg Node.shape h.node

theorem parent? (h : f.Shows strays t path) : f.parent? t.id = above path :=
  congrArg Node.parent h.node

theorem shape_crumb (h : f.Shows strays t (crumb :: path)) :
    f.shape crumb.id = crumb.shape t.id := by
  simpa using (shows_fill.2 h).shape

theorem shape_part {id : NodeId} {kind : Sequence} {parts : List Numbered.Tree}
    (h : f.Shows strays (.seq id kind parts) path) {part : Numbered.Tree} (hpart : part ∈ parts) :
    f.shape part.id = part.shape := by
  refine congrArg Node.shape (h.holds.node (n := ⟨some id, part.shape⟩) ?_)
  simp only [nodesAt, Numbered.Tree.nodes, Numbered.Tree.inner, List.mem_append, List.mem_cons,
    List.mem_flatMap]
  exact .inl (.inr ⟨part, hpart, .inl rfl⟩)

theorem length_path_le (h : f.Shows strays t path) : path.length ≤ f.size :=
  Nat.le_trans (Numbered.length_path_le t path) h.holds.length_le

/-! ## What a forest says about its tree -/

theorem climb_eq (h : f.Shows strays t path) {n : Nat} (hn : path.length ≤ n) :
    f.climb n t.id = path.map Numbered.Crumb.id := by
  induction path generalizing t n with
  | nil => cases n <;> simp [climb, h.parent?, above]
  | cons crumb path ih =>
    cases n with
    | zero => simp at hn
    | succ n =>
      have hup := ih (shows_fill.2 h) (Nat.le_of_succ_le_succ hn)
      rw [Numbered.Crumb.id_fill] at hup
      simp [climb, h.parent?, above, hup]

theorem ancestors_eq (h : f.Shows strays t path) :
    f.ancestors t.id = path.map Numbered.Crumb.id :=
  h.climb_eq h.length_path_le

/-- Going up in the forest is going up in the tree. -/
theorem nearest?_eq_ascend {α β : Type} (h : f.Shows strays t path) (answer : Sequence → Option α)
    (found : NodeId → α → β) :
    match Cursor.ascend answer t.plain (path.map Numbered.Crumb.plain) with
    | none => f.nearest? (f.about answer found) t.id = none
    | some (a, kind, parts, rest) =>
      ∃ id parts' rest', f.nearest? (f.about answer found) t.id = some (found id a) ∧
        f.Shows strays (.seq id kind parts') rest' ∧ parts'.map Numbered.Tree.plain = parts ∧
        rest'.map Numbered.Crumb.plain = rest := by
  rw [nearest?_eq, h.ancestors_eq]
  induction path generalizing t with
  | nil => simp [Cursor.ascend]
  | cons crumb path ih =>
    have hup := shows_fill.2 h
    have hshape := h.shape_crumb
    have ih := ih hup
    rw [Numbered.Crumb.plain_fill] at ih
    cases crumb with
    | seq id kind older =>
      have hid : f.about answer found id = (answer kind).map (found id) := by
        rw [about, show f.shape id = _ from hshape]
        rfl
      simp only [List.map_cons, List.findSome?_cons, Numbered.Crumb.id, hid,
        Numbered.Crumb.plain, Cursor.ascend]
      cases answer kind with
      | none => exact ih
      | some a => exact ⟨id, t :: older, path, rfl, hup, rfl, rfl⟩
    | join id op left =>
      have hid : f.about answer found id = none := by
        rw [about, show f.shape id = _ from hshape]
        rfl
      simp only [List.map_cons, List.findSome?_cons, Numbered.Crumb.id, hid,
        Numbered.Crumb.plain, Cursor.ascend]
      exact ih

/-- The forest finds the same widest operand as the tree, and what is above it. -/
theorem operandTo_eq_widest (h : f.Shows strays t path) (op : JoinOp) {n : Nat}
    (hn : path.length ≤ n) :
    ∃ operand rest, f.operandTo op n t.id = operand.id ∧ f.Shows strays operand rest ∧
      Cursor.widest op t.plain (path.map Numbered.Crumb.plain) =
        (operand.plain, rest.map Numbered.Crumb.plain) := by
  induction path generalizing t n with
  | nil =>
    refine ⟨t, [], ?_, h, rfl⟩
    cases n <;> simp [operandTo, h.parent?, above]
  | cons crumb path ih =>
    obtain ⟨n, rfl⟩ : ∃ m, n = m + 1 := ⟨n - 1, by simp at hn; omega⟩
    have hparent : f.parent? t.id = some crumb.id := h.parent?
    cases crumb with
    | seq id kind older =>
      refine ⟨t, _, ?_, h, rfl⟩
      have hshape : f.shape id = .seq kind (t.id :: older.map Numbered.Tree.id) := h.shape_crumb
      simp only [operandTo, hparent, Numbered.Crumb.id, hshape]
    | join id outer left =>
      have hshape : f.shape id = .join outer left.id (some t.id) := h.shape_crumb
      simp only [operandTo, hparent, Numbered.Crumb.id, hshape, true_and, List.map_cons,
        Numbered.Crumb.plain, Cursor.widest]
      split
      · have hup := ih (shows_fill.2 h) (Nat.le_of_succ_le_succ hn)
        rwa [Numbered.Crumb.plain_fill] at hup
      · exact ⟨t, _, rfl, h, rfl⟩

theorem hasWords_eq {id : NodeId} {kind : Sequence} {parts : List Numbered.Tree}
    (h : f.Shows strays (.seq id kind parts) path) :
    f.hasWords id = Cursor.hasWords (parts.map Numbered.Tree.plain) := by
  have hshape : f.shape id = .seq kind (parts.map Numbered.Tree.id) := h.shape
  have hcomment : ∀ part ∈ parts, f.isComment part.id = Cursor.isComment part.plain := by
    intro part hpart
    rw [Forest.isComment, h.shape_part hpart]
    cases part with
    | leaf id l => cases l <;> simp [Numbered.Tree.shape, Numbered.Tree.plain, Cursor.isComment]
    | seq | join => simp [Numbered.Tree.shape, Numbered.Tree.plain, Cursor.isComment]
  rw [Forest.hasWords, Forest.children, hshape, Cursor.hasWords, List.any_map, List.any_map,
    Bool.eq_iff_iff]
  simp only [List.any_eq_true, Function.comp_apply]
  exact exists_congr fun part => and_congr_right fun hpart => by rw [hcomment part hpart]

theorem endsInWord_eq {id : NodeId} {kind : Sequence} {parts : List Numbered.Tree}
    (h : f.Shows strays (.seq id kind parts) path) :
    f.endsInWord id = Cursor.endsInWord (parts.map Numbered.Tree.plain) := by
  have hshape : f.shape id = .seq kind (parts.map Numbered.Tree.id) := h.shape
  rw [Forest.endsInWord, Forest.last?, Forest.children, hshape, Cursor.endsInWord]
  cases parts with
  | nil => rfl
  | cons part parts =>
    have hclass : (f.shape part.id).wordClass = Cursor.wordClass part.plain := by
      rw [h.shape_part List.mem_cons_self]
      cases part <;>
        simp [Numbered.Tree.shape, Numbered.Tree.plain, Shape.wordClass, Cursor.wordClass]
    cases hpart : Cursor.wordClass part.plain <;> simp [hclass, hpart]

theorem isOperand_eq (h : f.Shows strays t path) :
    f.isOperand t.id = Cursor.isOperand (path.map Numbered.Crumb.plain) := by
  rw [Forest.isOperand, h.parent?]
  cases path with
  | nil => rfl
  | cons crumb path =>
    simp only [above, List.head?_cons, Option.map_some, h.shape_crumb]
    cases crumb <;> rfl

end Shows

/-! ## Whole scripts -/

/-- The table has a tree below a parent. -/
def HasTree (f : Forest) (parent : Option NodeId) (t : Numbered.Tree) : Prop :=
  ∀ e ∈ t.nodes parent, f.nodes[e.1]? = some e.2

namespace HasTree

variable {parent : Option NodeId}

theorem node (h : f.HasTree parent t) : f.node t.id = ⟨parent, t.shape⟩ := by
  have hget : f.nodes[t.id]? = some ⟨parent, t.shape⟩ := h (t.entry parent) List.mem_cons_self
  rw [Forest.node, hget, Option.getD_some]

theorem shape (h : f.HasTree parent t) : f.shape t.id = t.shape := congrArg Node.shape h.node

theorem part {kind : Sequence} {parts : List Numbered.Tree}
    (h : f.HasTree parent (.seq id kind parts)) :
    ∀ part ∈ parts, f.HasTree (some id) part := by
  intro part hpart e he
  refine h e (List.mem_cons_of_mem _ ?_)
  rw [Numbered.Tree.inner]
  exact List.mem_flatMap.2 ⟨part, hpart, he⟩

theorem left {op : JoinOp} {l r : Numbered.Tree} (h : f.HasTree parent (.join id op l r)) :
    f.HasTree (some id) l := by
  intro e he
  refine h e (List.mem_cons_of_mem _ ?_)
  rw [Numbered.Tree.inner]
  exact List.mem_append_left _ he

theorem right {op : JoinOp} {l r : Numbered.Tree} (h : f.HasTree parent (.join id op l r)) :
    f.HasTree (some id) r := by
  intro e he
  refine h e (List.mem_cons_of_mem _ ?_)
  rw [Numbered.Tree.inner]
  exact List.mem_append_right _ he

end HasTree

theorem Shows.hasTree (h : f.Shows strays t path) : f.HasTree (above path) t :=
  fun e he => h.holds.get e (List.mem_append_left _ he)

/-- With enough steps the table gives a tree back. -/
theorem treeTo_eq {parent : Option NodeId} {n : Nat} (h : f.HasTree parent t)
    (hn : t.inner.length < n) : f.treeTo n t.id = t.plain := by
  induction t using Numbered.Tree.induct generalizing parent n with
  | leaf id l =>
    obtain ⟨m, rfl⟩ : ∃ m, n = m + 1 := ⟨n - 1, by omega⟩
    rw [treeTo, h.shape, Numbered.Tree.plain]
    rfl
  | join id op left right ihl ihr =>
    obtain ⟨m, rfl⟩ : ∃ m, n = m + 1 := ⟨n - 1, by omega⟩
    simp only [Numbered.Tree.inner, List.length_append, List.length_cons] at hn
    rw [treeTo, h.shape, Numbered.Tree.plain, ← ihl h.left (n := m) (by omega),
      ← ihr h.right (n := m) (by omega)]
    rfl
  | seq id kind parts ih =>
    obtain ⟨m, rfl⟩ : ∃ m, n = m + 1 := ⟨n - 1, by omega⟩
    have hparts : ∀ part ∈ parts, f.treeTo m part.id = part.plain := by
      intro part hpart
      have hlt := Numbered.Tree.length_inner_lt id kind hpart
      exact ih part hpart (h.part part hpart) (by omega)
    rw [treeTo, h.shape, Numbered.Tree.plain]
    simp only [Numbered.Tree.shape, ← List.map_reverse, List.map_map]
    congr 1
    exact List.map_congr_left fun part hpart => hparts part (List.mem_reverse.1 hpart)

/-- The whole script, above all crumbs. -/
theorem Shows.whole (h : f.Shows strays t path) :
    ∃ whole : Numbered.Tree, f.Shows strays whole [] ∧
      whole.plain = Cursor.plug t.plain (path.map Numbered.Crumb.plain) := by
  induction path generalizing t with
  | nil => exact ⟨t, h, rfl⟩
  | cons crumb path ih =>
    obtain ⟨whole, hwhole, hplain⟩ := ih (shows_fill.2 h)
    rw [Numbered.Crumb.plain_fill] at hplain
    exact ⟨whole, hwhole, hplain⟩

theorem Shows.length_inner_lt (h : f.Shows strays t []) : t.inner.length < f.size := by
  have hle := h.holds.length_le
  simp only [nodesAt, pathNodes, Numbered.Tree.nodes, List.append_nil, List.length_cons] at hle
  exact hle

/-- The statements of a forest are those of the tree that it shows. -/
theorem Shows.statements_eq (h : f.Shows strays t path) {kind : Sequence} {body : List Tree}
    (hbody : Cursor.plug t.plain (path.map Numbered.Crumb.plain) = .seq kind body) :
    f.statements = body := by
  obtain ⟨whole, hwhole, hplain⟩ := h.whole
  rw [hbody] at hplain
  have hsize := hwhole.length_inner_lt
  cases whole with
  | join | leaf => simp [Numbered.Tree.plain] at hplain
  | seq id kind' parts =>
    obtain rfl : id = Forest.root := hwhole.root
    have hparts : ∀ part ∈ parts, f.tree part.id = part.plain := by
      intro part hpart
      have hlt := Numbered.Tree.length_inner_lt Forest.root kind' hpart
      exact treeTo_eq (hwhole.hasTree.part part hpart) (by omega)
    have hshape : f.shape Forest.root = .seq kind' (parts.map Numbered.Tree.id) := hwhole.shape
    rw [Numbered.Tree.plain, PocketShell.Tree.seq.injEq] at hplain
    rw [Forest.statements, Forest.body, Forest.children, hshape, ← hplain.2]
    simp only [← List.map_reverse, List.map_map]
    exact List.map_congr_left fun part hpart => hparts part (List.mem_reverse.1 hpart)

end PocketShell.Forest
