import PocketShell.Script.Node

/-!
# Forests of numbered nodes

A script under construction is a table of nodes. A node is known by its number, holds its children
by number and knows its parent; node 0 is the script itself.

* `Forest.add`, `Forest.addChild`, `Forest.addJoin` : new nodes;
* `Forest.push`, `Forest.pop` : attach and detach the last child of a node;
* `Forest.ancestors` : from the parent up to the root;
* `Forest.nearest?` : the nearest of them that has an answer (`nearest?_eq`).

A number that no node has reads as a comment without a parent.
-/

namespace PocketShell

abbrev NodeId := Nat

inductive Shape where
  /-- The children are kept newest first. -/
  | seq (kind : Sequence) (children : List NodeId)
  /-- A join waits for its right side at first. -/
  | join (op : JoinOp) (left : NodeId) (right : Option NodeId)
  | leaf (leaf : Leaf)
deriving DecidableEq, Repr

def Shape.wordClass : Shape → WordClass
  | seq kind _ => kind.wordClass
  | join .. => .other
  | leaf l => l.wordClass

/-- Why a node takes no further child. A join takes one, and a comment swallows all. -/
def Shape.refusal? : Shape → Option Fault
  | join _ _ (some _) => some .unexpectedToken
  | join _ _ none | seq .. | leaf .comment => none
  | leaf _ => some .unknown

/-- The last child of a node, if it can be taken away. -/
def Shape.removable : Shape → Except Fault NodeId
  | join _ _ (some right) => .ok right
  | join _ _ none => .error .unexpectedToken
  | seq _ (child :: _) => .ok child
  | seq _ [] => .error .unexpectedToken
  | leaf _ => .error .unknown

structure Node where
  parent : Option NodeId := none
  shape : Shape := .leaf .comment
deriving DecidableEq, Repr

structure Forest where
  nodes : Array Node := #[{ shape := .seq .script [] }]
deriving DecidableEq, Repr

namespace Forest

def root : NodeId := 0

def size (f : Forest) : Nat := f.nodes.size

def node (f : Forest) (id : NodeId) : Node := (f.nodes[id]?).getD {}

def shape (f : Forest) (id : NodeId) : Shape := (f.node id).shape

def parent? (f : Forest) (id : NodeId) : Option NodeId := (f.node id).parent

/-- The children of a sequence, newest first. -/
def children (f : Forest) (id : NodeId) : List NodeId :=
  match f.shape id with
  | .seq _ children => children
  | _ => []

/-- The children of a sequence in order. -/
def body (f : Forest) (id : NodeId) : List NodeId := (f.children id).reverse

def last? (f : Forest) (id : NodeId) : Option NodeId := (f.children id).head?

/-- At most `n` parents in a row. -/
def climb (f : Forest) : Nat → NodeId → List NodeId
  | 0, _ => []
  | n + 1, id =>
    match f.parent? id with
    | none => []
    | some p => p :: climb f n p

/-- The parents of a node, nearest first. -/
def ancestors (f : Forest) (id : NodeId) : List NodeId := f.climb f.size id

/-- The first answer of at most `n` parents in a row. -/
def climbTo {α : Type} (f : Forest) (answer : NodeId → Option α) : Nat → NodeId → Option α
  | 0, _ => none
  | n + 1, id =>
    match f.parent? id with
    | none => none
    | some p =>
      match answer p with
      | some a => some a
      | none => climbTo f answer n p

/-- The answer of the nearest ancestor that has one. -/
def nearest? {α : Type} (f : Forest) (answer : NodeId → Option α) (id : NodeId) : Option α :=
  f.climbTo answer f.size id

theorem climbTo_eq {α : Type} (f : Forest) (answer : NodeId → Option α) (n : Nat) (id : NodeId) :
    f.climbTo answer n id = (f.climb n id).findSome? answer := by
  induction n generalizing id with
  | zero => rfl
  | succ n ih =>
    unfold climbTo climb
    cases f.parent? id with
    | none => rfl
    | some p => cases h : answer p <;> simp [h, ih]

theorem nearest?_eq {α : Type} (f : Forest) (answer : NodeId → Option α) (id : NodeId) :
    f.nearest? answer id = (f.ancestors id).findSome? answer :=
  f.climbTo_eq answer f.size id

/-- Whether statements may follow each other here: the script, an open group, a substitution. -/
def isStatementList (f : Forest) (id : NodeId) : Bool :=
  match f.shape id with
  | .seq .script _ | .seq (.group false) _ | .seq (.sub ..) _ => true
  | _ => false

/-! ## Changes -/

def setShape (f : Forest) (id : NodeId) (shape : Shape) : Forest :=
  ⟨f.nodes.modify id fun node => { node with shape := shape }⟩

def setParent (f : Forest) (id : NodeId) (parent : Option NodeId) : Forest :=
  ⟨f.nodes.modify id fun node => { node with parent := parent }⟩

/-- A new node without a parent. -/
def add (f : Forest) (shape : Shape) : Forest × NodeId :=
  let id := f.size
  (⟨f.nodes.push { shape := shape }⟩, id)

/-- Hangs `child` under `parent`, behind its other children. -/
def attach (f : Forest) (parent child : NodeId) : Forest :=
  match f.shape parent with
  | .join op left _ =>
    (f.setShape parent (.join op left (some child))).setParent child (some parent)
  | .seq kind children =>
    (f.setShape parent (.seq kind (child :: children))).setParent child (some parent)
  | .leaf _ => f

/-- Takes away `child`, the last child of `parent`. -/
def detach (f : Forest) (parent child : NodeId) : Forest :=
  match f.shape parent with
  | .join op left _ => (f.setShape parent (.join op left none)).setParent child none
  | .seq kind children => (f.setShape parent (.seq kind children.tail)).setParent child none
  | .leaf _ => f

/-- Makes `child` the last child of `parent`, unless `parent` refuses it. -/
def push (f : Forest) (parent child : NodeId) : Except Fault Forest :=
  match (f.shape parent).refusal? with
  | some cause => .error cause
  | none => .ok (f.attach parent child)

/-- Detaches the last child. -/
def pop (f : Forest) (parent : NodeId) : Except Fault (Forest × NodeId) :=
  match (f.shape parent).removable with
  | .error cause => .error cause
  | .ok child => .ok (f.detach parent child, child)

/-- A new node under `parent`. The number is used up even if `parent` refuses the node. -/
def addChild (f : Forest) (parent : NodeId) (shape : Shape) : Forest × Except Fault NodeId :=
  let (f, id) := f.add shape
  match (f.shape parent).refusal? with
  | some cause => (f, .error cause)
  | none => (f.attach parent id, .ok id)

/-- A new join of `left` with nothing yet. -/
def addJoin (f : Forest) (op : JoinOp) (left : NodeId) : Forest × NodeId :=
  let (f, id) := f.add (.join op left none)
  (f.setParent left (some id), id)

end Forest

end PocketShell
