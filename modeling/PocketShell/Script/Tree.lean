import PocketShell.Script.Forest
import PocketShell.Text.Quoted

/-!
# Trees

* `Tree` : a part of a script with all that is below it;
* `Forest.tree` : the tree below a node;
* `Tree.sexp` : a tree in one line, with parentheses;
* `Tree.preorder` : the nodes of a tree, each with its depth.
-/

namespace PocketShell

inductive Tree where
  | seq (kind : Sequence) (body : List Tree)
  | join (op : JoinOp) (left right : Tree)
  /-- A join without a right side. -/
  | dangling (op : JoinOp) (left : Tree)
  | leaf (leaf : Leaf)
deriving Repr

/-- The tree below a node, at most `n` nodes deep. -/
def Forest.treeTo (f : Forest) : Nat → NodeId → Tree
  | 0, _ => .leaf .comment
  | n + 1, id =>
    match f.shape id with
    | .seq kind children => .seq kind (children.reverse.map (f.treeTo n))
    | .join op left (some right) => .join op (f.treeTo n left) (f.treeTo n right)
    | .join op left none => .dangling op (f.treeTo n left)
    | .leaf l => .leaf l

/-- The tree below a node. No path through a forest is longer than its number of nodes. -/
def Forest.tree (f : Forest) (id : NodeId) : Tree := f.treeTo f.size id

/-- The statements at the top of a forest. -/
def Forest.statements (f : Forest) : List Tree := (f.body Forest.root).map f.tree

namespace Tree

/-! ## In one line -/

def seqName : Sequence → String
  | .script => "script"
  | .command false => "cmd"
  | .command true => "target"
  | .group _ => "group"
  | .dblQuote => "dq"
  | .sub .. => "sub"

def leafText : Leaf → String
  | .ident text => Text.quoted text
  | .whitespace _ => "_"
  | .quote text => "'" ++ text ++ "'"
  | .var name => "$" ++ name
  | .comment => "#"

mutual

def sexp : Tree → String
  | seq kind body => sexps ("(" ++ seqName kind) body ++ ")"
  | join op left right => "(" ++ op.name ++ " " ++ sexp left ++ " " ++ sexp right ++ ")"
  | dangling op left => "(" ++ op.name ++ " " ++ sexp left ++ " ?)"
  | leaf l => leafText l

/-- Adds trees to a line, each after a space. -/
def sexps (line : String) : List Tree → String
  | [] => line
  | t :: ts => sexps (line ++ " " ++ sexp t) ts

end

/-! ## In order -/

/-- A node of a tree by itself. -/
inductive Label where
  | seq (kind : Sequence)
  | join (op : JoinOp)
  | leaf (leaf : Leaf)
deriving DecidableEq, Repr

mutual

/-- Each node before its children, with its depth; `rest` is what follows them all. -/
def preorderBefore (depth : Nat) (rest : List (Nat × Label)) : Tree → List (Nat × Label)
  | seq kind body => (depth, .seq kind) :: preordersBefore (depth + 1) rest body
  | join op left right =>
    (depth, .join op) :: preorderBefore (depth + 1) (preorderBefore (depth + 1) rest right) left
  | dangling op left => (depth, .join op) :: preorderBefore (depth + 1) rest left
  | leaf l => (depth, .leaf l) :: rest

def preordersBefore (depth : Nat) (rest : List (Nat × Label)) : List Tree → List (Nat × Label)
  | [] => rest
  | t :: ts => preorderBefore depth (preordersBefore depth rest ts) t

end

/-- Each node before its children, with its depth. -/
def preorder (depth : Nat) (t : Tree) : List (Nat × Label) := t.preorderBefore depth []

end Tree

end PocketShell
