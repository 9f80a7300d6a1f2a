import PocketShell.Token

/-!
# Nodes

The parts of a script.

* `JoinOp` : the operators between two commands, with their precedence;
* `Sequence` : the parts that hold other parts in order;
* `Leaf` : the parts that hold text;
* `WordClass` : what a part contributes to the words of its command.
-/

namespace PocketShell

/-! ## Operators -/

inductive JoinOp where
  | pipe
  | and
  | or
  | write
  | append
  | read
  | readStr
deriving DecidableEq, Repr

namespace JoinOp

def ofToken? : TokenKind → Option JoinOp
  | .pipe => some pipe
  | .ampAmp => some and
  | .pipePipe => some or
  | .gt => some write
  | .gtGt => some append
  | .lt => some read
  | .ltLtLt => some readStr
  | _ => none

def name : JoinOp → String
  | pipe => "pipe"
  | and => "and"
  | or => "or"
  | write => "write"
  | append => "append"
  | read => "read"
  | readStr => "readstr"

/-- Redirections have a name or a text on their right, not a command. -/
def isRedirect : JoinOp → Bool
  | write | append | read | readStr => true
  | _ => false

def precedence : JoinOp → Nat
  | and | or => 1
  | pipe => 2
  | write | append | read | readStr => 3

/-- Whether a join with this operator becomes, as a whole, the left side of a following `next`. -/
def bindsAtLeast (op next : JoinOp) : Bool := next.precedence ≤ op.precedence

end JoinOp

/-! ## Parts of a script -/

/-- How a substitution was opened, and so how it is closed. -/
inductive SubStyle where
  | dollar
  | backtick
deriving DecidableEq, Repr

inductive Sequence where
  | script
  /-- A target stands on the right of a redirection: its words are joined, not run. -/
  | command (target : Bool)
  | group (closed : Bool)
  | dblQuote
  | sub (style : SubStyle) (quoted : Bool)
deriving DecidableEq, Repr

inductive Leaf where
  | ident (text : String)
  | whitespace (text : String)
  | quote (text : String)
  | var (name : String)
  | comment
deriving DecidableEq, Repr

/-! ## Words -/

inductive WordClass where
  /-- Goes into the current word as it is. -/
  | literal
  /-- Is split at white space first. -/
  | expansion
  /-- Ends the current word. -/
  | gap
  | other
deriving DecidableEq, Repr

def Sequence.wordClass : Sequence → WordClass
  | dblQuote => .literal
  | sub _ quoted => if quoted then .literal else .expansion
  | _ => .other

def Leaf.wordClass : Leaf → WordClass
  | ident _ | quote _ => .literal
  | var _ => .expansion
  | whitespace _ | comment => .gap

end PocketShell
