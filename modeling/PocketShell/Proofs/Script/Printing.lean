import PocketShell.Proofs.Script.Parts

/-!
# Printed scripts

A script as a text: statements on lines of their own, single spaces between words and around
operators, a backslash before every character of a word.

* `Tree.print`, `Tree.printStatements` : the text of a tree and of a list of statements;
* `Tree.Canonical` : the trees of the grammar, with operands that bind as tight as they have to;
* `Tree.tidy` : a tree without what a parser may leave in it that the grammar does not know, that is
  white space at the end of a command, and text in double quotes in several pieces.
-/

namespace PocketShell

/-! ## Operators -/

namespace JoinOp

def sign : JoinOp → List Char
  | pipe => ['|']
  | and => ['&', '&']
  | or => ['|', '|']
  | write => ['>']
  | append => ['>', '>']
  | read => ['<']
  | readStr => ['<', '<', '<']

def token : JoinOp → TokenKind
  | pipe => .pipe
  | and => .ampAmp
  | or => .pipePipe
  | write => .gt
  | append => .gtGt
  | read => .lt
  | readStr => .ltLtLt

/-- How tight the left side has to bind. On the left of a redirection stands a command. -/
def leftRank (op : JoinOp) : Nat := if op.isRedirect then 4 else op.precedence

theorem lexes_sign (op : JoinOp) (rest : List Char) :
    Lexes (op.sign ++ ' ' :: rest) op.token op.sign (' ' :: rest) := by
  cases op <;> exact Lexes.operator rfl (by simp) rfl

end JoinOp

namespace Tree

/-- How tight a statement binds: a command binds tightest. -/
def rank : Tree → Nat
  | join op _ _ | dangling op _ => op.precedence
  | _ => 4

/-! ## Texts -/

def leafChars : Leaf → List Char
  | .ident text => guarded isInline text.toList
  | .whitespace text => text.toList
  | .quote text => '\'' :: (text.toList ++ ['\''])
  | .var name => '$' :: name.toList
  | .comment => ['#']

mutual

def print : Tree → List Char
  | seq .script body => printStatements body
  | seq (.command _) body => printParts body
  | seq (.group _) body => '(' :: (printStatements body ++ [')'])
  | seq .dblQuote body => '"' :: (printParts body ++ ['"'])
  | seq (.sub .dollar _) body => '$' :: '(' :: (printStatements body ++ [')'])
  | seq (.sub .backtick _) body => '\x60' :: (printStatements body ++ ['\x60'])
  | join op left right => print left ++ ' ' :: (op.sign ++ ' ' :: print right)
  | dangling op left => print left ++ ' ' :: op.sign
  | leaf l => leafChars l

def printParts : List Tree → List Char
  | [] => []
  | t :: ts => print t ++ printParts ts

/-- Statements, each but the first on a line of its own. -/
def printStatements : List Tree → List Char
  | [] => []
  | t :: ts => print t ++ printRest ts

def printRest : List Tree → List Char
  | [] => []
  | t :: ts => '\n' :: (print t ++ printRest ts)

end

/-- A script as a text. -/
def printScript (ts : List Tree) : String := String.ofList (printStatements ts)

theorem printStatements_cons_cons (t t' : Tree) (ts : List Tree) :
    printStatements (t :: t' :: ts) = print t ++ '\n' :: printStatements (t' :: ts) := by
  simp [printStatements, printRest]

theorem printParts_append (ts us : List Tree) :
    printParts (ts ++ us) = printParts ts ++ printParts us := by
  induction ts with
  | nil => simp [printParts]
  | cons t ts ih => simp [printParts, ih]

/-! ## The grammar -/

/-- Where a tree stands. -/
inductive Role where
  /-- Among statements, or beside an operator; a target on the right of a redirection. -/
  | operand (target : Bool)
  /-- In a word of a command, or in double quotes. -/
  | part (quoted : Bool)

/-- Two neighbours in a word that are not taken for one. -/
def Apart : Tree → Tree → Prop
  | leaf (.ident _), leaf (.ident _) => False
  | leaf (.var _), leaf (.ident text) => ∀ c ∈ text.toList.head?, isNameChar c = false
  | _, _ => True

/-- A command of words, with a space between each two of them. -/
def ofWords (target : Bool) (words : List (List Tree)) : Tree :=
  .seq (.command target) ([Cursor.gapLeaf].intercalate words)

/-- The trees of the grammar. -/
inductive Canonical : Role → Tree → Prop
  | ident {quoted : Bool} {text : String} (hne : text.toList ≠ [])
      (hline : quoted = false → '\n' ∉ text.toList) :
      Canonical (.part quoted) (.leaf (.ident text))
  | var {quoted : Bool} {name : String} (hne : name.toList ≠ [])
      (hname : name.toList.all isNameChar = true) : Canonical (.part quoted) (.leaf (.var name))
  | quote {text : String} (h : '\'' ∉ text.toList) : Canonical (.part false) (.leaf (.quote text))
  | dblQuote {parts : List Tree} (hparts : ∀ t ∈ parts, Canonical (.part true) t)
      (hapart : parts.IsChain Apart) : Canonical (.part false) (.seq .dblQuote parts)
  | sub {quoted : Bool} {body : List Tree} (hbody : ∀ t ∈ body, Canonical (.operand false) t) :
      Canonical (.part quoted) (.seq (.sub .dollar quoted) body)
  | words {target : Bool} {words : List (List Tree)} (hne : words ≠ [])
      (hparts : ∀ w ∈ words, ∀ t ∈ w, Canonical (.part false) t)
      (hwords : ∀ w ∈ words, w ≠ [] ∧ w.IsChain Apart) :
      Canonical (.operand target) (ofWords target words)
  | group {body : List Tree} (hbody : ∀ t ∈ body, Canonical (.operand false) t) :
      Canonical (.operand false) (.seq (.command false) [.seq (.group true) body])
  | join {op : JoinOp} {left right : Tree} (hleft : Canonical (.operand false) left)
      (hright : Canonical (.operand op.isRedirect) right) (hl : op.leftRank ≤ left.rank)
      (hr : op.precedence < right.rank) : Canonical (.operand false) (.join op left right)

/-! ## Tidy trees -/

/-- Puts a part before others; text becomes one with text. -/
def addPart : Tree → List Tree → List Tree
  | leaf (.ident a), leaf (.ident b) :: ts => leaf (.ident (a ++ b)) :: ts
  | t, ts => t :: ts

def mergeIdents (ts : List Tree) : List Tree := ts.foldr addPart []

/-- Without white space at the end. -/
def dropGap (ts : List Tree) : List Tree :=
  match ts.reverse with
  | leaf (.whitespace _) :: older => older.reverse
  | _ => ts

def tidyBody : Sequence → List Tree → List Tree
  | .command _, ts => dropGap ts
  | .dblQuote, ts => mergeIdents ts
  | _, ts => ts

mutual

def tidy : Tree → Tree
  | seq kind body => seq kind (tidyBody kind (tidyAll body))
  | join op left right => join op (tidy left) (tidy right)
  | dangling op left => dangling op (tidy left)
  | leaf l => leaf l

def tidyAll : List Tree → List Tree
  | [] => []
  | t :: ts => tidy t :: tidyAll ts

end

theorem tidyAll_eq (ts : List Tree) : tidyAll ts = ts.map tidy := by
  induction ts with
  | nil => rfl
  | cons t ts ih => simp [tidyAll, ih]

theorem rank_tidy (t : Tree) : t.tidy.rank = t.rank := by
  cases t <;> simp [tidy, rank]

theorem wordClass_tidy (t : Tree) : Cursor.wordClass t.tidy = Cursor.wordClass t := by
  cases t <;> simp [tidy, Cursor.wordClass]

end Tree

end PocketShell
