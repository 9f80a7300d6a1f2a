import PocketShell.Script.Growth
import PocketShell.Script.Tree

/-!
# A script with a cursor

A script under construction as a tree that is open along one path: the way from the script down to
the context, which is always the last child of its parent. Nodes have no numbers here, and nothing
is shared.

* `Focus` : the context; `Crumb` : a node above it, with the children before the open one;
* `Cursor.feed` : hands the focus a token and gives the next cursor;
* `Cursor.Valid` : every node on the path stands where it may stand. Feeding keeps that, or finds a
  fault of the script (`Cursor.sound_feed`).
-/

namespace PocketShell

/-! ## Cursors -/

/-- A node above the context, without the child that leads to it. -/
inductive Crumb where
  /-- The other children are kept newest first. -/
  | seq (kind : Sequence) (older : List Tree)
  | join (op : JoinOp) (left : Tree)

/-- A node that receives tokens. -/
inductive Focus where
  /-- The children are kept newest first. -/
  | seq (kind : Sequence) (parts : List Tree)
  | leaf (leaf : Leaf)

/-- A context, and the nodes above it from its parent up to the script. -/
structure Cursor where
  focus : Focus
  path : List Crumb

/-- The tree of a crumb with `t` as its last child. -/
def Crumb.fill (t : Tree) : Crumb → Tree
  | seq kind older => .seq kind (t :: older).reverse
  | join op left => .join op left t

def Focus.tree : Focus → Tree
  | seq kind parts => .seq kind parts.reverse
  | leaf l => .leaf l

namespace Cursor

/-- The script before the first token. -/
def start : Cursor := ⟨.seq .script [], []⟩

/-- The tree below the outermost of the crumbs. -/
def plug (t : Tree) : List Crumb → Tree
  | [] => t
  | crumb :: path => plug (crumb.fill t) path

/-- The whole script. -/
def tree (c : Cursor) : Tree := plug c.focus.tree c.path

/-! ## Questions about the focus -/

def isComment : Tree → Bool
  | .leaf .comment => true
  | _ => false

def wordClass : Tree → WordClass
  | .seq kind _ => kind.wordClass
  | .join .. | .dangling .. => .other
  | .leaf l => l.wordClass

/-- Whether a command with these parts holds anything besides comments. -/
def hasWords (parts : List Tree) : Bool := parts.any fun part => !isComment part

/-- Whether the last of the parts is part of a word. -/
def endsInWord (parts : List Tree) : Bool :=
  match parts.head?.map wordClass with
  | some .literal | some .expansion => true
  | _ => false

/-- Whether a node below this path is an operand of a join. -/
def isOperand : List Crumb → Bool
  | .join .. :: _ => true
  | _ => false

/-! ## Going up -/

/-- The nearest sequence above `t` that has an answer: the answer, and the sequence with what is
above it. -/
def ascend {α : Type} (answer : Sequence → Option α) :
    Tree → List Crumb → Option (α × Sequence × List Tree × List Crumb)
  | _, [] => none
  | t, .seq kind older :: path =>
    match answer kind with
    | some a => some (a, kind, t :: older, path)
    | none => ascend answer (.seq kind (t :: older).reverse) path
  | t, .join op left :: path => ascend answer (.join op left t) path

/-- What a closing parenthesis closes, or cannot cross. -/
def parenthesis : Sequence → Option (Except Fault Unit)
  | .group false | .sub .dollar _ => some (.ok ())
  | .sub .backtick _ => some (.error .unexpectedToken)
  | _ => none

def substitution : Sequence → Option SubStyle
  | .sub style _ => some style
  | _ => none

def statementList : Sequence → Option Unit
  | .script | .group false | .sub .. => some ()
  | _ => none

/-- The sequence around `t`, with `t` in it. -/
def leave (t : Tree) : List Crumb → Except Fault Cursor
  | .seq kind older :: path => .ok ⟨.seq kind (t :: older), path⟩
  | _ => .error .unknown

/-- Ends a group or a substitution. -/
def close (kind : Sequence) (parts : List Tree) (path : List Crumb) : Except Fault Cursor :=
  match kind with
  | .group _ => .ok ⟨.seq (.group true) parts, path⟩
  | .sub .. => leave (.seq kind parts.reverse) path
  | _ => .error .unknown

def closeParenthesis (t : Tree) (path : List Crumb) : Except Fault Cursor :=
  match ascend parenthesis t path with
  | some (.ok _, kind, parts, path) => close kind parts path
  | some (.error cause, _) => .error cause
  | none => .error .unexpectedToken

def backtick (kind : Sequence) (parts : List Tree) (path : List Crumb) (quoted : Bool) :
    Except Fault Cursor :=
  match ascend substitution (.seq kind parts.reverse) path with
  | some (.backtick, kind, parts, path) => close kind parts path
  | _ => .ok ⟨.seq (.sub .backtick quoted) [], .seq kind parts :: path⟩

def endStatement (t : Tree) (path : List Crumb) : Except Fault Cursor :=
  match ascend statementList t path with
  | some (_, kind, parts, path) => .ok ⟨.seq kind parts, path⟩
  | none => .error .unknown

/-! ## Joining -/

/-- The widest left operand that ends with `t` and binds at least as tight as `op`, and what is
above it. -/
def widest (op : JoinOp) : Tree → List Crumb → Tree × List Crumb
  | t, .join outer left :: path =>
    if outer.bindsAtLeast op then widest op (.join outer left t) path
    else (t, .join outer left :: path)
  | t, path => (t, path)

/-- Puts a join in the place of its left operand; the focus is the empty command on its right. -/
def join (t : Tree) (path : List Crumb) (op : JoinOp) (target : Bool) : Except Fault Cursor :=
  if target && op.isRedirect then .error .unexpectedToken
  else
    let (operand, path) := widest op t path
    .ok ⟨.seq (.command op.isRedirect) [], .join op operand :: path⟩

/-! ## One token -/

def feedCommand (target : Bool) (parts : List Tree) (path : List Crumb) (token : Token) :
    Except Fault Cursor :=
  let kind := Sequence.command target
  let tree := Tree.seq kind parts.reverse
  match token.kind with
  | .newline =>
    if !hasWords parts && isOperand path then .ok ⟨.seq kind parts, path⟩
    else endStatement tree path
  | .semicolon => if !hasWords parts then .error .unexpectedToken else endStatement tree path
  | .identifier => .ok ⟨.seq kind (.leaf (.ident token.value) :: parts), path⟩
  | .whitespace =>
    if endsInWord parts then .ok ⟨.seq kind (.leaf (.whitespace token.value) :: parts), path⟩
    else .ok ⟨.seq kind parts, path⟩
  | .lparen =>
    if hasWords parts || target then .error .unexpectedToken
    else .ok ⟨.seq (.group false) [], .seq kind parts :: path⟩
  | .rparen => closeParenthesis tree path
  | .dollar => .ok ⟨.leaf (.var ""), .seq kind parts :: path⟩
  | .dollarParen => .ok ⟨.seq (.sub .dollar false) [], .seq kind parts :: path⟩
  | .backtick => backtick kind parts path false
  | .quote => .ok ⟨.leaf (.quote ""), .seq kind parts :: path⟩
  | .dblQuote => .ok ⟨.seq .dblQuote [], .seq kind parts :: path⟩
  | .hash => .ok ⟨.leaf .comment, .seq kind parts :: path⟩
  | other =>
    if !hasWords parts then .error .unexpectedToken
    else
      match JoinOp.ofToken? other with
      | some op => join tree path op target
      | none => .error .unknownToken

/-- The script, an open group or a substitution, between two statements. -/
def feedList (kind : Sequence) (parts : List Tree) (path : List Crumb) (token : Token) :
    Except Fault Cursor :=
  match token.kind, kind with
  | .whitespace, _ | .newline, _ | .semicolon, _ => .ok ⟨.seq kind parts, path⟩
  | .rparen, .group _ | .rparen, .sub .dollar _ => close kind parts path
  | .rparen, _ => .error .unexpectedToken
  | .backtick, .sub .backtick _ => close kind parts path
  | _, _ => feedCommand false [] (.seq kind parts :: path) token

def feedClosedGroup (parts : List Tree) (path : List Crumb) (token : Token) :
    Except Fault Cursor :=
  let tree := Tree.seq (.group true) parts.reverse
  match path with
  | .seq holder older :: rest =>
    match token.kind with
    | .whitespace => .ok ⟨.seq (.group true) parts, path⟩
    | .newline | .semicolon => endStatement tree path
    | .rparen => closeParenthesis tree path
    | .hash => .ok ⟨.leaf .comment, .seq holder (tree :: older) :: rest⟩
    | other =>
      match JoinOp.ofToken? other with
      | some op => join (.seq holder (tree :: older).reverse) rest op false
      | none => .error .unexpectedToken
  | _ => .error .unknown

def feedDblQuote (parts : List Tree) (path : List Crumb) (token : Token) : Except Fault Cursor :=
  match token.kind with
  | .dblQuote => leave (.seq .dblQuote parts.reverse) path
  | .dollar => .ok ⟨.leaf (.var ""), .seq .dblQuote parts :: path⟩
  | .dollarParen => .ok ⟨.seq (.sub .dollar true) [], .seq .dblQuote parts :: path⟩
  | .backtick => backtick .dblQuote parts path true
  | _ => .ok ⟨.seq .dblQuote (.leaf (.ident token.value) :: parts), path⟩

/-- A token for a node that holds others. -/
def feedSequence (kind : Sequence) (parts : List Tree) (path : List Crumb) (token : Token) :
    Except Fault Cursor :=
  match kind with
  | .script | .group false | .sub .. => feedList kind parts path token
  | .group true => feedClosedGroup parts path token
  | .command target => feedCommand target parts path token
  | .dblQuote => feedDblQuote parts path token

/-- A token for the focus, if that holds others. -/
def feedFocus (c : Cursor) (token : Token) : Except Fault Cursor :=
  match c.focus with
  | .seq kind parts => feedSequence kind parts c.path token
  | .leaf _ => .error .unknown

/-- A variable takes the name characters at the start of a word and leaves the rest to its parent.
A `$` without a name is a literal. -/
def feedVariable (name : String) (path : List Crumb) (token : Token) : Except Fault Cursor :=
  match path with
  | .seq kind older :: rest =>
    if token.kind = .identifier then
      let text := name.toList ++ token.value.toList
      let matched := text.takeWhile isNameChar
      if matched.isEmpty then feedSequence kind older rest { token with value := "$" ++ token.value }
      else if matched.length < text.length then
        feedSequence kind (.leaf (.var (String.ofList matched)) :: older) rest
          { token with value := String.ofList (text.drop matched.length) }
      else .ok ⟨.leaf (.var (String.ofList matched)), path⟩
    else if name.isEmpty then
      match feedSequence kind older rest { token with kind := .identifier, value := "$" } with
      | .ok next => next.feedFocus token
      | .error cause => .error cause
    else feedSequence kind (.leaf (.var name) :: older) rest token
  | _ => .error .unknown

/-- Whether this token makes a literal of the `$` of a variable: no name follows. -/
def literalDollar (name : String) (token : Token) : Bool :=
  if token.kind = .identifier then
    ((name.toList ++ token.value.toList).takeWhile isNameChar).isEmpty
  else name.isEmpty

/-- Whether the focus is a variable that this token makes a literal of. -/
def drops (c : Cursor) (token : Token) : Bool :=
  match c.focus with
  | .leaf (.var name) => literalDollar name token
  | _ => false

/-- Hands a token to the focus and gives the next cursor. -/
def feed (c : Cursor) (token : Token) : Except Fault Cursor :=
  match c.focus with
  | .leaf (.var name) => feedVariable name c.path token
  | .leaf (.quote _) => leave (.leaf (.quote token.value)) c.path
  | .leaf .comment =>
    if token.kind = .newline then
      match leave (.leaf .comment) c.path with
      | .ok c => c.feedFocus token
      | .error cause => .error cause
    else .ok c
  | _ => c.feedFocus token

/-! ## Where nodes may stand -/

end Cursor

def Crumb.label : Crumb → Tree.Label
  | seq kind _ => .seq kind
  | join op _ => .join op

def Focus.label : Focus → Tree.Label
  | seq kind _ => .seq kind
  | leaf l => .leaf l

/-- Whether a node may be the open child of a crumb. On the right of a join stands something that
binds tighter, and a target if the join is a redirection. -/
def Crumb.admits : Crumb → Tree.Label → Bool
  | seq .script _, .seq (.command target) => !target
  | seq (.group false) _, .seq (.command target) => !target
  | seq (.sub ..) _, .seq (.command target) => !target
  | seq .script _, .join _ => true
  | seq (.group false) _, .join _ => true
  | seq (.sub ..) _, .join _ => true
  | seq (.command target) _, .seq (.group _) => !target
  | seq (.command _) _, .seq .dblQuote => true
  | seq (.command _) _, .seq (.sub _ quoted) => !quoted
  | seq (.command _) _, .leaf (.var name) => name.toList.all isNameChar
  | seq (.command _) _, .leaf (.quote _) => true
  | seq (.command _) _, .leaf .comment => true
  | seq .dblQuote _, .seq (.sub _ quoted) => quoted
  | seq .dblQuote _, .leaf (.var name) => name.toList.all isNameChar
  | join op _, .seq (.command target) => target = op.isRedirect
  | join op _, .join inner => op.precedence < inner.precedence
  | _, _ => false

attribute [local simp] Crumb.admits

/-- The nodes that stand in lists of statements and beside operators. -/
def Tree.Label.isStatement : Tree.Label → Bool
  | .seq (.command _) | .join _ => true
  | _ => false

/-- The sequences whose members are not statements. -/
def Sequence.isHolder : Sequence → Bool
  | .command _ | .dblQuote => true
  | _ => false

theorem Crumb.isHolder_of_admits {crumb : Crumb} {label : Tree.Label}
    (h : crumb.admits label = true) (hlabel : label.isStatement = false) :
    ∃ kind older, crumb = .seq kind older ∧ kind.isHolder = true := by
  cases crumb with
  | seq kind older =>
    refine ⟨kind, older, rfl, ?_⟩
    cases kind with
    | command | dblQuote => rfl
    | script | sub =>
      cases label with
      | seq inner =>
        cases inner <;> first | exact Bool.noConfusion h | exact Bool.noConfusion hlabel
      | join => nomatch hlabel
      | leaf => nomatch h
    | group closed =>
      cases label with
      | seq inner =>
        cases closed <;> cases inner <;>
          first | exact Bool.noConfusion h | exact Bool.noConfusion hlabel
      | join => nomatch hlabel
      | leaf => cases closed <;> nomatch h
  | join op left =>
    cases label with
    | seq inner => cases inner <;> first | exact Bool.noConfusion h | exact Bool.noConfusion hlabel
    | join => nomatch hlabel
    | leaf => nomatch h

theorem Crumb.admits_group (crumb : Crumb) (closed closed' : Bool) :
    crumb.admits (.seq (.group closed)) = crumb.admits (.seq (.group closed')) := by
  cases crumb with
  | seq kind older => cases kind <;> simp
  | join op left => rfl

namespace Cursor

/-- Whether a node and all above it stand where they may, up to a script. -/
def ValidBelow : Tree.Label → List Crumb → Prop
  | label, [] => label = .seq .script
  | label, crumb :: path => crumb.admits label = true ∧ ValidBelow crumb.label path

def Valid (c : Cursor) : Prop := ValidBelow c.focus.label c.path

theorem valid_start : start.Valid := rfl

/-- A part of a command or of a text in double quotes stands in one. -/
theorem holder_of_valid {label : Tree.Label} {path : List Crumb} (h : ValidBelow label path)
    (hlabel : label.isStatement = false) (hscript : label ≠ .seq .script) :
    ∃ kind older rest, path = .seq kind older :: rest ∧ kind.isHolder = true ∧
      ValidBelow (.seq kind) rest := by
  cases path with
  | nil => exact absurd h hscript
  | cons crumb rest =>
    obtain ⟨kind, older, rfl, hkind⟩ := Crumb.isHolder_of_admits h.1 hlabel
    exact ⟨kind, older, rest, rfl, hkind, h.2⟩

/-- A script stands in nothing. -/
theorem path_of_script {path : List Crumb} (h : ValidBelow (.seq .script) path) : path = [] := by
  cases path with
  | nil => rfl
  | cons crumb rest =>
    have hadmits : crumb.admits (.seq .script) = true := h.1
    cases crumb with
    | join op left => simp at hadmits
    | seq kind older => cases kind <;> simp at hadmits

/-- Words and white space never receive tokens. -/
theorem leaf_of_valid {l : Leaf} {path : List Crumb} (h : ValidBelow (.leaf l) path) :
    (∃ name, l = .var name) ∨ (∃ text, l = .quote text) ∨ l = .comment := by
  obtain ⟨kind, older, rest, rfl, -, -⟩ := holder_of_valid h rfl (by simp)
  have hadmits : (Crumb.seq kind older).admits (.leaf l) = true := h.1
  cases l with
  | var name => exact .inl ⟨name, rfl⟩
  | quote text => exact .inr (.inl ⟨text, rfl⟩)
  | comment => exact .inr (.inr rfl)
  | ident | whitespace => cases kind <;> simp at hadmits

/-- The name of a variable that receives tokens. -/
theorem isNameChar_of_valid {name : String} {path : List Crumb}
    (h : ValidBelow (.leaf (.var name)) path) : name.toList.all isNameChar = true := by
  obtain ⟨kind, older, rest, rfl, -, -⟩ := holder_of_valid h rfl (by simp)
  have hadmits : (Crumb.seq kind older).admits (.leaf (.var name)) = true := h.1
  cases kind with
  | command | dblQuote => exact hadmits
  | script | group | sub => simp at hadmits

/-- A group stands in a command that is not a target. -/
theorem command_of_group {closed : Bool} {path : List Crumb}
    (h : ValidBelow (.seq (.group closed)) path) :
    ∃ older rest, path = .seq (.command false) older :: rest ∧
      ValidBelow (.seq (.command false)) rest := by
  obtain ⟨kind, older, rest, rfl, hkind, hrest⟩ := holder_of_valid h rfl (by simp)
  have hadmits : (Crumb.seq kind older).admits (.seq (.group closed)) = true := h.1
  cases kind with
  | command target =>
    obtain rfl : target = false := by simpa using hadmits
    exact ⟨older, rest, rfl, hrest⟩
  | script | group | dblQuote | sub => simp at hadmits

/-- A sequence around a statement is a list of statements. -/
theorem statementList_of_admits {kind : Sequence} {older : List Tree} {label : Tree.Label}
    (h : (Crumb.seq kind older).admits label = true) (hlabel : label.isStatement = true) :
    statementList kind = some () := by
  cases kind with
  | script | sub => rfl
  | group closed =>
    cases closed with
    | false => rfl
    | true => cases label <;> nomatch h
  | command | dblQuote =>
    cases label with
    | seq inner => cases inner <;> first | exact Bool.noConfusion h | exact Bool.noConfusion hlabel
    | join => nomatch h
    | leaf => nomatch hlabel

theorem admits_command {kind : Sequence} (older : List Tree)
    (h : statementList kind = some ()) :
    (Crumb.seq kind older).admits (.seq (.command false)) = true := by
  unfold statementList at h
  split at h <;> simp_all

theorem validBelow_ascend {α : Type} {answer : Sequence → Option α} {label : Tree.Label} {t : Tree}
    {path rest : List Crumb} {a : α} {kind : Sequence} {parts : List Tree}
    (h : ValidBelow label path) (ha : ascend answer t path = some (a, kind, parts, rest)) :
    answer kind = some a ∧ ValidBelow (.seq kind) rest := by
  induction path generalizing label t with
  | nil => simp [ascend] at ha
  | cons crumb path ih =>
    cases crumb with
    | seq k older =>
      simp only [ascend] at ha
      split at ha
      · rename_i b hb
        simp only [Option.some.injEq, Prod.mk.injEq] at ha
        obtain ⟨rfl, rfl, -, rfl⟩ := ha
        exact ⟨hb, h.2⟩
      · exact ih h.2 ha
    | join op left => exact ih h.2 ha

/-- Above every node is a list of statements, the script if no other. -/
theorem ascend_statementList_ne_none {label : Tree.Label} {t : Tree} {path : List Crumb}
    (h : ValidBelow label path) (hscript : label ≠ .seq .script) :
    ascend statementList t path ≠ none := by
  induction path generalizing label t with
  | nil => exact absurd h hscript
  | cons crumb path ih =>
    cases crumb with
    | join op left => exact ih h.2 (by simp [Crumb.label])
    | seq kind older =>
      simp only [ascend]
      split
      · simp
      · rename_i hnone
        refine ih h.2 ?_
        simp only [Crumb.label, ne_eq, Tree.Label.seq.injEq]
        rintro rfl
        simp [statementList] at hnone

/-- What is left above the widest operand takes a join in its place. -/
theorem validBelow_widest {label : Tree.Label} (op : JoinOp) (t : Tree) {path : List Crumb}
    (h : ValidBelow label path) (hlabel : label.isStatement = true) :
    ValidBelow (.join op) (widest op t path).2 := by
  induction path generalizing label t with
  | nil =>
    rw [show label = .seq .script from h] at hlabel
    simp [Tree.Label.isStatement] at hlabel
  | cons crumb path ih =>
    cases crumb with
    | seq kind older =>
      have hkind := statementList_of_admits h.1 hlabel
      refine ⟨?_, h.2⟩
      unfold statementList at hkind
      split at hkind <;> simp_all
    | join outer left =>
      simp only [widest]
      split
      · exact ih _ h.2 rfl
      · rename_i hbinds
        refine ⟨?_, h.2⟩
        simpa [JoinOp.bindsAtLeast] using hbinds

/-! ## What feeding may come to -/

/-- A valid cursor, or a fault of the script. -/
def Sound : Except Fault Cursor → Prop
  | .ok c => c.Valid
  | .error cause => cause ≠ .unknown

theorem sound_leave {label : Tree.Label} {t : Tree} {path : List Crumb}
    (h : ValidBelow label path) (hlabel : label.isStatement = false)
    (hscript : label ≠ .seq .script) : Sound (leave t path) := by
  obtain ⟨kind, older, rest, rfl, -, hrest⟩ := holder_of_valid h hlabel hscript
  exact hrest

theorem sound_close {kind : Sequence} {parts : List Tree} {path : List Crumb}
    (h : ValidBelow (.seq kind) path) (hkind : statementList kind = some ())
    (hscript : kind ≠ .script) : Sound (close kind parts path) := by
  unfold statementList at hkind
  split at hkind
  · exact absurd rfl hscript
  · -- a group may be closed wherever it may be open
    cases path with
    | nil => simp [ValidBelow] at h
    | cons crumb rest => exact ⟨(crumb.admits_group false true).symm.trans h.1, h.2⟩
  · exact sound_leave h rfl (by simp)
  · simp at hkind

theorem sound_closeParenthesis {label : Tree.Label} {t : Tree} {path : List Crumb}
    (h : ValidBelow label path) : Sound (closeParenthesis t path) := by
  unfold closeParenthesis
  split
  · rename_i ha
    obtain ⟨hanswer, hrest⟩ := validBelow_ascend h ha
    unfold parenthesis at hanswer
    split at hanswer <;> simp at hanswer <;> exact sound_close hrest rfl (by simp)
  · rename_i ha
    obtain ⟨hanswer, -⟩ := validBelow_ascend h ha
    unfold parenthesis at hanswer
    split at hanswer <;> simp at hanswer
    simp [Sound, ← hanswer]
  · simp [Sound]

theorem sound_backtick {kind : Sequence} {parts : List Tree} {path : List Crumb} {quoted : Bool}
    (h : ValidBelow (.seq kind) path)
    (hkind : (Crumb.seq kind parts).admits (.seq (.sub .backtick quoted)) = true) :
    Sound (backtick kind parts path quoted) := by
  unfold backtick
  split
  · rename_i ha
    obtain ⟨hanswer, hrest⟩ := validBelow_ascend h ha
    unfold substitution at hanswer
    split at hanswer <;> simp at hanswer
    exact sound_close hrest rfl (by simp)
  · exact ⟨hkind, h⟩

theorem sound_endStatement {label : Tree.Label} {t : Tree} {path : List Crumb}
    (h : ValidBelow label path) (hscript : label ≠ .seq .script) :
    Sound (endStatement t path) := by
  unfold endStatement
  split
  · rename_i ha
    exact (validBelow_ascend h ha).2
  · rename_i ha
    exact absurd ha (ascend_statementList_ne_none h hscript)

theorem sound_join {label : Tree.Label} {t : Tree} {path : List Crumb} {op : JoinOp}
    {target : Bool} (h : ValidBelow label path) (hlabel : label.isStatement = true) :
    Sound (join t path op target) := by
  unfold join
  split
  · simp [Sound]
  · exact ⟨by simp [Focus.label], validBelow_widest op t h hlabel⟩

theorem sound_feedCommand {target : Bool} {parts : List Tree} {path : List Crumb} {token : Token}
    (h : ValidBelow (.seq (.command target)) path) :
    Sound (feedCommand target parts path token) := by
  unfold feedCommand
  dsimp only
  split
  case h_1 =>
    split
    · exact h
    · exact sound_endStatement h (by simp)
  case h_2 =>
    split
    · simp [Sound]
    · exact sound_endStatement h (by simp)
  case h_3 => exact h
  case h_4 => split <;> exact h
  case h_5 =>
    split
    · simp [Sound]
    · refine ⟨?_, h⟩
      simp_all [Focus.label]
  case h_6 => exact sound_closeParenthesis h
  case h_7 => exact ⟨rfl, h⟩
  case h_8 => exact ⟨rfl, h⟩
  case h_9 => exact sound_backtick h rfl
  case h_10 => exact ⟨rfl, h⟩
  case h_11 => exact ⟨rfl, h⟩
  case h_12 => exact ⟨rfl, h⟩
  case h_13 =>
    split
    · simp [Sound]
    · split
      · exact sound_join h rfl
      · simp [Sound]

theorem sound_feedList {kind : Sequence} {parts : List Tree} {path : List Crumb} {token : Token}
    (h : ValidBelow (.seq kind) path) (hkind : statementList kind = some ()) :
    Sound (feedList kind parts path token) := by
  unfold feedList
  split
  iterate 3 exact h
  case h_4 => exact sound_close h hkind (by simp)
  case h_5 => exact sound_close h hkind (by simp)
  case h_6 => simp [Sound]
  case h_7 => exact sound_close h hkind (by simp)
  case h_8 => exact sound_feedCommand ⟨admits_command parts hkind, h⟩

theorem sound_feedClosedGroup {parts : List Tree} {path : List Crumb} {token : Token}
    (h : ValidBelow (.seq (.group true)) path) : Sound (feedClosedGroup parts path token) := by
  obtain ⟨older, rest, rfl, hrest⟩ := command_of_group h
  unfold feedClosedGroup
  dsimp only
  split
  case h_1 => exact h
  case h_2 => exact sound_endStatement h (by simp)
  case h_3 => exact sound_endStatement h (by simp)
  case h_4 => exact sound_closeParenthesis h
  case h_5 => exact ⟨rfl, hrest⟩
  case h_6 =>
    split
    · exact sound_join hrest rfl
    · simp [Sound]

theorem sound_feedDblQuote {parts : List Tree} {path : List Crumb} {token : Token}
    (h : ValidBelow (.seq .dblQuote) path) : Sound (feedDblQuote parts path token) := by
  unfold feedDblQuote
  split
  case h_1 => exact sound_leave h rfl (by simp)
  case h_2 => exact ⟨rfl, h⟩
  case h_3 => exact ⟨rfl, h⟩
  case h_4 => exact sound_backtick h rfl
  case h_5 => exact h

theorem sound_feedSequence {kind : Sequence} {parts : List Tree} {path : List Crumb}
    {token : Token} (h : ValidBelow (.seq kind) path) :
    Sound (feedSequence kind parts path token) := by
  unfold feedSequence
  split
  case h_1 => exact sound_feedList h rfl
  case h_2 => exact sound_feedList h rfl
  case h_3 => exact sound_feedList h rfl
  case h_4 => exact sound_feedClosedGroup h
  case h_5 => exact sound_feedCommand h
  case h_6 => exact sound_feedDblQuote h

/-- A holder takes a word and stays the focus. -/
theorem feedSequence_identifier {kind : Sequence} {parts : List Tree} {path : List Crumb}
    {token : Token} (hkind : kind.isHolder = true) (htoken : token.kind = .identifier) :
    feedSequence kind parts path token =
      .ok ⟨.seq kind (.leaf (.ident token.value) :: parts), path⟩ := by
  cases kind <;> simp_all [Sequence.isHolder, feedSequence, feedCommand, feedDblQuote]

theorem sound_feedVariable {name : String} {path : List Crumb} {token : Token}
    (h : ValidBelow (.leaf (.var name)) path) : Sound (feedVariable name path token) := by
  obtain ⟨kind, older, rest, rfl, hkind, hrest⟩ := holder_of_valid h rfl (by simp)
  unfold feedVariable
  dsimp only
  split
  · split
    · exact sound_feedSequence hrest
    · split
      · exact sound_feedSequence hrest
      · refine ⟨?_, hrest⟩
        have hname := List.all_takeWhile (p := isNameChar) (l := name.toList ++ token.value.toList)
        cases kind <;> simp_all [Sequence.isHolder, Focus.label]
  · split
    · rw [feedSequence_identifier hkind rfl]
      exact sound_feedSequence hrest
    · exact sound_feedSequence hrest

/-- From a valid cursor feeding leads to a valid cursor, or finds a fault in the script. -/
theorem sound_feed {c : Cursor} (token : Token) (h : c.Valid) : Sound (c.feed token) := by
  obtain ⟨focus, path⟩ := c
  cases focus with
  | seq kind parts => exact sound_feedSequence h
  | leaf l =>
    rcases leaf_of_valid h with ⟨name, rfl⟩ | ⟨text, rfl⟩ | rfl
    · exact sound_feedVariable h
    · exact sound_leave h rfl (by simp [Focus.label])
    · simp only [feed]
      split
      · obtain ⟨kind, older, rest, rfl, -, hrest⟩ := holder_of_valid h rfl (by simp [Focus.label])
        exact sound_feedSequence hrest
      · exact h

end Cursor

end PocketShell
