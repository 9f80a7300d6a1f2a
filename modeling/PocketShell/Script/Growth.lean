import PocketShell.Script.Forest
import PocketShell.Token.Reading

/-!
# Growing a script

A script grows one token at a time. The node that receives the next token is the *context*;
`Forest.feed` hands it a token and gives the next context: the same node, a new child, or one of
its ancestors.

    script    ::= statement ((';' | newline) statement)*
    statement ::= command (op command)*          op: | || && < > >> <<<
    command   ::= '(' script ')' | part*
    part      ::= word | '$' name | '$(' script ')' | '`' script '`'
                | "'" text "'" | '"' (text | '$' name | substitution)* '"'

Redirections bind tighter than `|`, and `|` tighter than `&&` and `||`; all associate to the left.
A forest that refused a token keeps the nodes that were made on the way.
-/

namespace PocketShell

/-- A change of the forest that may fail. The forest is kept in either case. -/
abbrev Growth (α : Type) := ExceptT Fault (StateM Forest) α

namespace Growth

/-- The parent of a node that must have one. -/
def parentOf (id : NodeId) : Growth NodeId := do
  match (← get).parent? id with
  | some p => return p
  | none => throw .unknown

def addChild (parent : NodeId) (shape : Shape) : Growth NodeId := do
  let (f, result) := (← get).addChild parent shape
  set f
  match result with
  | .ok id => return id
  | .error cause => throw cause

def push (parent child : NodeId) : Growth Unit := do
  match ((← get).shape parent).refusal? with
  | some cause => throw cause
  | none => modify (·.attach parent child)

def pop (parent : NodeId) : Growth NodeId := do
  match ((← get).shape parent).removable with
  | .error cause => throw cause
  | .ok child =>
    modify (·.detach parent child)
    return child

def addJoin (op : JoinOp) (left : NodeId) : Growth NodeId := do
  let (f, id) := (← get).addJoin op left
  set f
  return id

end Growth

namespace Forest

/-! ## Questions about the context -/

def isComment (f : Forest) (id : NodeId) : Bool :=
  match f.shape id with
  | .leaf .comment => true
  | _ => false

/-- Whether a command holds anything besides comments. -/
def hasWords (f : Forest) (command : NodeId) : Bool :=
  (f.children command).any fun part => !f.isComment part

/-- Whether a node is an operand of a join. -/
def isOperand (f : Forest) (id : NodeId) : Bool :=
  match (f.parent? id).map f.shape with
  | some (.join ..) => true
  | _ => false

/-- Whether the last part of a command is part of a word. -/
def endsInWord (f : Forest) (command : NodeId) : Bool :=
  match (f.last? command).map fun part => (f.shape part).wordClass with
  | some .literal | some .expansion => true
  | _ => false

/-- What a closing parenthesis closes, or a backtick substitution that it would have to cross. -/
def parenthesis? (f : Forest) (id : NodeId) : Option (Except Fault NodeId) :=
  f.nearest? (fun p =>
    match f.shape p with
    | .seq (.group false) _ | .seq (.sub .dollar _) _ => some (.ok p)
    | .seq (.sub .backtick _) _ => some (.error .unexpectedToken)
    | _ => none) id

/-- The innermost substitution around a node. -/
def substitution? (f : Forest) (id : NodeId) : Option (NodeId × SubStyle) :=
  f.nearest? (fun p =>
    match f.shape p with
    | .seq (.sub style _) _ => some (p, style)
    | _ => none) id

/-- The statement list around a node. -/
def statementList? (f : Forest) (id : NodeId) : Option NodeId :=
  f.nearest? (fun p => if f.isStatementList p then some p else none) id

/-- The widest left operand that ends with `operand` and binds at least as tight as `op`, at most `n`
joins above it. -/
def operandTo (f : Forest) (op : JoinOp) : Nat → NodeId → NodeId
  | 0, operand => operand
  | n + 1, operand =>
    match f.parent? operand with
    | none => operand
    | some p =>
      match f.shape p with
      | .join outer _ (some right) =>
        if right = operand ∧ outer.bindsAtLeast op then operandTo f op n p else operand
      | _ => operand

/-- The widest left operand that ends with `operand` and binds at least as tight as `op`. -/
def operandFor (f : Forest) (op : JoinOp) (operand : NodeId) : NodeId :=
  f.operandTo op f.size operand

end Forest

namespace Growth

/-! ## Closing and joining -/

/-- Ends a group or a substitution. A closed group stays the context, for operators can follow. -/
def close (id : NodeId) : Growth NodeId := do
  match (← get).shape id with
  | .seq (.group _) children =>
    modify (·.setShape id (.seq (.group true) children))
    return id
  | .seq (.sub ..) _ => parentOf id
  | _ => throw .unknown

/-- A closing parenthesis ends the nearest open group or `$(`. -/
def closeParenthesis (context : NodeId) : Growth NodeId := do
  match (← get).parenthesis? context with
  | some (.ok id) => close id
  | some (.error cause) => throw cause
  | none => throw .unexpectedToken

/-- A backtick ends the innermost substitution if a backtick began it, and else begins one. -/
def backtick (context : NodeId) (quoted : Bool) : Growth NodeId := do
  match (← get).substitution? context with
  | some (sub, .backtick) => close sub
  | _ => addChild context (.seq (.sub .backtick quoted) [])

/-- Back to the statement list around the context. -/
def endStatement (context : NodeId) : Growth NodeId := do
  match (← get).statementList? context with
  | some id => return id
  | none => throw .unknown

/-- Puts a join in the place of its left operand; the new context is the empty command on its
right. -/
def join (command : NodeId) (op : JoinOp) (target : Bool) : Growth NodeId := do
  if target && op.isRedirect then throw .unexpectedToken
  let operand := (← get).operandFor op command
  let parent ← parentOf operand
  let popped ← pop parent
  if popped ≠ operand then throw .unexpectedToken
  let joined ← addJoin op operand
  push parent joined
  addChild joined (.seq (.command op.isRedirect) [])

/-! ## One token -/

def feedCommand (context : NodeId) (token : Token) : Growth NodeId := do
  let f ← get
  let .seq (.command target) _ := f.shape context | throw .unknown
  let empty := !f.hasWords context
  match token.kind with
  | .newline =>
    -- after an operator the right side may stand on the next line
    if empty && f.isOperand context then return context else endStatement context
  | .semicolon => if empty then throw .unexpectedToken else endStatement context
  | .identifier =>
    let _ ← addChild context (.leaf (.ident token.value))
    return context
  | .whitespace =>
    if f.endsInWord context then
      let _ ← addChild context (.leaf (.whitespace token.value))
    return context
  | .lparen =>
    if !empty || target then throw .unexpectedToken
    addChild context (.seq (.group false) [])
  | .rparen => closeParenthesis context
  | .dollar => addChild context (.leaf (.var ""))
  | .dollarParen => addChild context (.seq (.sub .dollar false) [])
  | .backtick => backtick context false
  | .quote => addChild context (.leaf (.quote ""))
  | .dblQuote => addChild context (.seq .dblQuote [])
  | .hash => addChild context (.leaf .comment)
  | kind =>
    if empty then throw .unexpectedToken
    match JoinOp.ofToken? kind with
    | some op => join context op target
    | none => throw .unknownToken

/-- The script, an open group or a substitution, between two statements. -/
def feedList (context : NodeId) (kind : Sequence) (token : Token) : Growth NodeId := do
  match token.kind, kind with
  | .whitespace, _ | .newline, _ | .semicolon, _ => return context
  | .rparen, .group _ | .rparen, .sub .dollar _ => close context
  | .rparen, _ => throw .unexpectedToken
  | .backtick, .sub .backtick _ => close context
  | _, _ =>
    let command ← addChild context (.seq (.command false) [])
    feedCommand command token

/-- After a closed group only operators, comments and separators may follow. -/
def feedClosedGroup (context : NodeId) (token : Token) : Growth NodeId := do
  let holder ← parentOf context
  match token.kind with
  | .whitespace => return context
  | .newline | .semicolon => endStatement context
  | .rparen => closeParenthesis context
  | .hash => addChild holder (.leaf .comment)
  | kind =>
    match JoinOp.ofToken? kind with
    | some op => join holder op false
    | none => throw .unexpectedToken

def feedDblQuote (context : NodeId) (token : Token) : Growth NodeId := do
  match token.kind with
  | .dblQuote => parentOf context
  | .dollar => addChild context (.leaf (.var ""))
  | .dollarParen => addChild context (.seq (.sub .dollar true) [])
  | .backtick => backtick context true
  | _ =>
    let _ ← addChild context (.leaf (.ident token.value))
    return context

/-- A token for a node that holds others. -/
def feedSequence (context : NodeId) (token : Token) : Growth NodeId := do
  match (← get).shape context with
  | .seq .script _ => feedList context .script token
  | .seq (.group false) _ => feedList context (.group false) token
  | .seq (.sub style quoted) _ => feedList context (.sub style quoted) token
  | .seq (.group true) _ => feedClosedGroup context token
  | .seq (.command _) _ => feedCommand context token
  | .seq .dblQuote _ => feedDblQuote context token
  | .join .. | .leaf _ => throw .unknown

/-- A variable takes the name characters at the start of a word and leaves the rest to its parent.
A `$` without a name is a literal. -/
def feedVariable (context : NodeId) (name : String) (token : Token) : Growth NodeId := do
  let parent ← parentOf context
  if token.kind = .identifier then
    let text := name.toList ++ token.value.toList
    let matched := text.takeWhile isNameChar
    if matched.isEmpty then
      modify (·.setShape context (.leaf (.var (String.ofList text))))
      let _ ← pop parent
      feedSequence parent { token with value := "$" ++ token.value }
    else
      modify (·.setShape context (.leaf (.var (String.ofList matched))))
      if matched.length < text.length then
        feedSequence parent { token with value := String.ofList (text.drop matched.length) }
      else
        return context
  else if name.isEmpty then
    let _ ← pop parent
    let next ← feedSequence parent { token with kind := .identifier, value := "$" }
    feedSequence next token
  else
    feedSequence parent token

/-- The text between single quotes arrives as one token. -/
def feedQuote (context : NodeId) (token : Token) : Growth NodeId := do
  modify (·.setShape context (.leaf (.quote token.value)))
  parentOf context

/-- A comment ends with its line. -/
def feedComment (context : NodeId) (token : Token) : Growth NodeId := do
  if token.kind = .newline then feedSequence (← parentOf context) token else return context

/-- Hands a token to the context and gives the next context. -/
def feed (context : NodeId) (token : Token) : Growth NodeId := do
  match (← get).shape context with
  | .leaf (.var name) => feedVariable context name token
  | .leaf (.quote _) => feedQuote context token
  | .leaf .comment => feedComment context token
  | _ => feedSequence context token

end Growth

namespace Forest

/-- Hands a token to the context: the forest after it, and the next context. -/
def feed (f : Forest) (context : NodeId) (token : Token) : Forest × Except Fault NodeId :=
  let (result, f) := (Growth.feed context token).run.run f
  (f, result)

/-- Whether a script may end with this context: nothing is open, and no operator waits for its right
side. -/
def checkComplete (f : Forest) (context : NodeId) : Except Fault Unit := do
  let isOpen (id : NodeId) : Bool :=
    match f.shape id with
    | .seq .dblQuote _ | .seq (.sub ..) _ | .seq (.group false) _ => true
    | _ => false
  if (context :: f.ancestors context).any isOpen then throw .unexpectedEnd
  let command ←
    if f.isComment context then
      match f.parent? context with
      | some p => pure p
      | none => throw .unknown
    else pure context
  match f.shape command with
  | .seq (.command _) _ =>
    if f.isOperand command && !f.hasWords command then throw .unexpectedEnd
  | _ => pure ()

/-- Whether the next token is the text between single quotes. -/
def wantsVerbatim (f : Forest) (context : NodeId) : Bool :=
  match f.shape context with
  | .leaf (.quote _) => true
  | _ => false

/-- The next token for this context. -/
def nextToken (f : Forest) (context : NodeId) (s : Source) : Source × Except Halt Token :=
  if f.wantsVerbatim context then s.verbatim else s.token

end Forest

end PocketShell
