import PocketShell.Run.Job
import PocketShell.Script.Tree
import PocketShell.Words

/-!
# What a script does

`Tree.job` gives the job of a part of a script, followed by what is done with its status.
`cancellable` says whether the run minds a cancellation: then its own streams do as well, and no
command is started once it has fired.

* `statements` : one after the other; the status is that of the last one, `0` if there is none;
* `expand` : the text of a part of a word;
* `segments` : the parts of a command, and the status of its last substitution.
-/

namespace PocketShell.Tree

/-- The status of a redirection whose target is no name, or whose file was closed already. -/
def redirectFailed : Int := 1

/-- A stream of the script's own. -/
def privateStream (cancellable : Bool) : Stream := { cancellable := cancellable }

/-- Runs a job with its output in a buffer. -/
def buffered (cancellable : Bool) (inner : Job) (k : Frame → Int → Job) : Job :=
  .within (.output (.stream (privateStream cancellable))) inner k

/-- A text without its last line break. -/
def chomp (text : String) : String :=
  let cs := text.toList
  if cs.getLast? = some '\n' then String.ofList cs.dropLast else text

/-- Opens the file whose name a target gives. -/
def redirected (cancellable overwrite : Bool) (target : Job) (k : Int → Job)
    (use : OpenFile → Job) : Job :=
  buffered cancellable target fun frame _ =>
    let name := frame.text
    if name.isEmpty then k redirectFailed else .openFile name overwrite use

/-- The status of a command whose output went to a file. -/
def writtenStatus (frame : Frame) (status : Int) : Int :=
  if status ≠ 0 then status else if frame.stream.closed then redirectFailed else 0

/-- The value of a variable; a `$` without a name stands for itself. -/
def expandVar (name : String) (k : String → Job) : Job :=
  if name.isEmpty then k "$" else .lookup name k

mutual

def job (cancellable : Bool) : Tree → (Int → Job) → Job
  | seq .script body, k | seq (.group _) body, k => statements cancellable body 0 k
  | seq (.command false) body, k =>
    match firstGroup? cancellable body k with
    | some group => group
    | none =>
      segments cancellable body fun parts status =>
        match Words.split parts with
        | [] => k (status.getD 0)
        | argv => .exec cancellable argv k
  | seq (.command true) body, k =>
    segments cancellable body fun parts _ => .emit (Words.join parts) (k 0)
  | seq .dblQuote body, k => expandAll cancellable body fun text => .emit text (k 0)
  | seq (.sub _ _) body, k =>
    buffered cancellable (statements cancellable body 0 .exit) fun frame status =>
      .emit (chomp frame.text) (k status)
  | join .pipe left right, k =>
    .pipe .left (privateStream cancellable) (job cancellable left .exit)
      (job cancellable right .exit) k
  | join .and left right, k =>
    job cancellable left fun status =>
      if status = 0 then job cancellable right k else k status
  | join .or left right, k =>
    job cancellable left fun status =>
      if status ≠ 0 then job cancellable right k else k status
  | join .write left right, k =>
    redirected cancellable true (job cancellable right .exit) k fun file =>
      .within (.output (.file file)) (job cancellable left .exit) fun frame status =>
        k (writtenStatus frame status)
  | join .append left right, k =>
    redirected cancellable false (job cancellable right .exit) k fun file =>
      .within (.output (.file file)) (job cancellable left .exit) fun frame status =>
        k (writtenStatus frame status)
  | join .read left right, k =>
    redirected cancellable false (job cancellable right .exit) k fun file =>
      .within (.input file.stream.shut) (job cancellable left .exit) fun _ status => k status
  | join .readStr left right, k =>
    buffered cancellable (job cancellable right .exit) fun frame _ =>
      .within (.input frame.stream.shut) (job cancellable left .exit) fun _ status => k status
  | dangling _ _, k => k 1
  | leaf (.ident text), k | leaf (.whitespace text), k | leaf (.quote text), k => .emit text (k 0)
  | leaf (.var name), k => expandVar name fun text => .emit text (k 0)
  | leaf .comment, k => k 0

/-- Runs statements in order; `status` is the status so far. -/
def statements (cancellable : Bool) : List Tree → Int → (Int → Job) → Job
  | [], status, k => k status
  | t :: ts, _, k => job cancellable t fun status => statements cancellable ts status k

/-- The job of the first group among the parts of a command. -/
def firstGroup? (cancellable : Bool) : List Tree → (Int → Job) → Option Job
  | [], _ => none
  | seq (.group closed) body :: _, k => some (job cancellable (seq (.group closed) body) k)
  | _ :: ts, k => firstGroup? cancellable ts k

def segments (cancellable : Bool) :
    List Tree → (List Segment → Option Int → Job) → Job
  | [], k => k [] none
  | leaf (.whitespace _) :: ts, k | leaf .comment :: ts, k =>
    segments cancellable ts fun parts status => k (.gap :: parts) status
  | leaf (.ident text) :: ts, k | leaf (.quote text) :: ts, k =>
    segments cancellable ts fun parts status => k (.literal text :: parts) status
  | leaf (.var name) :: ts, k =>
    expandVar name fun text =>
      segments cancellable ts fun parts status => k (.expansion text :: parts) status
  | seq .dblQuote body :: ts, k =>
    expandAll cancellable body fun text =>
      segments cancellable ts fun parts status => k (.literal text :: parts) status
  | seq (.sub _ quoted) body :: ts, k =>
    buffered cancellable (statements cancellable body 0 .exit) fun frame status =>
      let text := chomp frame.text
      segments cancellable ts fun parts later =>
        k ((if quoted then .literal text else .expansion text) :: parts) (later.or (some status))
  | _ :: ts, k => segments cancellable ts k

/-- The text of a part inside double quotes. -/
def expand (cancellable : Bool) : Tree → (String → Job) → Job
  | leaf (.ident text), k | leaf (.whitespace text), k | leaf (.quote text), k => k text
  | leaf (.var name), k => expandVar name k
  | seq .dblQuote body, k => expandAll cancellable body k
  | seq (.sub _ _) body, k =>
    buffered cancellable (statements cancellable body 0 .exit) fun frame _ => k (chomp frame.text)
  | _, k => k ""

def expandAll (cancellable : Bool) : List Tree → (String → Job) → Job
  | [], k => k ""
  | t :: ts, k =>
    expand cancellable t fun text =>
      expandAll cancellable ts fun rest => k (text ++ rest)

end

end PocketShell.Tree
