import PocketShell.Script.Growth
import PocketShell.Script.Tree

/-!
# From text to script

* `SyntaxError` : what is wrong and where, with the token that is wrong if there is one;
* `Forest.parse` : reads a source to its end and grows a script from its tokens.
-/

namespace PocketShell

structure SyntaxError where
  cause : Fault
  position : Position
  token : Option String := none
deriving DecidableEq, Repr

def SyntaxError.message (e : SyntaxError) : String :=
  let place := e.position.line.repr ++ ":" ++ e.position.column.repr
  match e.token with
  | some token => e.cause.message ++ " `" ++ Text.escaped token ++ "' at " ++ place
  | none => e.cause.message ++ " at " ++ place

/-- Why there is no script. -/
inductive Unparsed where
  | wrong (error : SyntaxError)
  /-- The source waits for input that never comes. -/
  | blocked
deriving DecidableEq, Repr

namespace Forest

theorem size_nextToken {f : Forest} {context : NodeId} {s t : Source} {token : Token}
    (h : f.nextToken context s = (t, .ok token)) : t.size < s.size := by
  unfold nextToken at h
  split at h
  · exact Source.size_verbatim h
  · exact Source.size_token h

/-- Feeds all tokens of a source to a forest, starting with a context. -/
def parseFrom (f : Forest) (context : NodeId) (s : Source) : Source × Except Unparsed Forest :=
  match _hn : f.nextToken context s with
  | (s, .error .blocked) => (s, .error .blocked)
  | (s, .error (.fault cause)) =>
    if cause.isEnd then
      match f.checkComplete context with
      | .ok () => (s, .ok f)
      | .error cause => (s, .error (.wrong { cause := cause, position := s.position }))
    else (s, .error (.wrong { cause := cause, position := s.position }))
  | (s, .ok token) =>
    match f.feed context token with
    | (f, .ok context) => parseFrom f context s
    | (_, .error cause) =>
      (s, .error (.wrong ⟨cause, token.position, some token.value⟩))
termination_by s.size
decreasing_by exact size_nextToken _hn

/-- The script that a source holds. -/
def parse (s : Source) : Except Unparsed Forest := (parseFrom {} root s).2

end Forest

end PocketShell
