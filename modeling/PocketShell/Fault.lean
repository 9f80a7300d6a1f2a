/-!
# Faults

The causes for which reading, writing and understanding a script can fail, with their texts.
`endOfStream` and `closed` only say that there is no more input (`Fault.isEnd`).
-/

namespace PocketShell

inductive Fault where
  | endOfStream
  | closed
  | unexpectedEnd
  | unexpectedToken
  | unknown
  | unknownToken
  | cancelled
deriving DecidableEq, Repr

namespace Fault

def message : Fault → String
  | endOfStream => "end of stream"
  | closed => "stream closed"
  | unexpectedEnd => "unexpected end of input"
  | unexpectedToken => "unexpected token"
  | unknown => "unknown error"
  | unknownToken => "unknown token"
  | cancelled => "operation cancelled"

/-- The faults that mean "no more input". -/
def isEnd : Fault → Bool
  | endOfStream | closed => true
  | _ => false

end Fault

end PocketShell
