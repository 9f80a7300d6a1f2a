/-!
# Words

The parts of a command, once they are known, are made into words.

* `Segment` : a part that goes in as it is, a part that is split at white space, or a gap;
* `Words.split` : the words of a command. A literal makes a word even when it is empty;
* `Words.join` : the words without any splitting, with a space between them.
-/

namespace PocketShell

inductive Segment where
  | literal (text : String)
  | expansion (text : String)
  | gap
deriving DecidableEq, Repr

/-- Characters at which an expansion is split. -/
def isSplitChar (c : Char) : Bool := c = ' ' || c = '\t' || c = '\n' || c = '\x0b'

/-- Words under construction: the finished ones, newest first, and the one that is still open. -/
structure Words where
  finished : List String := []
  current : Option String := none
deriving DecidableEq, Repr

namespace Words

def addText (w : Words) (text : String) : Words :=
  { w with current := some (w.current.getD "" ++ text) }

def addChar (w : Words) (c : Char) : Words :=
  { w with current := some ((w.current.getD "").push c) }

/-- Ends the word that is open, if one is. -/
def flush (w : Words) : Words :=
  match w.current with
  | some word => { finished := word :: w.finished, current := none }
  | none => w

def toList (w : Words) : List String := w.flush.finished.reverse

def splitChar (w : Words) (c : Char) : Words := if isSplitChar c then w.flush else w.addChar c

def splitSegment (w : Words) : Segment → Words
  | .literal text => w.addText text
  | .expansion text => text.toList.foldl splitChar w
  | .gap => w.flush

def joinSegment (w : Words) : Segment → Words
  | .literal text => w.addText text
  | .expansion text => if text.isEmpty then w else w.addText text
  | .gap => w.flush

def split (segments : List Segment) : List String := (segments.foldl splitSegment {}).toList

def join (segments : List Segment) : String :=
  " ".intercalate (segments.foldl joinSegment {}).toList

end Words

end PocketShell
