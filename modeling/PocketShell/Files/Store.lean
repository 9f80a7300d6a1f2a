import PocketShell.Bindings
import PocketShell.Files.Name
import PocketShell.Stream.Reader
import PocketShell.Text.Quoted

/-!
# Stored files and open files

* `Store` : the files, by normalised name;
* `OpenFile` : a handle. It holds the content the file had when it was opened, changed by its own
  writes only, and a stream over it;
* `OpenFile.write`, `OpenFile.clear` : each leaves the handle's whole content in the store.
-/

namespace PocketShell

structure Store where
  files : Bindings String := {}
deriving DecidableEq, Repr

namespace Store

def read? (st : Store) (name : String) : Option String := st.files.get? (FileName.normalize name)

def write (st : Store) (name text : String) : Store :=
  ⟨st.files.insert (FileName.normalize name) text⟩

def contains (st : Store) (name : String) : Bool := st.files.contains (FileName.normalize name)

def remove (st : Store) (name : String) : Store := ⟨st.files.erase (FileName.normalize name)⟩

/-- Later files win. -/
def ofList (files : List (String × String)) : Store :=
  files.foldl (fun st file => st.write file.1 file.2) {}

/-- The files in one line, ordered by name. -/
def describe (st : Store) : String :=
  "\x7b" ++ ", ".intercalate (st.files.entries.map fun (name, text) =>
    Text.quoted name ++ ": " ++ Text.quoted text) ++ "\x7d"

end Store

structure OpenFile where
  name : String
  content : String
  stream : Stream
  /-- Whether changes go to the store. -/
  stored : Bool
deriving DecidableEq, Repr

namespace OpenFile

/-- A handle of its own, which no store knows. -/
def detached (name content : String) : OpenFile :=
  { name := name, content := content, stream := ({} : Stream).put content, stored := false }

/-- Leaves the content of the handle in the store, under the name that was normalised when the
handle was made. -/
def save (f : OpenFile) (st : Store) : Store :=
  if f.stored then ⟨st.files.insert f.name f.content⟩ else st

/-- Appends to the file. The stream decides whether it is still open. -/
def write (f : OpenFile) (st : Store) (text : String) : Except Fault (OpenFile × Store) :=
  match f.stream.write text with
  | .error cause => .error cause
  | .ok stream =>
    let f := { f with stream := stream, content := f.content ++ text }
    .ok (f, f.save st)

/-- Empties the file. What its stream still holds can be read on. -/
def clear (f : OpenFile) (st : Store) : Except Fault (OpenFile × Store) :=
  if f.stream.closed then .error .closed
  else
    let f := { f with content := "" }
    .ok (f, f.save st)

def close (f : OpenFile) : Except Fault OpenFile :=
  match f.stream.close with
  | .error cause => .error cause
  | .ok stream => .ok { f with stream := stream }

/-- Closes, for one who does not care whether the file was closed before. -/
def shut (f : OpenFile) : OpenFile := { f with stream := f.stream.shut }

/-- A handle in one line. -/
def describe (f : OpenFile) : String :=
  "FileStream \x7b name: " ++ Text.quoted f.name ++ ", content: " ++ Text.quoted f.content ++ " \x7d"

end OpenFile

/-- A handle on the file of that name; a file that does not exist is empty. -/
def Store.openFile (st : Store) (name : String) : OpenFile :=
  let key := FileName.normalize name
  { OpenFile.detached key ((st.files.get? key).getD "") with stored := true }

end PocketShell
