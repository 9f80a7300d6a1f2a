import PocketShell.Text.Pieces

/-!
# Disks

The files that a program finds, by their place in one tree, and the current directory in it.

* `Disk.resolve` : follows a path part by part, each of which has to stand in a directory;
* `Disk.find` : the file at a path, or why there is none;
* `Disk.ofFiles` : files in the current directory, beside what every system has.
-/

namespace PocketShell

/-- Why a file cannot be read. -/
inductive Refusal where
  | missing
  | notDirectory
  | isDirectory
  | nameTooLong
deriving DecidableEq, Repr

def Refusal.message : Refusal → String
  | missing => "No such file or directory (os error 2)"
  | notDirectory => "Not a directory (os error 20)"
  | isDirectory => "Is a directory (os error 21)"
  | nameTooLong => "File name too long (os error 36)"

/-- The place of a file or a directory: the names that lead to it. -/
abbrev Place := List String

inductive File where
  | text (content : String)
  /-- Standard input under a name. -/
  | input
deriving DecidableEq, Repr

structure Disk where
  files : List (Place × File)
  current : Place
deriving DecidableEq, Repr

namespace Disk

/-- The greatest number of bytes in a name. -/
def maxName : Nat := 255

/-- The number of bytes from which on a path is too long. -/
def pathLimit : Nat := 4096

/-- The parts of a path; a slash at its end leaves an empty one. -/
def parts (path : String) : List String := (Text.splitAt '/' path.toList).map String.ofList

/-- Whether something lies below a place, or the program itself stands there or below. -/
def isDirectory (d : Disk) (place : Place) : Bool :=
  place.isPrefixOf d.current ||
    d.files.any fun file => place.isPrefixOf file.1 && place.length < file.1.length

def exists? (d : Disk) (place : Place) : Bool :=
  d.isDirectory place || (d.files.lookup place).isSome

/-- Follows the parts of a path from a place that exists. -/
def resolve (d : Disk) : Place → List String → Except Refusal Place
  | place, [] => .ok place
  | place, part :: rest =>
    if !d.isDirectory place then .error .notDirectory
    else if part = "" || part = "." then resolve d place rest
    else if part = ".." then resolve d place.dropLast rest
    else if part.utf8ByteSize > maxName then .error .nameTooLong
    else if d.exists? (place ++ [part]) then resolve d (place ++ [part]) rest
    else .error .missing

/-- Where a path begins: at the root if it begins with a slash. -/
def start (d : Disk) (path : String) : Place :=
  if path.toList.head? = some '/' then [] else d.current

def find (d : Disk) (path : String) : Except Refusal File := do
  if path.isEmpty then throw .missing
  if pathLimit ≤ path.utf8ByteSize then throw .nameTooLong
  let place ← d.resolve (d.start path) (parts path)
  match d.files.lookup place with
  | some file => return file
  | none => throw .isDirectory

/-- Files that every system has. -/
def systemFiles : List (Place × File) :=
  [(["dev", "null"], .text ""), (["dev", "stdin"], .input)]

def workPlace : Place := ["tmp", "work"]

/-- The given files in the current directory. -/
def ofFiles (files : List (String × String)) : Disk where
  files := systemFiles ++ files.map fun file =>
    (workPlace ++ (parts file.1).filter (fun part => part ≠ "" && part ≠ "."), .text file.2)
  current := workPlace

end Disk

end PocketShell
