/-!
# Bindings

Values under names, kept in the order of the names, one value for a name. The order makes the table
a function of what it binds, whatever the order of the insertions was.
-/

namespace PocketShell

/-- A table of values; its `entries` are ordered by name. -/
structure Bindings (α : Type) where
  entries : List (String × α) := []
deriving DecidableEq, Repr

namespace Bindings

variable {α : Type}

def insertInto (name : String) (value : α) : List (String × α) → List (String × α)
  | [] => [(name, value)]
  | (other, old) :: rest =>
    if name < other then (name, value) :: (other, old) :: rest
    else if name = other then (name, value) :: rest
    else (other, old) :: insertInto name value rest

def get? (b : Bindings α) (name : String) : Option α := b.entries.lookup name

def contains (b : Bindings α) (name : String) : Bool := (b.get? name).isSome

/-- Binds `name` to `value`, in place of an earlier binding. -/
def insert (b : Bindings α) (name : String) (value : α) : Bindings α :=
  ⟨insertInto name value b.entries⟩

def erase (b : Bindings α) (name : String) : Bindings α :=
  ⟨b.entries.filter fun entry => !(entry.1 == name)⟩

/-- Later entries win. -/
def insertAll (b : Bindings α) (entries : List (String × α)) : Bindings α :=
  entries.foldl (fun b entry => b.insert entry.1 entry.2) b

/-- Adds the entries whose names are not bound yet. -/
def insertMissing (b : Bindings α) (entries : List (String × α)) : Bindings α :=
  entries.foldl (fun b entry => if b.contains entry.1 then b else b.insert entry.1 entry.2) b

def ofList (entries : List (String × α)) : Bindings α := ({} : Bindings α).insertAll entries

def names (b : Bindings α) : List String := b.entries.map (·.1)

end Bindings

end PocketShell
