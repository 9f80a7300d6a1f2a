import PocketShell.Config.Toml.Scalar

/-!
# TOML documents

* `Item` : a value or a table, with how the table came to be;
* `value?` : the value at the start of a text;
* `document?` : the entries of a whole document.

A table may be opened by a header once, and only if it is not already there for another reason than
that a header named something inside it. Tables made by dotted keys are open to dotted keys alone,
and inline tables and arrays are closed once they are written.
-/

namespace PocketShell.Toml

/-- How a table came to be: its own header, a header for something inside it, or a dotted key. -/
inductive Origin where
  | header
  | inner
  | dotted
deriving DecidableEq, Repr

inductive Item where
  | scalar (value : Scalar)
  | array (items : List Item)
  /-- An inline table; `dotted` if a dotted key inside another one made it. -/
  | inline (dotted : Bool) (entries : List (String × Item))
  | table (origin : Origin) (entries : List (String × Item))
  /-- Tables that share a header with double brackets. -/
  | tables (tables : List (List (String × Item)))
deriving Repr

abbrev Entries := List (String × Item)

/-! ## Entries -/

/-- Replaces the item under a key. -/
def replace (key : String) (item : Item) (es : Entries) : Entries :=
  es.map fun entry => if entry.1 = key then (key, item) else entry

/-- Adds an entry under a new key. -/
def addNew (key : String) (item : Item) (es : Entries) : Option Entries :=
  if (es.lookup key).isSome then none else some (es ++ [(key, item)])

/-- Adds the entry of a dotted key to an inline table. -/
def addInline : List String → String → Item → Entries → Option Entries
  | [], key, item, es => addNew key item es
  | p :: path, key, item, es =>
    match es.lookup p with
    | none => (addInline path key item []).map fun inner => es ++ [(p, .inline true inner)]
    | some (.inline true inner) =>
      (addInline path key item inner).map fun inner => replace p (.inline true inner) es
    | some _ => none

/-- Adds the entry of a dotted key to a table. -/
def addDotted : List String → String → Item → Entries → Option Entries
  | [], key, item, es => addNew key item es
  | p :: path, key, item, es =>
    match es.lookup p with
    | none => (addDotted path key item []).map fun inner => es ++ [(p, .table .dotted inner)]
    | some (.table origin inner) =>
      if origin = .header || (origin = .inner && path.isEmpty) then none
      else (addDotted path key item inner).map fun inner => replace p (.table origin inner) es
    | some (.tables ts) =>
      if path.isEmpty then none
      else
        (addDotted path key item (ts.getLastD [])).map fun inner =>
          replace p (.tables (ts.dropLast ++ [inner])) es
    | some _ => none

/-- Changes the table that a header names. -/
def atPath (change : Entries → Option Entries) : List String → Entries → Option Entries
  | [], es => change es
  | p :: path, es =>
    match es.lookup p with
    | none => (atPath change path []).map fun inner => es ++ [(p, .table .inner inner)]
    | some (.table origin inner) =>
      (atPath change path inner).map fun inner => replace p (.table origin inner) es
    | some (.tables ts) =>
      (atPath change path (ts.getLastD [])).map fun inner =>
        replace p (.tables (ts.dropLast ++ [inner])) es
    | some _ => none

/-- Opens the table `key`. -/
def openTable (key : String) (es : Entries) : Option Entries :=
  match es.lookup key with
  | none => some (es ++ [(key, .table .header [])])
  | some (.table .inner inner) => some (replace key (.table .header inner) es)
  | some _ => none

/-- Adds a table to the tables `key`. -/
def openTables (key : String) (es : Entries) : Option Entries :=
  match es.lookup key with
  | none => some (es ++ [(key, .tables [[]])])
  | some (.tables ts) => some (replace key (.tables (ts ++ [[]])) es)
  | some _ => none

/-! ## Keys -/

def isBareKeyChar (c : Char) : Bool := c.isAlphanum || c = '_' || c = '-'

def simpleKey? : List Char → Option (String × List Char)
  | '"' :: rest => basic rest
  | '\'' :: rest => literal rest
  | cs =>
    let key := cs.takeWhile isBareKeyChar
    if key.isEmpty then none else some (String.ofList key, cs.dropWhile isBareKeyChar)

/-- The greatest depth of arrays and inline tables, and length of dotted keys. -/
def maxDepth : Nat := 80

/-- A dotted key of at most `n` parts: the parts in front, the last part, and what comes after. -/
def keyFrom : Nat → List Char → Option (List String × String × List Char)
  | 0, _ => none
  | n + 1, cs => do
    let (key, rest) ← simpleKey? (skipGap cs)
    match skipGap rest with
    | '.' :: rest =>
      let (path, last, rest) ← keyFrom n rest
      return (key :: path, last, rest)
    | rest => return ([], key, rest)

def key? (cs : List Char) : Option (List String × String × List Char) := keyFrom (maxDepth - 1) cs

/-! ## Values -/

/-- What comes after blanks, comments and line breaks, from inside a comment or not. -/
def skipFrom : Bool → List Char → Option (List Char)
  | _, '\n' :: rest => skipFrom false rest
  | _, '\r' :: '\n' :: rest => skipFrom false rest
  | true, c :: rest => if isPlain c then skipFrom true rest else none
  | true, [] => none
  | false, '#' :: rest => skipFrom true rest
  | false, c :: rest => if isGap c then skipFrom false rest else some (c :: rest)
  | false, [] => some []

def skipLines (cs : List Char) : Option (List Char) := skipFrom false cs

mutual

/-- The value at the start of a text. `depth` bounds the nesting, `n` the number of steps. -/
def valueFrom : Nat → Nat → List Char → Option (Item × List Char)
  | 0, _, _ => none
  | n + 1, depth, '[' :: rest =>
    if depth = 0 then none
    else (itemsFrom n (depth - 1) [] rest).map fun (items, rest) => (.array items, rest)
  | n + 1, depth, '{' :: rest =>
    if depth = 0 then none
    else
      match skipGap rest with
      | '}' :: rest => some (.inline false [], rest)
      | rest =>
        (pairsFrom n (depth - 1) [] rest).map fun (entries, rest) => (.inline false entries, rest)
  | _ + 1, _, cs => (scalar? cs).map fun (s, rest) => (.scalar s, rest)

/-- The items of an array up to the bracket, after the ones in `items`, newest first. -/
def itemsFrom : Nat → Nat → List Item → List Char → Option (List Item × List Char)
  | 0, _, _, _ => none
  | n + 1, depth, items, cs => do
    match ← skipLines cs with
    | ']' :: rest => return (items.reverse, rest)
    | cs =>
      let (item, rest) ← valueFrom n depth cs
      let items := item :: items
      match ← skipLines rest with
      | ',' :: rest => itemsFrom n depth items rest
      | ']' :: rest => return (items.reverse, rest)
      | _ => none

/-- The entries of an inline table after the ones in `es`, up to the brace. -/
def pairsFrom : Nat → Nat → Entries → List Char → Option (Entries × List Char)
  | 0, _, _, _ => none
  | n + 1, depth, es, cs => do
    let (path, key, rest) ← key? cs
    match rest with
    | '=' :: rest =>
      let (item, rest) ← valueFrom n depth (skipGap rest)
      let es ← addInline path key item es
      match skipGap rest with
      | ',' :: rest => pairsFrom n depth es rest
      | '}' :: rest => return (es, rest)
      | _ => none
    | _ => none

end

/-- Every step of reading a value takes a character, or is followed by one that does. -/
def value? (cs : List Char) : Option (Item × List Char) :=
  valueFrom (2 * cs.length + 2) (maxDepth - 1) cs

/-! ## Documents -/

/-- What comes after the end of a line, which may hold a comment. -/
def lineEnd? (cs : List Char) : Option (List Char) :=
  let cs := skipGap cs
  let cs := match cs with
    | '#' :: rest => rest.dropWhile isPlain
    | cs => cs
  if cs.isEmpty then some [] else afterBreak? cs

/-- A document under construction: its entries, and the path of the table that is open. -/
structure Document where
  entries : Entries := []
  current : List String := []
deriving Repr

namespace Document

/-- Takes in a header, after its first bracket. -/
def header (d : Document) (cs : List Char) : Option (Document × List Char) :=
  match cs with
  | '[' :: rest => do
    let (path, key, rest) ← key? rest
    match rest with
    | ']' :: ']' :: rest =>
      let entries ← atPath (openTables key) path d.entries
      return (⟨entries, path ++ [key]⟩, ← lineEnd? rest)
    | _ => none
  | rest => do
    let (path, key, rest) ← key? rest
    match rest with
    | ']' :: rest =>
      let entries ← atPath (openTable key) path d.entries
      return (⟨entries, path ++ [key]⟩, ← lineEnd? rest)
    | _ => none

/-- Takes in a key and its value. -/
def pair (d : Document) (cs : List Char) : Option (Document × List Char) := do
  let (path, key, rest) ← key? cs
  match rest with
  | '=' :: rest =>
    let (item, rest) ← value? (skipGap rest)
    let rest ← lineEnd? rest
    let entries ← atPath (addDotted path key item) d.current d.entries
    return ({ d with entries := entries }, rest)
  | _ => none

/-- Takes in at most `n` lines. -/
def lines : Nat → Document → List Char → Option Document
  | 0, _, _ => none
  | n + 1, d, cs =>
    match skipGap cs with
    | [] => some d
    | '[' :: rest => (d.header rest).bind fun (d, rest) => lines n d rest
    | cs =>
      if cs.head? = some '#' || (afterBreak? cs).isSome then (lineEnd? cs).bind (lines n d)
      else (d.pair cs).bind fun (d, rest) => lines n d rest

end Document

/-- The entries of a document. A byte order mark may stand in front. -/
def document? (text : String) : Option Entries :=
  let cs := match text.toList with
    | '\uFEFF' :: rest => rest
    | cs => cs
  (Document.lines (cs.length + 1) {} cs).map (·.entries)

end PocketShell.Toml
