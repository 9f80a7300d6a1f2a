import PocketShell.Command.Basic
import Std.Data.HashMap
import Std.Data.HashSet

/-!
# `tr`

Replaces or deletes characters of standard input.

* `Tr.readSet` : the characters that a set names, with ranges and escapes;
* `Tr.translate` : every character of the first set becomes the one at its place in the second.
-/

namespace PocketShell.Command.Tr

/-- The character that a backslash and this character stand for. -/
def escaped : Char → Char
  | 'n' => '\n'
  | 't' => '\t'
  | 'r' => '\r'
  | c => c

/-- The characters from `first` to `last`. -/
def charRange (first last : Char) : List Char :=
  (List.range' first.toNat (last.toNat + 1 - first.toNat)).filterMap fun n =>
    if n.isValidChar then some (Char.ofNat n) else none

/-- The characters of a set. A range that runs backwards is three characters. -/
def readSet : List Char → List Char
  | '\\' :: c :: rest => escaped c :: readSet rest
  | first :: '-' :: last :: rest =>
    (if first ≤ last then charRange first last else [first, '-', last]) ++ readSet rest
  | c :: rest => c :: readSet rest
  | [] => []

/-- A second set brought to a length: it goes on with its last character. -/
def extend (length : Nat) (set : List Char) : List Char :=
  match set.getLast? with
  | some last => set ++ List.replicate (length - set.length) last
  | none => []

-- characters have one hash here, whatever other instances are around
local instance charHash : Hashable Char := instHashableChar

/-- What becomes of each character of the first set. Its last occurrence decides. -/
def pairing (set₁ set₂ : List Char) : Std.HashMap Char Char :=
  Std.HashMap.ofList (set₁.zip (extend set₁.length set₂))

def translateChar (pairs : Std.HashMap Char Char) (c : Char) : Char := pairs.getD c c

def translate (set₁ set₂ text : List Char) : List Char :=
  let pairs := pairing set₁ set₂
  text.map (translateChar pairs)

def delete (set text : List Char) : List Char :=
  let doomed := Std.HashSet.ofList set
  text.filter fun c => !doomed.contains c

/-- A character outside the first set stays as it is. -/
theorem translateChar_of_not_mem {set₁ set₂ : List Char} {c : Char} (h : c ∉ set₁) :
    translateChar (pairing set₁ set₂) c = c := by
  have hk : ((set₁.zip (extend set₁.length set₂)).map Prod.fst).contains c = false := by
    refine Bool.eq_false_iff.2 fun hc => ?_
    rw [List.contains_iff_mem] at hc
    obtain ⟨p, hp, rfl⟩ := List.mem_map.1 hc
    exact h (List.of_mem_zip hp).1
  exact Std.HashMap.getD_ofList_of_contains_eq_false hk

def isDeleteOption (arg : String) : Bool := arg = "-d" || arg = "--delete"

/-- Reads standard input and changes it. -/
def onInput (change : List Char → List Char) : Program Result := do
  match ← Program.readAll with
  | .ok text => return success (String.ofList (change text.toList))
  | .error cause => return failure ("tr: " ++ cause.message ++ "\n")

def run (args : List String) : Program Result :=
  let deleting := args.any isDeleteOption
  let sets := args.filter fun arg => !isDeleteOption arg
  match sets.find? looksLikeOption with
  | some arg => return invalidOption "tr" arg
  | none =>
    match sets with
    | [] => return failure "tr: missing operand\n"
    | set₁ :: more =>
      if deleting then onInput (delete (readSet set₁.toList))
      else
        match more with
        | [] => return failure "tr: missing operand after the first SET\n"
        | set₂ :: _ => onInput (translate (readSet set₁.toList) (readSet set₂.toList))

end PocketShell.Command.Tr
