import PocketShell.Proofs.Script.Cursor

/-!
# Tests of all nodes

* `Tree.everywhere` : a test holds of all nodes of a tree, each with all below it;
* `Cursor.Settled` : a test holds of all nodes of a script but those on the path to the focus. No
  token reaches these again;
* `Cursor.Along` : the test holds of the nodes on the path as well;
* `Cursor.everywhere_plug` : both together are all nodes of the script.
-/

namespace PocketShell

namespace Tree

mutual

/-- Whether a test holds of all nodes of a tree, each with all below it. -/
def everywhere (q : Tree → Bool) : Tree → Bool
  | seq kind body => q (seq kind body) && everywhereAll q body
  | join op left right => q (join op left right) && (everywhere q left && everywhere q right)
  | dangling op left => q (dangling op left) && everywhere q left
  | leaf l => q (leaf l)

def everywhereAll (q : Tree → Bool) : List Tree → Bool
  | [] => true
  | t :: ts => everywhere q t && everywhereAll q ts

end

theorem everywhereAll_eq (q : Tree → Bool) (ts : List Tree) :
    everywhereAll q ts = ts.all (everywhere q) := by
  induction ts with
  | nil => rfl
  | cons t ts ih => rw [everywhereAll, ih, List.all_cons]

/-- Whether a test holds of all nodes below the top. -/
def inside (q : Tree → Bool) : Tree → Bool
  | seq _ body => body.all (everywhere q)
  | join _ left right => everywhere q left && everywhere q right
  | dangling _ left => everywhere q left
  | leaf _ => true

theorem everywhere_eq (q : Tree → Bool) (t : Tree) :
    everywhere q t = (q t && inside q t) := by
  cases t with
  | seq kind body => rw [everywhere, inside, everywhereAll_eq]
  | join op left right => rw [everywhere, inside]
  | dangling op left => rw [everywhere, inside]
  | leaf l => rw [everywhere, inside, Bool.and_true]

end Tree

/-- Whether a test holds of all nodes beside the open child of a crumb. -/
def Crumb.beside (q : Tree → Bool) : Crumb → Bool
  | seq _ older => older.all (Tree.everywhere q)
  | join _ left => left.everywhere q

theorem Crumb.inside_fill (q : Tree → Bool) (crumb : Crumb) (t : Tree) :
    (crumb.fill t).inside q = (crumb.beside q && t.everywhere q) := by
  cases crumb with
  | seq kind older => simp [fill, beside, Tree.inside]
  | join op left => rfl

namespace Cursor

variable {q : Tree → Bool} {t : Tree} {crumb : Crumb} {path : List Crumb}

/-- A test holds of all nodes but those on the path. -/
structure Settled (q : Tree → Bool) (t : Tree) (path : List Crumb) : Prop where
  inside : t.inside q = true
  beside : ∀ crumb ∈ path, crumb.beside q = true

/-- A test holds of the nodes on the path, each with all below it. -/
def Along (q : Tree → Bool) : Tree → List Crumb → Prop
  | t, [] => q t = true
  | t, crumb :: path => q t = true ∧ Along q (crumb.fill t) path

/-- Who leaves a node upwards settles it. -/
theorem settled_fill :
    Settled q (crumb.fill t) path ↔ Settled q t (crumb :: path) ∧ q t = true := by
  constructor
  · rintro ⟨hinside, hbeside⟩
    rw [Crumb.inside_fill, Tree.everywhere_eq, Bool.and_eq_true, Bool.and_eq_true] at hinside
    exact ⟨⟨hinside.2.2, List.forall_mem_cons.2 ⟨hinside.1, hbeside⟩⟩, hinside.2.1⟩
  · rintro ⟨⟨hinside, hbeside⟩, ht⟩
    obtain ⟨hcrumb, hbeside⟩ := List.forall_mem_cons.1 hbeside
    refine ⟨?_, hbeside⟩
    rw [Crumb.inside_fill, Tree.everywhere_eq, hcrumb, ht, hinside]
    rfl

theorem everywhere_plug :
    (plug t path).everywhere q = true ↔ Settled q t path ∧ Along q t path := by
  induction path generalizing t with
  | nil =>
    rw [plug, Tree.everywhere_eq, Bool.and_eq_true]
    exact ⟨fun h => ⟨⟨h.2, by simp⟩, h.1⟩, fun h => ⟨h.2, h.1.inside⟩⟩
  | cons crumb path ih =>
    rw [plug, ih, settled_fill, Along, and_assoc]

/-- What is found above a tree holds the tree. -/
theorem everywhere_of_ascend {α : Type} {answer : Sequence → Option α} {a : α} {kind : Sequence}
    {parts : List Tree} {rest : List Crumb}
    (h : ascend answer t path = some (a, kind, parts, rest))
    (hparts : parts.all (Tree.everywhere q) = true) : t.everywhere q = true := by
  induction path generalizing t with
  | nil => simp [ascend] at h
  | cons crumb path ih =>
    have hfill (hup : (crumb.fill t).everywhere q = true) : t.everywhere q = true := by
      rw [Tree.everywhere_eq, Crumb.inside_fill, Bool.and_eq_true, Bool.and_eq_true] at hup
      exact hup.2.2
    cases crumb with
    | join op left => exact hfill (ih h)
    | seq k older =>
      simp only [ascend] at h
      split at h
      · simp only [Option.some.injEq, Prod.mk.injEq] at h
        obtain ⟨-, -, rfl, -⟩ := h
        rw [List.all_cons, Bool.and_eq_true] at hparts
        exact hparts.1
      · exact hfill (ih h)

end Cursor

end PocketShell
