import Mathlib.Data.List.Perm.Basic
import PocketShell.Files.Store
import PocketShell.Proofs.Bindings

/-!
# The files that a store begins with

A store is made of a list of files, one after the other. Names are normalised on the way, so that two
names may be one.

* `Store.write_comm` : files that do not claim one name for two texts can be written in any order;
* `Store.ofList_concat` : the last file of a list is in the store.

`Store.ofList_perm_iff` says which lists give the same store in every order.
-/

namespace PocketShell.Store

/-- The files have different names when they are normalised, or the same text. -/
def Compatible (a b : String × String) : Prop :=
  FileName.normalize a.1 = FileName.normalize b.1 → a.2 = b.2

/-- Files that do not claim one name for two texts can be written in any order. -/
theorem write_comm {a b : String × String} (h : Compatible a b) (st : Store) :
    (st.write a.1 a.2).write b.1 b.2 = (st.write b.1 b.2).write a.1 a.2 := by
  unfold write
  by_cases hname : FileName.normalize a.1 = FileName.normalize b.1
  · rw [hname, h hname]
  · rw [Bindings.insert_comm _ (Ne.symm hname)]

theorem ofList_concat (files : List (String × String)) (last : String × String) :
    ofList (files ++ [last]) = (ofList files).write last.1 last.2 := by
  rw [ofList, List.foldl_append]
  rfl

theorem read?_ofList_concat (files : List (String × String)) (last : String × String) :
    (ofList (files ++ [last])).read? last.1 = some last.2 := by
  rw [ofList_concat]
  exact Bindings.get?_insert_self _ _ _

/-- The order of the files makes no difference exactly if no two of them claim one name for two
texts. That their names are different is not enough for it. -/
theorem ofList_perm_iff (files : List (String × String)) :
    (∀ files', files'.Perm files → ofList files' = ofList files) ↔
      ∀ a ∈ files, ∀ b ∈ files, Compatible a b := by
  constructor
  · intro h a ha b hb hname
    -- the file that is moved to the end is the one that is found
    have hfound (file : String × String) (hfile : file ∈ files) :
        (ofList files).read? file.1 = some file.2 := by
      have hlast : (files.erase file ++ [file]).Perm files :=
        (List.perm_append_singleton _ _).trans (List.perm_cons_erase hfile).symm
      rw [← h _ hlast, read?_ofList_concat]
    have hsame : (ofList files).read? a.1 = (ofList files).read? b.1 := by
      rw [read?, read?, hname]
    rw [hfound a ha, hfound b hb] at hsame
    exact Option.some.inj hsame
  · intro h files' hperm
    unfold ofList
    apply hperm.foldl_eq'
    intro a ha b hb st
    exact write_comm (h a (hperm.subset ha) b (hperm.subset hb)) st

/-- Two different names for one file, with two texts. -/
theorem ofList_ne_of_one_file :
    ¬ ∀ files files' : List (String × String), (files.map (·.1)).Nodup → files'.Perm files →
      ofList files' = ofList files := by
  intro h
  have hsame := h [("a", "1"), ("./a", "2")] [("./a", "2"), ("a", "1")] (by decide) (by decide)
  have hread := congrArg (·.read? "a") hsame
  exact absurd hread (by decide)

end PocketShell.Store
