import Mathlib.Data.String.Basic
import PocketShell.Bindings

/-!
# Inserting into bindings

* `Bindings.get?_insert_self`, `Bindings.get?_insert_of_ne` : an insertion is seen under its name and
  not under others;
* `Bindings.get?_erase_self`, `Bindings.get?_erase_of_ne` : the same for what is left out;
* `Bindings.insert_insert` : the last value for a name is the one that stays;
* `Bindings.insert_comm` : insertions under different names can be made in any order;
* `Bindings.mem_names_insert`, `Bindings.mem_names_erase` : no name comes in but the one that is
  bound.
-/

namespace PocketShell.Bindings

variable {α : Type} {name other : String} {value : α}

theorem lookup_insertInto_of_ne (h : other ≠ name) (value : α) (entries : List (String × α)) :
    (insertInto name value entries).lookup other = entries.lookup other := by
  have hne : (other == name) = false := by simpa using h
  induction entries with
  | nil => simp [insertInto, List.lookup_cons, hne]
  | cons entry entries ih =>
    obtain ⟨key, old⟩ := entry
    rw [insertInto]
    split_ifs with hlt heq
    · rw [List.lookup_cons, hne]
    · subst heq
      simp [List.lookup_cons, hne]
    · rw [List.lookup_cons, List.lookup_cons, ih]

theorem get?_insert_of_ne (b : Bindings α) (h : other ≠ name) (value : α) :
    (b.insert name value).get? other = b.get? other :=
  lookup_insertInto_of_ne h value b.entries

theorem lookup_insertInto_self (name : String) (value : α) (entries : List (String × α)) :
    (insertInto name value entries).lookup name = some value := by
  induction entries with
  | nil => simp [insertInto]
  | cons entry entries ih =>
    obtain ⟨key, old⟩ := entry
    rw [insertInto]
    split_ifs with hlt heq
    · exact List.lookup_cons_self
    · exact List.lookup_cons_self
    · have hne : (name == key) = false := by simpa using heq
      rw [List.lookup_cons, hne]
      exact ih

@[simp]
theorem get?_insert_self (b : Bindings α) (name : String) (value : α) :
    (b.insert name value).get? name = some value :=
  lookup_insertInto_self name value b.entries

@[simp]
theorem get?_erase_self (b : Bindings α) (name : String) : (b.erase name).get? name = none := by
  unfold get? erase
  rw [List.lookup_eq_none_iff]
  rintro ⟨key, value⟩ hmem
  have hkey := (List.mem_filter.1 hmem).2
  rw [bne_iff_ne]
  rintro rfl
  simp at hkey

theorem get?_erase_of_ne (b : Bindings α) (h : other ≠ name) :
    (b.erase name).get? other = b.get? other := by
  unfold get? erase
  dsimp only
  induction b.entries with
  | nil => rfl
  | cons entry entries ih =>
    obtain ⟨key, value⟩ := entry
    by_cases hkey : key = name
    · subst hkey
      have hne : (other == key) = false := by simpa using h
      rw [List.filter_cons_of_neg (by simp), List.lookup_cons, hne]
      exact ih
    · rw [List.filter_cons_of_pos (by simpa using hkey), List.lookup_cons, List.lookup_cons, ih]

theorem insertInto_insertInto (name : String) (value value' : α) (entries : List (String × α)) :
    insertInto name value' (insertInto name value entries) = insertInto name value' entries := by
  induction entries with
  | nil => simp [insertInto]
  | cons entry entries ih =>
    obtain ⟨key, old⟩ := entry
    by_cases hlt : name < key
    · simp [insertInto, hlt]
    · by_cases heq : name = key
      · simp [insertInto, heq]
      · simp [insertInto, hlt, heq, ih]

/-- The last value for a name is the one that stays. -/
@[simp]
theorem insert_insert (b : Bindings α) (name : String) (value value' : α) :
    (b.insert name value).insert name value' = b.insert name value' :=
  congrArg Bindings.mk (insertInto_insertInto name value value' b.entries)

theorem insertInto_comm (h : name < other) (value value' : α) (entries : List (String × α)) :
    insertInto name value (insertInto other value' entries) =
      insertInto other value' (insertInto name value entries) := by
  have hge : ¬ other < name := not_lt_of_gt h
  have hne : other ≠ name := ne_of_gt h
  induction entries with
  | nil => simp [insertInto, h, hge, hne]
  | cons entry entries ih =>
    obtain ⟨key, old⟩ := entry
    rcases lt_trichotomy name key with hkey | rfl | hkey
    · -- the first name comes before both entries that can be first
      have hright : insertInto other value' (insertInto name value ((key, old) :: entries)) =
          (name, value) :: insertInto other value' ((key, old) :: entries) := by
        simp [insertInto, hkey, hge, hne]
      rw [hright]
      by_cases hlt : other < key
      · simp [insertInto, hlt, h]
      · by_cases heq : other = key
        · simp [insertInto, heq, hkey]
        · simp [insertInto, hlt, heq, hkey]
    · simp [insertInto, hge, hne]
    · have hother : key < other := hkey.trans h
      simp [insertInto, not_lt_of_gt hkey, ne_of_gt hkey, not_lt_of_gt hother, ne_of_gt hother, ih]

/-- Insertions under different names can be made in any order. -/
theorem insert_comm (b : Bindings α) (h : name ≠ other) (value value' : α) :
    (b.insert other value').insert name value = (b.insert name value).insert other value' := by
  rcases lt_or_gt_of_ne h with hlt | hlt
  · exact congrArg Bindings.mk (insertInto_comm hlt value value' b.entries)
  · exact congrArg Bindings.mk (insertInto_comm hlt value' value b.entries).symm

/-! ## Names -/

theorem mem_insertInto {entries : List (String × α)} {entry : String × α}
    (h : entry ∈ insertInto name value entries) : entry = (name, value) ∨ entry ∈ entries := by
  induction entries with
  | nil => exact .inl (List.mem_singleton.1 h)
  | cons first entries ih =>
    obtain ⟨key, old⟩ := first
    rw [insertInto] at h
    split_ifs at h with hlt heq
    · exact List.mem_cons.1 h
    · exact (List.mem_cons.1 h).imp_right (List.mem_cons_of_mem _)
    · rcases List.mem_cons.1 h with rfl | hrest
      · exact .inr List.mem_cons_self
      · exact (ih hrest).imp_right (List.mem_cons_of_mem _)

theorem mem_names_insert {b : Bindings α} (h : other ∈ (b.insert name value).names) :
    other = name ∨ other ∈ b.names := by
  obtain ⟨entry, hentry, rfl⟩ := List.mem_map.1 h
  rcases mem_insertInto hentry with rfl | hold
  · exact .inl rfl
  · exact .inr (List.mem_map.2 ⟨entry, hold, rfl⟩)

theorem mem_names_erase {b : Bindings α} (h : other ∈ (b.erase name).names) : other ∈ b.names := by
  obtain ⟨entry, hentry, rfl⟩ := List.mem_map.1 h
  exact List.mem_map.2 ⟨entry, (List.mem_filter.1 hentry).1, rfl⟩

end PocketShell.Bindings
