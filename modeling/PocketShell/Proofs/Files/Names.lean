import PocketShell.Proofs.Files.Handles
import PocketShell.Proofs.Pieces

/-!
# Names in normal form

A name is a root or none, and segments. A normal name has no segment that is empty, `.` or `..`.

* `FileName.segments`, `FileName.path` : a name taken apart, and put together;
* `FileName.segments_normalizeChars` : normalising resolves the segments, and what is left is proper;
* `FileName.normalize_eq_self_iff` : the normal names are those that normalising leaves alone;
* `FileName.normalize_append` : a name can be normalised before another one is put behind it;
* `Desk.Tidy` : the stored files and the handles have normal names. One operation keeps it
  (`Tidy.step`), and so do all (`Tidy.run`).

`Desk.names_are_canonical` says all of this together.
-/

namespace PocketShell

namespace FileName

variable {name : List Char} {segment : List Char} {segs : List (List Char)} {absolute : Bool}

/-! ## Segments -/

/-- Whether a name begins at the root. -/
def isAbsolute (name : List Char) : Bool := name.head? = some '/'

/-- A name without its root. -/
def bare (name : List Char) : List Char := if isAbsolute name then name.tail else name

/-- The segments of a name, behind its root. There are none if nothing is behind it. -/
def segments (name : List Char) : List (List Char) :=
  if bare name = [] then [] else (bare name).splitOn '/'

/-- A segment that names something. -/
def Proper (segment : List Char) : Prop :=
  segment ≠ [] ∧ segment ≠ ['.'] ∧ segment ≠ ['.', '.']

/-- A name made of segments. -/
def path (absolute : Bool) (segs : List (List Char)) : List Char :=
  if absolute then '/' :: Text.join '/' segs else Text.join '/' segs

theorem normalizeChars_eq (name : List Char) :
    normalizeChars name = path (isAbsolute name) (resolve (Text.splitAt '/' name)) := by
  simp [normalizeChars, path, isAbsolute]

theorem join_bare_segments (name : List Char) : Text.join '/' (segments name) = bare name := by
  unfold segments
  split
  · rename_i hempty
    rw [hempty]
    rfl
  · rw [← Text.splitAt_eq_splitOn, Text.join_splitAt]

/-- A name is made of its segments. -/
theorem path_segments (name : List Char) : path (isAbsolute name) (segments name) = name := by
  rw [path, join_bare_segments, bare]
  cases habs : isAbsolute name with
  | false => simp
  | true =>
    obtain ⟨rest, rfl⟩ := List.head?_eq_some_iff.1 (of_decide_eq_true habs)
    rfl

theorem bare_path (h : ∀ s ∈ segs, s ≠ [] ∧ '/' ∉ s) :
    isAbsolute (path absolute segs) = absolute ∧ bare (path absolute segs) = Text.join '/' segs := by
  cases absolute with
  | true => exact ⟨rfl, rfl⟩
  | false =>
    have hrelative : isAbsolute (Text.join '/' segs) = false := by
      cases segs with
      | nil => rfl
      | cons s rest =>
        obtain ⟨hne, hslash⟩ := h s List.mem_cons_self
        obtain ⟨c, cs, rfl⟩ := List.exists_cons_of_ne_nil hne
        have hc : c ≠ '/' := fun hc => hslash (hc ▸ List.mem_cons_self)
        cases rest with
        | nil => simpa [Text.join, isAbsolute] using hc
        | cons => simpa [Text.join, isAbsolute] using hc
    exact ⟨hrelative, by rw [path, bare, if_neg Bool.false_ne_true, hrelative]; rfl⟩

/-- The segments that a name is made of are found again. -/
theorem segments_path (h : ∀ s ∈ segs, s ≠ [] ∧ '/' ∉ s) : segments (path absolute segs) = segs := by
  rw [segments, (bare_path h).2]
  cases segs with
  | nil => rfl
  | cons s rest =>
    have hne : Text.join '/' (s :: rest) ≠ [] := by
      cases rest with
      | nil => exact (h s List.mem_cons_self).1
      | cons => simp [Text.join]
    rw [if_neg hne, ← Text.splitAt_eq_splitOn]
    exact Text.splitAt_join (List.cons_ne_nil _ _) fun p hp => (h p hp).2

theorem not_mem_of_mem_segments (h : segment ∈ segments name) : '/' ∉ segment := by
  unfold segments at h
  split at h
  · cases h
  · rw [← Text.splitAt_eq_splitOn] at h
    exact Text.not_mem_of_mem_splitAt h

/-! ## Resolving -/

theorem enter_of_proper (h : Proper segment) (segs : List (List Char)) :
    enter segs segment = segment :: segs := by
  rw [enter, if_neg (not_or.2 ⟨h.1, h.2.1⟩), if_neg h.2.2]

/-- What comes in is proper. -/
theorem mem_enter {s : List Char} (h : s ∈ enter segs segment) :
    s ∈ segs ∨ s = segment ∧ Proper segment := by
  unfold enter at h
  split_ifs at h with hnothing hparent
  · exact .inl h
  · exact .inl (List.mem_of_mem_tail h)
  · refine (List.mem_cons.1 h).symm.imp_right fun hs => ⟨hs, ?_⟩
    exact ⟨fun he => hnothing (.inl he), fun he => hnothing (.inr he), hparent⟩

theorem mem_foldl_enter {s : List Char} (new : List (List Char))
    (h : s ∈ new.foldl enter segs) : s ∈ segs ∨ s ∈ new ∧ Proper s := by
  induction new generalizing segs with
  | nil => exact .inl h
  | cons first new ih =>
    rcases ih h with hold | ⟨hnew, hproper⟩
    · rcases mem_enter hold with hold | ⟨rfl, hproper⟩
      · exact .inl hold
      · exact .inr ⟨List.mem_cons_self, hproper⟩
    · exact .inr ⟨List.mem_cons_of_mem first hnew, hproper⟩

theorem mem_resolve {s : List Char} (h : s ∈ resolve segs) : s ∈ segs ∧ Proper s :=
  (mem_foldl_enter segs (List.mem_reverse.1 h)).resolve_left List.not_mem_nil

theorem foldl_enter_of_proper (h : ∀ s ∈ segs, Proper s) (before : List (List Char)) :
    segs.foldl enter before = segs.reverse ++ before := by
  induction segs generalizing before with
  | nil => rfl
  | cons s segs ih =>
    rw [List.foldl_cons, enter_of_proper (h s List.mem_cons_self),
      ih fun t ht => h t (List.mem_cons_of_mem s ht), List.reverse_cons, List.append_assoc]
    rfl

/-- Proper segments are left alone. -/
theorem resolve_of_proper (h : ∀ s ∈ segs, Proper s) : resolve segs = segs := by
  rw [resolve, foldl_enter_of_proper h, List.append_nil, List.reverse_reverse]

theorem resolve_resolve (segs : List (List Char)) : resolve (resolve segs) = resolve segs :=
  resolve_of_proper fun _ hs => (mem_resolve hs).2

/-- Segments that come to the same can stand for each other in front of others. -/
theorem resolve_append_congr {segs' : List (List Char)} (h : resolve segs = resolve segs')
    (new : List (List Char)) : resolve (segs ++ new) = resolve (segs' ++ new) := by
  have hfold : segs.foldl enter [] = segs'.foldl enter [] := List.reverse_injective h
  rw [resolve, resolve, List.foldl_append, List.foldl_append, hfold]

/-- The root and a name of nothing are no segments. -/
theorem resolve_splitAt (name : List Char) :
    resolve (Text.splitAt '/' name) = resolve (segments name) := by
  have hbare : resolve (Text.splitAt '/' (bare name)) = resolve (segments name) := by
    unfold segments
    split
    · rename_i hempty
      rw [hempty]
      rfl
    · rw [Text.splitAt_eq_splitOn]
  rw [← hbare, bare]
  cases habs : isAbsolute name with
  | false => rfl
  | true =>
    obtain ⟨rest, rfl⟩ := List.head?_eq_some_iff.1 (of_decide_eq_true habs)
    have hpieces : Text.splitAt '/' ('/' :: rest) = [] :: Text.splitAt '/' rest :=
      Text.splitAt_append '/' [] rest
    rw [hpieces]
    rfl

/-! ## Normal names -/

theorem plain_of_mem_resolve {s : List Char} (h : s ∈ resolve (segments name)) :
    s ≠ [] ∧ '/' ∉ s :=
  ⟨(mem_resolve h).2.1, not_mem_of_mem_segments (mem_resolve h).1⟩

theorem normalizeChars_eq_path (name : List Char) :
    normalizeChars name = path (isAbsolute name) (resolve (segments name)) := by
  rw [normalizeChars_eq, resolve_splitAt]

/-- Normalising resolves the segments. -/
theorem segments_normalizeChars (name : List Char) :
    segments (normalizeChars name) = resolve (segments name) := by
  rw [normalizeChars_eq_path, segments_path fun _ => plain_of_mem_resolve]

theorem isAbsolute_normalizeChars (name : List Char) :
    isAbsolute (normalizeChars name) = isAbsolute name := by
  rw [normalizeChars_eq_path, (bare_path fun _ => plain_of_mem_resolve).1]

theorem normalizeChars_normalizeChars (name : List Char) :
    normalizeChars (normalizeChars name) = normalizeChars name := by
  rw [normalizeChars_eq_path (normalizeChars name), isAbsolute_normalizeChars,
    segments_normalizeChars, resolve_resolve, ← normalizeChars_eq_path]

theorem proper_of_mem_normalizeChars {s : List Char} (h : s ∈ segments (normalizeChars name)) :
    Proper s := by
  rw [segments_normalizeChars] at h
  exact (mem_resolve h).2

/-- The normal names are those that stay as they are. -/
theorem normalizeChars_eq_self_iff (name : List Char) :
    normalizeChars name = name ↔ ∀ s ∈ segments name, Proper s := by
  constructor
  · intro h s hs
    rw [← h] at hs
    exact proper_of_mem_normalizeChars hs
  · intro h
    rw [normalizeChars_eq_path, resolve_of_proper h, path_segments]

theorem isAbsolute_append {a : List Char} (h : a ≠ []) (b : List Char) :
    isAbsolute (a ++ b) = isAbsolute a := by
  rw [isAbsolute, List.head?_append_of_ne_nil a h, isAbsolute]

theorem normalizeChars_append {a : List Char}
    (h : isAbsolute a = true ∨ normalizeChars a ≠ []) (b : List Char) :
    normalizeChars (a ++ '/' :: b) = normalizeChars (normalizeChars a ++ '/' :: b) := by
  have hne : a ≠ [] := by
    rintro rfl
    exact h.elim (by decide) (· rfl)
  have hne' : normalizeChars a ≠ [] := by
    intro hempty
    have habs := isAbsolute_normalizeChars a
    rw [hempty] at habs
    exact h.elim (fun ha => absurd (habs.trans ha) (by decide)) (· hempty)
  have hsame : resolve (Text.splitAt '/' a) = resolve (Text.splitAt '/' (normalizeChars a)) := by
    rw [resolve_splitAt, resolve_splitAt, segments_normalizeChars, resolve_resolve]
  rw [normalizeChars_eq, normalizeChars_eq (normalizeChars a ++ '/' :: b), isAbsolute_append hne,
    isAbsolute_append hne', isAbsolute_normalizeChars, Text.splitAt_append, Text.splitAt_append,
    resolve_append_congr hsame]

/-- A name of which nothing is left. -/
theorem normalizeChars_of_segments (h : segments (normalizeChars name) = []) :
    normalizeChars name = if isAbsolute name then ['/'] else [] := by
  rw [← path_segments (normalizeChars name), h, isAbsolute_normalizeChars]
  rfl

/-! ## Names as strings -/

@[simp] theorem toList_normalize (name : String) :
    (normalize name).toList = normalizeChars name.toList := String.toList_ofList

theorem normalize_normalize (name : String) : normalize (normalize name) = normalize name := by
  rw [normalize, toList_normalize, normalizeChars_normalizeChars, normalize]

theorem normalize_eq_self_iff (name : String) :
    normalize name = name ↔ ∀ s ∈ segments name.toList, Proper s := by
  rw [← String.toList_inj, toList_normalize, normalizeChars_eq_self_iff]

/-- A name can be normalised before another one is put behind it. -/
theorem normalize_append {a : String} (h : isAbsolute a.toList = true ∨ normalize a ≠ "")
    (b : String) : normalize (a ++ "/" ++ b) = normalize (normalize a ++ "/" ++ b) := by
  have hslash (a b : String) : (a ++ "/" ++ b).toList = a.toList ++ '/' :: b.toList := by simp
  have hchars : isAbsolute a.toList = true ∨ normalizeChars a.toList ≠ [] := by
    refine h.imp_right fun hne hnil => hne ?_
    rw [normalize, hnil]
  rw [← String.toList_inj, toList_normalize, toList_normalize, hslash, hslash, toList_normalize,
    normalizeChars_append hchars]

theorem normalize_of_segments {name : String} (h : segments (normalize name).toList = []) :
    normalize name = if isAbsolute name.toList then "/" else "" := by
  rw [toList_normalize] at h
  rw [normalize, normalizeChars_of_segments h]
  split <;> rfl

end FileName

/-! ## Stored files -/

namespace Store

open FileName (normalize normalize_normalize)

variable {st : Store}

/-- All files are stored under normal names. -/
def Tidy (st : Store) : Prop := ∀ name ∈ st.files.names, normalize name = name

theorem Tidy.insert (h : st.Tidy) {key : String} (hkey : normalize key = key) (text : String) :
    Tidy ⟨st.files.insert key text⟩ := by
  intro name hname
  rcases Bindings.mem_names_insert hname with rfl | hold
  · exact hkey
  · exact h name hold

theorem Tidy.write (h : st.Tidy) (name text : String) : (st.write name text).Tidy :=
  h.insert (normalize_normalize name) text

theorem Tidy.remove (h : st.Tidy) (name : String) : (st.remove name).Tidy :=
  fun other hother => h other (Bindings.mem_names_erase hother)

theorem tidy_ofList (files : List (String × String)) : (ofList files).Tidy := by
  have hwritten (st : Store) (h : st.Tidy) :
      (files.foldl (fun st file => st.write file.1 file.2) st).Tidy := by
    induction files generalizing st with
    | nil => exact h
    | cons file files ih => exact ih _ (h.write file.1 file.2)
  exact hwritten {} fun _ hname => by cases hname

/-- A file is found under the name that it is stored under. -/
theorem Tidy.contains (h : st.Tidy) {name : String} (hname : name ∈ st.files.names) :
    st.contains name = true := by
  obtain ⟨entry, hentry, rfl⟩ := List.mem_map.1 hname
  rw [Store.contains, h _ hname, Bindings.contains, Option.isSome_iff_ne_none]
  intro hnone
  simpa using List.lookup_eq_none_iff.1 hnone entry hentry

end Store

namespace Desk

open FileName

variable {d : Desk}

/-- The stored files have normal names, and so have the handles whose content is stored. -/
structure Tidy (d : Desk) : Prop where
  store : d.store.Tidy
  handles : ∀ f ∈ d.handles, f.stored = true → normalize f.name = f.name

theorem Tidy.addHandle (h : d.Tidy) {f : OpenFile}
    (hf : f.stored = true → normalize f.name = f.name) : (d.addHandle f).1.Tidy := by
  refine ⟨h.store, fun g hg => ?_⟩
  rcases List.mem_append.1 hg with hold | hnew
  · exact h.handles g hold
  · obtain rfl := List.mem_singleton.1 hnew
    exact hf

/-- A handle keeps its name, whatever becomes of its content and its stream. -/
theorem Tidy.setHandle (h : d.Tidy) {handle : Nat} {f f' : OpenFile}
    (hf : d.handles[handle]? = some f) (hname : f'.name = f.name) (hstored : f'.stored = f.stored) :
    (d.setHandle handle f').Tidy := by
  refine ⟨h.store, fun g hg => ?_⟩
  rcases List.mem_or_eq_of_mem_set hg with hold | rfl
  · exact h.handles g hold
  · rw [hname, hstored]
    exact h.handles f (List.mem_of_getElem? hf)

theorem Tidy.act (h : d.Tidy) {op : Op} {handle : Nat} (htarget : op.target? = some handle) :
    (d.step op).1.Tidy := by
  cases d.acts op htarget with
  | nobody _ hstep => rwa [hstep]
  | refused _ _ hstep => rwa [hstep]
  | @acted f f' hf _ hname hstored _ _ hstep =>
    have hset := h.setHandle hf hname hstored
    rw [hstep]
    refine ⟨?_, hset.handles⟩
    dsimp only
    unfold OpenFile.save
    split_ifs with hclose hsaved
    · exact h.store
    · have hnormal := h.handles f (List.mem_of_getElem? hf) (hstored ▸ hsaved)
      exact h.store.insert (by rw [hname, hnormal]) f'.content
    · exact h.store

/-- One operation leaves normal names only. -/
theorem Tidy.step (h : d.Tidy) (op : Op) : (d.step op).1.Tidy := by
  cases op with
  | read | contains => exact h
  | write name text => exact ⟨h.store.write name text, h.handles⟩
  | remove name => exact ⟨h.store.remove name, h.handles⟩
  | openFile name => exact h.addHandle fun _ => normalize_normalize name
  | detached name text => exact h.addHandle fun hstored => by cases hstored
  | writeTo | clear | close => exact h.act rfl
  | readFrom handle want =>
    rcases d.readThrough_cases handle want with ⟨-, hstep⟩ | ⟨f, t, answer, hf, -, hstep, -⟩
    · rwa [hstep]
    · rw [hstep]
      exact h.setHandle hf rfl rfl

theorem Tidy.run (h : d.Tidy) (ops : List Op) : (d.run ops).1.Tidy := by
  induction ops generalizing d with
  | nil => exact h
  | cons op ops ih => exact ih (h.step op)

theorem tidy_ofList (files : List (String × String)) :
    Tidy { store := Store.ofList files } :=
  ⟨Store.tidy_ofList files, fun _ hf => by cases hf⟩

/-- Operations that find a file by its name do not tell two spellings of it apart. -/
theorem step_congr {a b : String} (h : normalize a = normalize b) (d : Desk) :
    d.step (.read a) = d.step (.read b) ∧ d.step (.contains a) = d.step (.contains b) ∧
      d.step (.remove a) = d.step (.remove b) ∧ d.step (.openFile a) = d.step (.openFile b) := by
  simp only [Desk.step, Store.read?, Store.contains, Store.remove, Store.openFile, h, true_and]

/-- **Names have a normal form, and files are stored under it.** Normalising twice is normalising
once. It keeps whether a name is absolute, leaves proper segments only, and leaves alone the names
that have no others. What stands in front of a `/` can be normalised first, unless it vanishes. And
whatever is done to files and through handles, every file is stored under a normal name and found
under it, and two spellings of one name come to the same. -/
theorem names_are_canonical :
    (∀ name : String, normalize (normalize name) = normalize name ∧
      isAbsolute (normalize name).toList = isAbsolute name.toList ∧
      (∀ s ∈ segments (normalize name).toList, Proper s) ∧
      (segments (normalize name).toList = [] →
        normalize name = if isAbsolute name.toList then "/" else "") ∧
      (normalize name = name ↔ ∀ s ∈ segments name.toList, Proper s)) ∧
    (∀ a b : String, isAbsolute a.toList = true ∨ normalize a ≠ "" →
      normalize (a ++ "/" ++ b) = normalize (normalize a ++ "/" ++ b)) ∧
    ∀ (files : List (String × String)) (ops : List Op) (d : Desk),
      d = (run { store := Store.ofList files } ops).1 →
      (∀ name ∈ d.store.files.names, normalize name = name ∧ d.store.contains name = true) ∧
      ∀ a b, normalize a = normalize b →
        d.step (.read a) = d.step (.read b) ∧ d.step (.contains a) = d.step (.contains b) ∧
        d.step (.remove a) = d.step (.remove b) ∧ d.step (.openFile a) = d.step (.openFile b) := by
  refine ⟨fun name => ⟨normalize_normalize name, ?_, ?_, normalize_of_segments,
    normalize_eq_self_iff name⟩, fun a b h => normalize_append h b, ?_⟩
  · rw [toList_normalize, isAbsolute_normalizeChars]
  · rw [toList_normalize]
    exact fun s => proper_of_mem_normalizeChars
  · rintro files ops d rfl
    have htidy := ((tidy_ofList files).run ops).store
    exact ⟨fun name hname => ⟨htidy name hname, htidy.contains hname⟩, fun a b h => step_congr h _⟩

/-- A file that is opened under one spelling of its name and written through the handle. -/
def spelledOps : List Op := [.openFile "tmp/../log", .writeTo 0 "b"]

/-- Two other spellings, and a name in front of another that cancels it. -/
theorem names_are_canonical_spelled : ∃ d,
    d = (run { store := Store.ofList [("./log", "a")] } spelledOps).1 ∧
      normalize "log/." = normalize ".//log" ∧ d.step (.read "log/.") = d.step (.read ".//log") ∧
      (d.step (.read "log/.")).2 = .text? (some "ab") ∧
      normalize "x/." ≠ "" ∧
      normalize ("x/." ++ "/" ++ "..//y") = normalize (normalize "x/." ++ "/" ++ "..//y") := by
  obtain ⟨-, happend, hfiles⟩ := names_are_canonical
  have hsame : normalize "log/." = normalize ".//log" := by decide
  have hleft : normalize "x/." ≠ "" := by decide
  have hread := ((hfiles [("./log", "a")] spelledOps _ rfl).2 "log/." ".//log" hsame).1
  exact ⟨_, rfl, hsame, hread, by decide +kernel, hleft, happend "x/." "..//y" (.inr hleft)⟩

end Desk

end PocketShell
