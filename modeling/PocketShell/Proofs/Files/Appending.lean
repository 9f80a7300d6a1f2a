import Mathlib.Data.List.Induction
import PocketShell.Proofs.Files.Handles

/-!
# Writing to one file through many handles

A handle holds the content that its file had when it was opened, and leaves all of it in the store
with every write. So a write through a handle takes back what other handles have written since it was
opened.

* `Desk.appends` : the writes that changed a file, in order;
* `Desk.Complete` : the file holds what it held, and all that has been written to it since;
* `Desk.content_run` : a handle holds what it held and what it has written;
* `Desk.stored_run` : the file holds what the handle holds that wrote to it last;
* `Desk.AppendLaw` : what becomes of a file that is only written to through handles (`run_appends`).
-/

namespace PocketShell.Desk

/-! ## Writes to a file -/

/-- The handle and the text of a write through a handle that changed the file. -/
def Entry.append? (key : String) (e : Entry) : Option (Nat × String) :=
  match e.op with
  | .writeTo handle text => if e.change?.map (·.1) = some key then some (handle, text) else none
  | _ => none

/-- The writes through handles that changed the file, in order. -/
def appends (key : String) (log : List Entry) : List (Nat × String) :=
  log.filterMap (Entry.append? key)

/-- Whatever changed the file was a write through a handle. -/
def OnlyAppends (key : String) (log : List Entry) : Prop :=
  ∀ e ∈ log, e.change?.map (·.1) = some key → (e.append? key).isSome = true

instance (key : String) (log : List Entry) : Decidable (OnlyAppends key log) := by
  unfold OnlyAppends
  infer_instance

/-- The writes of one handle. -/
def ownWrites (handle : Nat) (writes : List (Nat × String)) : List (Nat × String) :=
  writes.filter (·.1 = handle)

/-- All that was written. -/
def textOf (writes : List (Nat × String)) : String := String.join (writes.map (·.2))

/-- What is in a file. A file that does not exist is empty. -/
def holds (d : Desk) (key : String) : String := (d.store.files.get? key).getD ""

/-- Nothing is lost: the file holds what it held, and then all that has been written to it. -/
def Complete (d : Desk) (key : String) (ops : List Op) : Prop :=
  (d.run ops).1.holds key = d.holds key ++ textOf (appends key (d.run ops).2)

/-- Whenever a handle writes to the file, no other handle has written anything since it was opened. -/
def Unshared (key : String) (log : List Entry) : Prop :=
  ∀ earlier opening between write later handle text,
    log = earlier ++ opening :: (between ++ write :: later) → opening.answer = .handle handle →
    write.append? key = some (handle, text) →
    ∀ other ∈ appends key between, other.1 = handle ∨ other.2 = ""

variable {d : Desk} {key : String} {op : Op} {handle : Nat} {f : OpenFile}

theorem appends_append (key : String) (log log' : List Entry) :
    appends key (log ++ log') = appends key log ++ appends key log' := List.filterMap_append

theorem textOf_append (writes writes' : List (Nat × String)) :
    textOf (writes ++ writes') = textOf writes ++ textOf writes' := by
  rw [textOf, List.map_append, String.join_append]
  rfl

theorem ownWrites_append (handle : Nat) (writes writes' : List (Nat × String)) :
    ownWrites handle (writes ++ writes') = ownWrites handle writes ++ ownWrites handle writes' :=
  List.filter_append ..

theorem onlyAppends_append {log log' : List Entry} :
    OnlyAppends key (log ++ log') ↔ OnlyAppends key log ∧ OnlyAppends key log' := by
  simp only [OnlyAppends, List.mem_append, or_imp, forall_and]

theorem appends_singleton (key : String) (e : Entry) : appends key [e] = (e.append? key).toList := by
  rw [appends, List.filterMap_cons]
  cases e.append? key <;> rfl

theorem append?_eq_some {e : Entry} {text : String} :
    e.append? key = some (handle, text) ↔
      e.op = .writeTo handle text ∧ e.change?.map (·.1) = some key := by
  obtain ⟨op, answer, change⟩ := e
  cases op with
  | writeTo target written =>
    by_cases hkey : change.map (·.1) = some key
    · simp [Entry.append?, hkey]
    · simp [Entry.append?, hkey]
  | _ => simp [Entry.append?]

/-! ## One operation -/

/-- A write that changed a file has succeeded. -/
theorem done_of_append? {text : String} (h : (d.entry op).append? key = some (handle, text)) :
    op = .writeTo handle text ∧ (d.step op).2 = .done := by
  obtain ⟨rfl, hchange⟩ := append?_eq_some.1 h
  refine ⟨rfl, ?_⟩
  by_contra hdone
  simp [entry, change?, hdone] at hchange

/-- A write or a clear through a handle on the file changes it. -/
theorem change?_of_edit (hf : d.handles[handle]? = some f) (hstored : f.stored = true)
    (hname : f.name = key) (htarget : op.target? = some handle) (hclose : op.isClose = false)
    (hdone : (d.step op).2 = .done) : (d.change? op).map (·.1) = some key := by
  obtain ⟨f', hf', hfollows⟩ := d.follows_step op hf
  have hsaved : f'.saved? = some (key, some f'.content) := by
    rw [OpenFile.saved?, hfollows.stored, hstored, hfollows.name, hname]
    rfl
  cases op with
  | writeTo target | clear target =>
    obtain rfl : target = handle := Option.some.inj htarget
    rw [change?, if_pos hdone, hf', Option.bind_some, hsaved]
    rfl
  | close => cases hclose
  | read | write | contains | remove | openFile | detached | readFrom => cases htarget

/-- A handle on the file after an operation: it holds what it held, and what it has just written. -/
theorem content_step (hf : d.handles[handle]? = some f) (hstored : f.stored = true)
    (hname : f.name = key) (honly : OnlyAppends key [d.entry op]) :
    ∃ f', (d.step op).1.handles[handle]? = some f' ∧ f'.stored = true ∧ f'.name = key ∧
      f'.content = f.content ++ textOf (ownWrites handle (appends key [d.entry op])) := by
  obtain ⟨f', hf', hfollows⟩ := d.follows_step op hf
  refine ⟨f', hf', hfollows.stored.trans hstored, hfollows.name.trans hname, ?_⟩
  have hcontent : f'.content =
      if op.target? = some handle ∧ (d.step op).2 = .done then op.edit f.content else f.content :=
    hfollows.content
  rw [hcontent, appends_singleton]
  by_cases hacts : op.target? = some handle ∧ (d.step op).2 = .done
  · obtain ⟨htarget, hdone⟩ := hacts
    rw [if_pos ⟨htarget, hdone⟩]
    cases hclose : op.isClose with
    | true =>
      cases op with
      | close target => exact String.append_empty.symm
      | _ => cases hclose
    | false =>
      have hchange := change?_of_edit hf hstored hname htarget hclose hdone
      obtain ⟨⟨target, text⟩, happend⟩ :=
        Option.isSome_iff_exists.1 (honly _ (List.mem_singleton_self _) hchange)
      obtain ⟨rfl, -⟩ := done_of_append? happend
      obtain rfl : target = handle := Option.some.inj htarget
      simp [happend, Op.edit, ownWrites, textOf]
  · rw [if_neg hacts]
    have hnone : ownWrites handle ((d.entry op).append? key).toList = [] := by
      cases happend : (d.entry op).append? key with
      | none => rfl
      | some write =>
        obtain ⟨rfl, hdone⟩ := done_of_append? happend
        have hother : write.1 ≠ handle := fun hsame => hacts ⟨congrArg some hsame, hdone⟩
        simp [ownWrites, hother]
    rw [hnone]
    exact String.append_empty.symm

/-- The file after an operation: what the handle holds that has just written to it, if one has. -/
theorem stored_step (honly : OnlyAppends key [d.entry op]) :
    (d.entry op).append? key = none ∧
        (d.step op).1.store.files.get? key = d.store.files.get? key ∨
      ∃ handle text f, (d.entry op).append? key = some (handle, text) ∧
        (d.step op).1.handles[handle]? = some f ∧ f.stored = true ∧ f.name = key ∧
        (d.step op).1.store.files.get? key = some f.content := by
  have hstored := d.get?_step op key
  cases happend : (d.entry op).append? key with
  | none =>
    refine .inl ⟨rfl, ?_⟩
    have hother : (d.change? op).map (·.1) ≠ some key := by
      intro hchange
      have hsome := honly _ (List.mem_singleton_self _) hchange
      rw [happend] at hsome
      cases hsome
    rw [hstored]
    cases hchange : d.change? op with
    | none => rfl
    | some change =>
      obtain ⟨name, text?⟩ := change
      have hne : (key == name) = false := by
        rw [hchange] at hother
        simpa using Ne.symm hother
      simp [List.lookup_cons, hne]
  | some write =>
    obtain ⟨handle, text⟩ := write
    obtain ⟨rfl, hdone⟩ := done_of_append? happend
    have hchange : (d.change? (.writeTo handle text)).map (·.1) = some key :=
      (append?_eq_some.1 happend).2
    -- the change is what the handle leaves in the store
    have hsaved : d.change? (.writeTo handle text) =
        (d.step (.writeTo handle text)).1.handles[handle]?.bind OpenFile.saved? := if_pos hdone
    rw [hsaved] at hchange hstored
    cases hf : (d.step (.writeTo handle text)).1.handles[handle]? with
    | none =>
      rw [hf] at hchange
      cases hchange
    | some f =>
      rw [hf, Option.bind_some] at hchange hstored
      cases hf' : f.stored with
      | false =>
        rw [OpenFile.saved?, hf'] at hchange
        cases hchange
      | true =>
        rw [OpenFile.saved?, hf', if_pos rfl] at hchange hstored
        obtain rfl : f.name = key := Option.some.inj hchange
        refine .inr ⟨handle, text, f, rfl, hf, hf', rfl, ?_⟩
        simpa using hstored

/-- A handle on a file comes from opening it. -/
theorem opened_step (hnone : d.handles[handle]? = none)
    (hf : (d.step op).1.handles[handle]? = some f) (hstored : f.stored = true) :
    ∃ name, op = .openFile name ∧ f.name = FileName.normalize name ∧
      handle = d.handles.length := by
  have hadd {g : OpenFile} (hg : (d.addHandle g).1.handles[handle]? = some f) :
      handle = d.handles.length ∧ f = g := by
    have hle := List.getElem?_eq_none_iff.1 hnone
    rw [addHandle, List.getElem?_append_right hle, List.getElem?_singleton] at hg
    split at hg
    · exact ⟨by omega, (Option.some.inj hg).symm⟩
    · cases hg
  have hset {d' : Desk} {target : Nat} {g : OpenFile}
      (h : d'.handles = (d.setHandle target g).handles) : d'.handles[handle]? ≠ some f := by
    rw [h, getElem?_setHandle_eq_none hnone]
    exact fun h => by cases h
  have hact {target : Nat} (h : op.target? = some target) :
      (d.step op).1.handles[handle]? ≠ some f := by
    cases d.acts op h with
    | nobody _ hstep | refused _ _ hstep =>
      rw [hstep, hnone]
      exact fun h => by cases h
    | acted _ _ _ _ _ _ hstep =>
      rw [hstep]
      exact hset rfl
  cases op with
  | openFile name =>
    obtain ⟨hhandle, rfl⟩ := hadd hf
    exact ⟨name, rfl, rfl, hhandle⟩
  | detached name text =>
    obtain ⟨-, rfl⟩ := hadd hf
    cases hstored
  | read | write | contains | remove => cases hnone.symm.trans hf
  | writeTo | clear | close => exact absurd hf (hact rfl)
  | readFrom target want =>
    rcases d.readThrough_cases target want with ⟨-, hstep⟩ | ⟨g, t, answer, -, -, hstep, -⟩
    · rw [hstep, hnone] at hf
      cases hf
    · rw [hstep] at hf
      exact absurd hf (hset rfl)

/-! ## Runs -/

theorem run_concat (d : Desk) (ops : List Op) (op : Op) :
    d.run (ops ++ [op]) =
      (((d.run ops).1.step op).1, (d.run ops).2 ++ [(d.run ops).1.entry op]) := by
  rw [run_append]
  rfl

/-- A handle on the file holds what it held, and what it has written. -/
theorem content_run (ops : List Op) (hf : d.handles[handle]? = some f) (hstored : f.stored = true)
    (hname : f.name = key) (honly : OnlyAppends key (d.run ops).2) :
    ∃ f', (d.run ops).1.handles[handle]? = some f' ∧ f'.stored = true ∧ f'.name = key ∧
      f'.content = f.content ++ textOf (ownWrites handle (appends key (d.run ops).2)) := by
  induction ops generalizing d f with
  | nil => exact ⟨f, hf, hstored, hname, String.append_empty.symm⟩
  | cons op ops ih =>
    have hlog : (d.run (op :: ops)).2 = [d.entry op] ++ ((d.step op).1.run ops).2 := rfl
    rw [hlog] at honly ⊢
    obtain ⟨hfirst, hrest⟩ := onlyAppends_append.1 honly
    obtain ⟨g, hg, hgstored, hgname, hgcontent⟩ := content_step hf hstored hname hfirst
    obtain ⟨f', hf', hstored', hname', hcontent⟩ := ih hg hgstored hgname hrest
    refine ⟨f', hf', hstored', hname', ?_⟩
    rw [hcontent, hgcontent, appends_append, ownWrites_append, textOf_append, String.append_assoc]

/-- The file holds what the handle holds that wrote to it last. -/
theorem stored_run (ops : List Op) (honly : OnlyAppends key (d.run ops).2) :
    appends key (d.run ops).2 = [] ∧
        (d.run ops).1.store.files.get? key = d.store.files.get? key ∨
      ∃ writes handle text f, appends key (d.run ops).2 = writes ++ [(handle, text)] ∧
        (d.run ops).1.handles[handle]? = some f ∧ f.stored = true ∧ f.name = key ∧
        (d.run ops).1.store.files.get? key = some f.content := by
  induction ops using List.reverseRecOn with
  | nil => exact .inl ⟨rfl, rfl⟩
  | append_singleton ops op ih =>
    rw [run_concat] at honly ⊢
    obtain ⟨hearlier, hlast⟩ := onlyAppends_append.1 honly
    rw [appends_append, appends_singleton]
    rcases stored_step hlast with ⟨hnone, hsame⟩ | ⟨handle, text, f, happend, hf, hrest⟩
    · rw [hnone, Option.toList_none, List.append_nil, hsame]
      refine (ih hearlier).imp_right ?_
      rintro ⟨writes, handle, text, f, hwrites, hf, hstored, hname, hcontent⟩
      obtain ⟨f', hf', hstored', hname', hcontent'⟩ := content_step hf hstored hname hlast
      refine ⟨writes, handle, text, f', hwrites, hf', hstored', hname', ?_⟩
      have hkept : f'.content = f.content := by
        rw [hcontent', appends_singleton, hnone]
        exact String.append_empty
      rw [hcontent, hkept]
    · rw [happend]
      exact .inr ⟨_, handle, text, f, rfl, hf, hrest⟩

theorem stored_of_no_appends {ops : List Op} (honly : OnlyAppends key (d.run ops).2)
    (hnil : appends key (d.run ops).2 = []) :
    (d.run ops).1.store.files.get? key = d.store.files.get? key := by
  rcases stored_run ops honly with ⟨-, hsame⟩ | ⟨writes, handle, text, f, hwrites, -⟩
  · exact hsame
  · simp [hnil] at hwrites

/-- Whoever writes to the file has opened it. -/
theorem exists_opening (hd : d.handles = []) (ops : List Op)
    (hf : (d.run ops).1.handles[handle]? = some f) (hstored : f.stored = true) :
    ∃ before name after, ops = before ++ .openFile name :: after ∧
      f.name = FileName.normalize name ∧ handle = (d.run before).1.handles.length := by
  induction ops using List.reverseRecOn generalizing f with
  | nil =>
    rw [run, hd] at hf
    cases hf
  | append_singleton ops op ih =>
    rw [run_concat] at hf
    cases hold : (d.run ops).1.handles[handle]? with
    | none =>
      obtain ⟨name, rfl, hname, hhandle⟩ := opened_step hold hf hstored
      exact ⟨ops, name, [], rfl, hname, hhandle⟩
    | some g =>
      obtain ⟨f', hf', hfollows⟩ := (d.run ops).1.follows_step op hold
      obtain rfl := Option.some.inj (hf.symm.trans hf')
      obtain ⟨before, name, after, rfl, hname, hhandle⟩ := ih hold (hfollows.stored.symm.trans hstored)
      exact ⟨before, name, after ++ [op], by simp, hfollows.name.trans hname, hhandle⟩

/-! ## The last handle that wrote -/

/-- The handle that wrote to the file last was opened after these operations. -/
def LastOpened (d : Desk) (key : String) (ops before : List Op) (handle : Nat) : Prop :=
  ∃ name after, ops = before ++ .openFile name :: after ∧ FileName.normalize name = key ∧
    handle = (d.run before).1.handles.length ∧
    (appends key (d.run ops).2).getLast?.map (·.1) = some handle

/-- The writes to the file since these operations. -/
def appendsSince (d : Desk) (key : String) (ops before : List Op) : List (Nat × String) :=
  (appends key (d.run ops).2).drop (appends key (d.run before).2).length

variable {ops before : List Op}

/-- A run up to the opening of a file, and from there on. -/
theorem run_opening (d : Desk) (before : List Op) (name : String) (after : List Op) :
    d.run (before ++ .openFile name :: after) =
      ((((d.run before).1.step (.openFile name)).1.run after).1,
        (d.run before).2 ++ [(d.run before).1.entry (.openFile name)] ++
          (((d.run before).1.step (.openFile name)).1.run after).2) := by
  rw [run_append, List.append_assoc]
  rfl

/-- Opening a file is no write. -/
theorem appends_opening (d : Desk) (key : String) (before : List Op) (name : String)
    (after : List Op) :
    appends key (d.run (before ++ .openFile name :: after)).2 =
      appends key (d.run before).2 ++
        appends key (((d.run before).1.step (.openFile name)).1.run after).2 := by
  rw [run_opening, appends_append, appends_append, appends_singleton]
  exact congrArg (· ++ _) (List.append_nil _)

namespace LastOpened

theorem appends_eq (h : d.LastOpened key ops before handle) :
    appends key (d.run ops).2 = appends key (d.run before).2 ++ d.appendsSince key ops before := by
  obtain ⟨name, after, rfl, -⟩ := h
  rw [appendsSince, appends_opening, List.drop_left]

theorem length_lt (h : d.LastOpened key ops before handle) : before.length < ops.length := by
  obtain ⟨name, after, rfl, -⟩ := h
  rw [List.length_append, List.length_cons]
  omega

theorem onlyAppends (h : d.LastOpened key ops before handle)
    (honly : OnlyAppends key (d.run ops).2) : OnlyAppends key (d.run before).2 := by
  obtain ⟨name, after, rfl, -⟩ := h
  rw [run_opening] at honly
  exact (onlyAppends_append.1 (onlyAppends_append.1 honly).1).1

/-- The file holds what it held when the handle of the last write was opened, and then what this
handle has written since. -/
theorem stored (h : d.LastOpened key ops before handle) (honly : OnlyAppends key (d.run ops).2) :
    (d.run ops).1.store.files.get? key = some ((d.run before).1.holds key ++
      textOf (ownWrites handle (d.appendsSince key ops before))) := by
  obtain ⟨name, after, rfl, rfl, rfl, hlast⟩ := h
  rw [appendsSince, appends_opening, List.drop_left]
  rcases stored_run _ honly with ⟨hnil, -⟩ | ⟨writes, handle, text, f, hwrites, hf, -, -, hget⟩
  · rw [hnil] at hlast
    cases hlast
  · rw [hwrites, List.getLast?_concat] at hlast
    obtain rfl : handle = (d.run before).1.handles.length := Option.some.inj hlast
    rw [hget]
    rw [run_opening] at honly hf
    have hmade : ((d.run before).1.step (.openFile name)).1.handles[(d.run before).1.handles.length]? =
        some ((d.run before).1.store.openFile name) := by
      simp [step, addHandle]
    obtain ⟨f', hf', -, -, hcontent⟩ := content_run after hmade rfl rfl (onlyAppends_append.1 honly).2
    obtain rfl := Option.some.inj (hf.symm.trans hf')
    exact congrArg some hcontent

end LastOpened

theorem exists_lastOpened (hd : d.handles = []) (honly : OnlyAppends key (d.run ops).2)
    (hne : appends key (d.run ops).2 ≠ []) : ∃ before handle, d.LastOpened key ops before handle := by
  rcases stored_run ops honly with ⟨hnil, -⟩ | ⟨writes, handle, text, f, hwrites, hf, hstored, hname, -⟩
  · exact absurd hnil hne
  · obtain ⟨before, name, after, hops, hfname, hhandle⟩ := exists_opening hd ops hf hstored
    refine ⟨before, handle, name, after, hops, hfname.symm.trans hname, hhandle, ?_⟩
    rw [hwrites, List.getLast?_concat]
    rfl

/-! ## What is lost -/

theorem textOf_cons (write : Nat × String) (writes : List (Nat × String)) :
    textOf (write :: writes) = write.2 ++ textOf writes := String.join_cons

theorem textOf_ownWrites_cons (handle : Nat) (write : Nat × String) (writes : List (Nat × String)) :
    textOf (ownWrites handle (write :: writes)) =
      (if write.1 = handle then write.2 else "") ++ textOf (ownWrites handle writes) := by
  by_cases hown : write.1 = handle
  · rw [if_pos hown, ownWrites, List.filter_cons_of_pos (by simpa using hown), textOf_cons]
    rfl
  · rw [if_neg hown, ownWrites, List.filter_cons_of_neg (by simpa using hown), String.empty_append]
    rfl

theorem length_textOf_ownWrites_le (handle : Nat) (writes : List (Nat × String)) :
    (textOf (ownWrites handle writes)).length ≤ (textOf writes).length := by
  induction writes with
  | nil => exact Nat.le_refl _
  | cons write writes ih =>
    rw [textOf_ownWrites_cons, textOf_cons, String.length_append, String.length_append]
    refine Nat.add_le_add ?_ ih
    split
    · exact Nat.le_refl _
    · exact Nat.zero_le _

/-- Texts that are put together alike from parts, none of which is longer on the left. -/
theorem eq_of_append_eq {a b a' b' : String} (h : a ++ b = a' ++ b') (ha : a.length ≤ a'.length)
    (hb : b.length ≤ b'.length) : a = a' ∧ b = b' := by
  have hlength := congrArg String.length h
  rw [String.length_append, String.length_append] at hlength
  have hlist := congrArg String.toList h
  rw [String.toList_append, String.toList_append] at hlist
  have hsame : a.toList.length = a'.toList.length := by
    rw [String.length_toList, String.length_toList]
    omega
  obtain ⟨hfirst, hsecond⟩ := List.append_inj hlist hsame
  exact ⟨String.toList_inj.1 hfirst, String.toList_inj.1 hsecond⟩

/-- One handle has written everything if the others have written nothing. -/
theorem textOf_ownWrites_eq_iff (handle : Nat) (writes : List (Nat × String)) :
    textOf (ownWrites handle writes) = textOf writes ↔
      ∀ write ∈ writes, write.1 = handle ∨ write.2 = "" := by
  induction writes with
  | nil => simp [ownWrites]
  | cons write writes ih =>
    rw [textOf_ownWrites_cons, textOf_cons, List.forall_mem_cons, ← ih]
    have hle : (if write.1 = handle then write.2 else "").length ≤ write.2.length := by
      split
      · exact Nat.le_refl _
      · exact Nat.zero_le _
    have hfirst : (if write.1 = handle then write.2 else "") = write.2 ↔
        write.1 = handle ∨ write.2 = "" := by
      by_cases hown : write.1 = handle
      · simp [hown]
      · rw [if_neg hown]
        exact ⟨fun h => .inr h.symm, fun h => (h.resolve_left hown).symm⟩
    rw [← hfirst]
    constructor
    · intro h
      exact eq_of_append_eq h hle (length_textOf_ownWrites_le handle writes)
    · rintro ⟨hown, hrest⟩
      rw [hown, hrest]

theorem holds_of_get? {text : String} (h : d.store.files.get? key = some text) :
    d.holds key = text := by
  rw [holds, h]
  rfl

/-- A file never holds more than what it held and what has been written to it. -/
theorem length_holds_le (hd : d.handles = []) (ops : List Op)
    (honly : OnlyAppends key (d.run ops).2) :
    ((d.run ops).1.holds key).length ≤
      (d.holds key ++ textOf (appends key (d.run ops).2)).length := by
  induction hn : ops.length using Nat.strongRecOn generalizing ops with
  | ind n ih =>
    subst hn
    by_cases hnil : appends key (d.run ops).2 = []
    · rw [holds, stored_of_no_appends honly hnil, String.length_append]
      exact Nat.le_add_right _ _
    · obtain ⟨before, handle, h⟩ := exists_lastOpened hd honly hnil
      have hbefore := ih before.length h.length_lt before (h.onlyAppends honly) rfl
      have hown := length_textOf_ownWrites_le handle (d.appendsSince key ops before)
      rw [holds_of_get? (h.stored honly), h.appends_eq, textOf_append]
      simp only [String.length_append] at hbefore ⊢
      omega

/-- Nothing is lost exactly if nothing was lost when the handle of the last write was opened, and no
other handle has written anything since. -/
theorem LastOpened.complete_iff (h : d.LastOpened key ops before handle) (hd : d.handles = [])
    (honly : OnlyAppends key (d.run ops).2) :
    d.Complete key ops ↔ d.Complete key before ∧
      ∀ write ∈ d.appendsSince key ops before, write.1 = handle ∨ write.2 = "" := by
  have hbefore := length_holds_le hd before (h.onlyAppends honly)
  have hown := length_textOf_ownWrites_le handle (d.appendsSince key ops before)
  rw [Complete, holds_of_get? (h.stored honly), h.appends_eq, textOf_append, ← String.append_assoc,
    ← textOf_ownWrites_eq_iff]
  constructor
  · intro hwhole
    exact eq_of_append_eq hwhole hbefore hown
  · rintro ⟨hstart, hsince⟩
    rw [hsince, hstart]

theorem Unshared.of_append {log log' : List Entry} (h : Unshared key (log ++ log')) :
    Unshared key log := by
  intro earlier opening between write later handle text hlog
  exact h earlier opening between write (later ++ log') handle text (by simp [hlog])

/-- The last write in a log, and those before it. -/
theorem exists_last_append {log : List Entry} {writes : List (Nat × String)}
    {write : Nat × String} (h : appends key log = writes ++ [write]) :
    ∃ between e later, log = between ++ e :: later ∧ appends key between = writes ∧
      e.append? key = some write := by
  obtain ⟨front, back, rfl, hfront, hback⟩ := List.filterMap_eq_append_iff.1 h
  obtain ⟨quiet, e, later, rfl, hquiet, he, -⟩ := List.filterMap_eq_cons_iff.1 hback
  refine ⟨front ++ quiet, e, later, by simp, ?_, he⟩
  rw [appends_append, show appends key quiet = [] from List.filterMap_eq_nil_iff.2 hquiet,
    List.append_nil]
  exact hfront

/-- Nothing is lost while no handle writes that another one has overtaken. -/
theorem complete_of_unshared (hd : d.handles = []) (ops : List Op)
    (honly : OnlyAppends key (d.run ops).2) (h : Unshared key (d.run ops).2) :
    d.Complete key ops := by
  induction hn : ops.length using Nat.strongRecOn generalizing ops with
  | ind n ih =>
    subst hn
    by_cases hnil : appends key (d.run ops).2 = []
    · rw [Complete, holds, stored_of_no_appends honly hnil, hnil]
      exact String.append_empty.symm
    · obtain ⟨before, handle, hlast⟩ := exists_lastOpened hd honly hnil
      rw [hlast.complete_iff hd honly]
      obtain ⟨name, after, rfl, -, rfl, hwriter⟩ := id hlast
      rw [run_opening] at h
      refine ⟨ih before.length hlast.length_lt before (hlast.onlyAppends honly)
        h.of_append.of_append rfl, ?_⟩
      rw [appends_opening] at hwriter
      rw [appendsSince, appends_opening, List.drop_left]
      -- the last write to the file came from this handle, and all others were made before it
      rcases List.eq_nil_or_concat (appends key (((d.run before).1.step (.openFile name)).1.run after).2)
        with hsince | ⟨writes, last, hsince⟩
      · simp [hsince]
      · rw [List.concat_eq_append] at hsince
        obtain ⟨between, e, later, hlog, hbetween, he⟩ := exists_last_append hsince
        rw [hsince, ← List.append_assoc, List.getLast?_concat] at hwriter
        rw [hlog, List.append_assoc, List.singleton_append] at h
        intro write hwrite
        rw [hsince, List.mem_append, List.mem_singleton] at hwrite
        rcases hwrite with hmem | rfl
        · refine h _ _ between e later _ last.2 rfl rfl ?_ write (hbetween ▸ hmem)
          rw [he]
          exact congrArg some (Prod.ext (Option.some.inj hwriter) rfl)
        · exact .inl (Option.some.inj hwriter)

/-! ## The law -/

/-- What becomes of a file that nothing changes but writes through handles. -/
structure AppendLaw (d : Desk) (key : String) (ops : List Op) : Prop where
  /-- Without a write it is as it was. -/
  unchanged : appends key (d.run ops).2 = [] →
    (d.run ops).1.store.files.get? key = d.store.files.get? key
  /-- Whoever wrote last has opened it. -/
  opened : appends key (d.run ops).2 ≠ [] → ∃ before handle, d.LastOpened key ops before handle
  /-- It holds what it held when the handle of the last write was opened, and then what this handle
  has written since. -/
  stored : ∀ before handle, d.LastOpened key ops before handle →
    (d.run ops).1.store.files.get? key = some ((d.run before).1.holds key ++
      textOf (ownWrites handle (d.appendsSince key ops before)))
  /-- Nothing is lost exactly if nothing was lost by then, and no other handle has written anything
  since. -/
  complete_iff : ∀ before handle, d.LastOpened key ops before handle →
    (d.Complete key ops ↔ d.Complete key before ∧
      ∀ write ∈ d.appendsSince key ops before, write.1 = handle ∨ write.2 = "")
  /-- Nothing is lost while no handle writes that another one has overtaken. -/
  complete : Unshared key (d.run ops).2 → d.Complete key ops

theorem run_appends (store : Store) (key : String) (ops : List Op)
    (honly : OnlyAppends key (run { store := store } ops).2) :
    AppendLaw { store := store } key ops where
  unchanged := stored_of_no_appends honly
  opened := exists_lastOpened rfl honly
  stored _ _ h := h.stored honly
  complete_iff _ _ h := h.complete_iff rfl honly
  complete := complete_of_unshared rfl ops honly

/-- Three handles on one file. The second one adds to what the first one has written, until the first
one writes again, even if it is nothing. The third one goes on from there. -/
def overtakenOps : List Op :=
  [.openFile "log", .writeTo 0 "a", .openFile "./log", .writeTo 1 "b", .writeTo 0 "",
    .openFile "x/../log", .close 0, .writeTo 2 "c"]

theorem run_appends_overtaken :
    OnlyAppends "log" (run {} overtakenOps).2 ∧
      LastOpened {} "log" overtakenOps (overtakenOps.take 5) 2 ∧
      (run {} overtakenOps).1.store.files.get? "log" = some ("a" ++ "c") ∧
      ¬ Complete {} "log" overtakenOps := by
  have honly : OnlyAppends "log" (run {} overtakenOps).2 := by decide +kernel
  have hlast : LastOpened {} "log" overtakenOps (overtakenOps.take 5) 2 :=
    ⟨"x/../log", [.close 0, .writeTo 2 "c"], rfl, by decide +kernel, by decide +kernel,
      by decide +kernel⟩
  have hlaw : AppendLaw {} "log" overtakenOps := run_appends {} "log" overtakenOps honly
  have hlost : ¬ Complete {} "log" (overtakenOps.take 5) := by
    unfold Complete
    decide +kernel
  refine ⟨honly, hlast, (hlaw.stored _ _ hlast).trans (by decide +kernel), fun hcomplete => ?_⟩
  exact hlost ((hlaw.complete_iff _ _ hlast).1 hcomplete).1

/-- Two handles that are open at the same time. -/
theorem append_lost :
    ¬ ∀ (store : Store) (key : String) (ops : List Op),
      OnlyAppends key (run { store := store } ops).2 → Complete { store := store } key ops := by
  intro h
  have hcomplete := h {} "log" [.openFile "log", .openFile "log", .writeTo 0 "a", .writeTo 1 "b"]
    (by decide +kernel)
  unfold Complete at hcomplete
  exact absurd hcomplete (by decide +kernel)

end PocketShell.Desk
