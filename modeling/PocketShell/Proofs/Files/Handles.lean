import PocketShell.Files.Desk
import PocketShell.Proofs.Bindings
import PocketShell.Proofs.Streams.Polling

/-!
# Files with many handles

The stored files and any number of handles, after any operations on the one and through the other.

* `Desk.run` : performs operations and keeps a log of them;
* `Desk.Acts` : what an operation comes to that writes through a handle, clears it or closes it;
* `Desk.Follows` : what the log says about a handle. One operation keeps to it (`follows_step`), and so
  do all (`follows_run`);
* `Desk.get?_run` : a stored file is what the last operation that changed it has made of it;
* `Desk.FileLaw` : all of this together (`run_keeps_law`).
-/

namespace PocketShell

/-! ## Handles -/

namespace OpenFile

theorem write_cases (f : OpenFile) (st : Store) (text : String) :
    f.stream.closed = true ∧ f.write st text = .error .closed ∨
      f.stream.closed = false ∧ ∃ f' : OpenFile, f.write st text = .ok (f', f'.save st) ∧
        f'.name = f.name ∧ f'.stored = f.stored ∧ f'.content = f.content ++ text ∧
        f'.stream.closed = false := by
  rcases f.stream.write_cases text with ⟨hclosed, hw⟩ | ⟨hopen, t, hw, hopen', -⟩
  · exact .inl ⟨hclosed, by simp only [write, hw]⟩
  · exact .inr ⟨hopen, { f with stream := t, content := f.content ++ text },
      by simp only [write, hw], rfl, rfl, rfl, hopen'⟩

theorem clear_cases (f : OpenFile) (st : Store) :
    f.stream.closed = true ∧ f.clear st = .error .closed ∨
      f.stream.closed = false ∧ ∃ f' : OpenFile, f.clear st = .ok (f', f'.save st) ∧
        f'.name = f.name ∧ f'.stored = f.stored ∧ f'.content = "" ∧ f'.stream.closed = false := by
  cases hclosed : f.stream.closed with
  | true => exact .inl ⟨rfl, by simp only [clear, hclosed, if_true]⟩
  | false =>
    refine .inr ⟨rfl, { f with content := "" }, ?_, rfl, rfl, rfl, hclosed⟩
    simp only [clear, hclosed, Bool.false_eq_true, if_false]

theorem close_cases (f : OpenFile) :
    f.stream.closed = true ∧ f.close = .error .closed ∨
      f.stream.closed = false ∧ ∃ f' : OpenFile, f.close = .ok f' ∧
        f'.name = f.name ∧ f'.stored = f.stored ∧ f'.content = f.content ∧
        f'.stream.closed = true := by
  rcases f.stream.close_cases with ⟨hclosed, hc⟩ | ⟨hopen, t, hc, hclosed, -⟩
  · exact .inl ⟨hclosed, by simp only [close, hc]⟩
  · exact .inr ⟨hopen, { f with stream := t }, by simp only [close, hc], rfl, rfl, rfl, hclosed⟩

/-- The stored file that the handle leaves its content in, and that content. -/
def saved? (f : OpenFile) : Option (String × Option String) :=
  if f.stored then some (f.name, some f.content) else none

theorem get?_save (f : OpenFile) (st : Store) (key : String) :
    (f.save st).files.get? key = (f.saved?.toList.lookup key).getD (st.files.get? key) := by
  unfold save saved?
  by_cases hstored : f.stored = true
  · by_cases hname : f.name = key
    · subst hname
      simp [hstored]
    · have hne : (key == f.name) = false := by simpa using Ne.symm hname
      simp [hstored, List.lookup_cons, hne, Bindings.get?_insert_of_ne st.files (Ne.symm hname)]
  · simp [hstored]

end OpenFile

namespace Desk

/-- The handle that an operation writes through, clears or closes. -/
def Op.target? : Op → Option Nat
  | writeTo handle _ | clear handle | close handle => some handle
  | _ => none

/-- What a successful operation makes of the content of its handle. -/
def Op.edit (content : String) : Op → String
  | writeTo _ text => content ++ text
  | clear _ => ""
  | _ => content

def Op.isClose : Op → Bool
  | close _ => true
  | _ => false

/-- What an operation comes to that writes through a handle, clears it or closes it. -/
inductive Acts (d : Desk) (op : Op) (handle : Nat) : Prop where
  | nobody (hnone : d.handles[handle]? = none) (hstep : d.step op = (d, .nobody))
  | refused {f : OpenFile} (hf : d.handles[handle]? = some f) (hclosed : f.stream.closed = true)
    (hstep : d.step op = (d, .fault .closed))
  | acted {f f' : OpenFile} (hf : d.handles[handle]? = some f) (hopen : f.stream.closed = false)
    (hname : f'.name = f.name) (hstored : f'.stored = f.stored)
    (hcontent : f'.content = op.edit f.content) (hclosed : f'.stream.closed = op.isClose)
    (hstep : d.step op = ({ d.setHandle handle f' with
      store := if op.isClose then d.store else f'.save d.store }, .done))

theorem acts (d : Desk) (op : Op) {handle : Nat} (h : op.target? = some handle) :
    Acts d op handle := by
  cases op with
  | writeTo handle' text =>
    obtain rfl : handle' = handle := Option.some.inj h
    cases hf : d.handles[handle']? with
    | none => exact .nobody hf (by simp only [step, through, hf])
    | some f =>
      rcases f.write_cases d.store text with
        ⟨hclosed, hw⟩ | ⟨hopen, f', hw, hname, hstored, hcontent, hopen'⟩
      · exact .refused hf hclosed (by simp only [step, through, hf, hw])
      · exact .acted hf hopen hname hstored hcontent hopen' (by simp [step, through, hf, hw, Op.isClose])
  | clear handle' =>
    obtain rfl : handle' = handle := Option.some.inj h
    cases hf : d.handles[handle']? with
    | none => exact .nobody hf (by simp only [step, through, hf])
    | some f =>
      rcases f.clear_cases d.store with
        ⟨hclosed, hw⟩ | ⟨hopen, f', hw, hname, hstored, hcontent, hopen'⟩
      · exact .refused hf hclosed (by simp only [step, through, hf, hw])
      · exact .acted hf hopen hname hstored hcontent hopen' (by simp [step, through, hf, hw, Op.isClose])
  | close handle' =>
    obtain rfl : handle' = handle := Option.some.inj h
    cases hf : d.handles[handle']? with
    | none => exact .nobody hf (by simp only [step, through, hf])
    | some f =>
      rcases f.close_cases with ⟨hclosed, hw⟩ | ⟨hopen, f', hw, hname, hstored, hcontent, hclosed⟩
      · exact .refused hf hclosed (by simp [step, through, hf, hw, Except.map])
      · exact .acted hf hopen hname hstored hcontent hclosed
          (by simp [step, through, hf, hw, Except.map, Op.isClose])
  | read | write | contains | remove | openFile | detached | readFrom => cases h

/-- A read through a handle changes nothing but what its stream holds. -/
theorem readThrough_cases (d : Desk) (handle : Nat) (want : Want) :
    d.handles[handle]? = none ∧ d.step (.readFrom handle want) = (d, .nobody) ∨
      ∃ f t answer, d.handles[handle]? = some f ∧ t.closed = f.stream.closed ∧
        d.step (.readFrom handle want) = (d.setHandle handle { f with stream := t }, answer) ∧
        answer ≠ .done := by
  cases hf : d.handles[handle]? with
  | none => exact .inl ⟨rfl, by simp only [step, readThrough, hf]⟩
  | some f =>
    refine .inr ?_
    rcases hpoll : f.stream.poll want.serve {} none with ⟨t, c, out⟩
    have hclosed := (Stream.polls_of_eq hpoll).closed
    rcases out with ⟨cause | text⟩ | ticket
    · exact ⟨f, t, .fault cause, rfl, hclosed, by simp only [step, readThrough, hf, hpoll], nofun⟩
    · exact ⟨f, t, .text? (some text), rfl, hclosed, by simp only [step, readThrough, hf, hpoll],
        nofun⟩
    · exact ⟨f, t.abandon ticket, .pending, rfl, hclosed,
        by simp only [step, readThrough, hf, hpoll], nofun⟩

/-! ## Runs with a log -/

/-- The stored file that an operation changes, and what it is from then on: the text that is written
to it, nothing when it is removed, and through a handle everything that the handle holds. -/
def change? (d : Desk) (op : Op) : Option (String × Option String) :=
  match op with
  | .write name text => some (FileName.normalize name, some text)
  | .remove name => some (FileName.normalize name, none)
  | .writeTo handle _ | .clear handle =>
    if (d.step op).2 = .done then (d.step op).1.handles[handle]?.bind OpenFile.saved? else none
  | _ => none

/-- An operation with what came of it. -/
structure Entry where
  op : Op
  answer : Answer
  change? : Option (String × Option String)
deriving DecidableEq, Repr

namespace Entry

/-- The content of a handle after the operation. -/
def edit (handle : Nat) (content : String) (e : Entry) : String :=
  if e.op.target? = some handle ∧ e.answer = .done then e.op.edit content else content

/-- Whether this is what closed the handle. -/
def closes (handle : Nat) (e : Entry) : Prop := e.op = .close handle ∧ e.answer = .done

end Entry

def entry (d : Desk) (op : Op) : Entry := ⟨op, (d.step op).2, d.change? op⟩

/-- Performs operations in order, and keeps a log of them. -/
def run (d : Desk) : List Op → Desk × List Entry
  | [] => (d, [])
  | op :: ops =>
    let (after, log) := (d.step op).1.run ops
    (after, d.entry op :: log)

theorem run_append (d : Desk) (before after : List Op) :
    d.run (before ++ after) =
      (((d.run before).1.run after).1, (d.run before).2 ++ ((d.run before).1.run after).2) := by
  induction before generalizing d with
  | nil => rfl
  | cons op ops ih => simp only [List.cons_append, run, ih]

theorem length_run (d : Desk) (ops : List Op) : (d.run ops).2.length = ops.length := by
  induction ops generalizing d with
  | nil => rfl
  | cons op ops ih => simp only [run, List.length_cons, ih]

/-! ## The stored files -/

theorem getElem?_setHandle_self {d : Desk} {handle : Nat} {f : OpenFile}
    (h : d.handles[handle]? = some f) (f' : OpenFile) :
    (d.setHandle handle f').handles[handle]? = some f' := by
  obtain ⟨hlt, -⟩ := List.getElem?_eq_some_iff.1 h
  simp [setHandle, hlt]

theorem getElem?_setHandle_of_ne {d : Desk} {handle other : Nat} (h : other ≠ handle)
    (f' : OpenFile) : (d.setHandle handle f').handles[other]? = d.handles[other]? := by
  simp [setHandle, Ne.symm h]

/-- A write through a handle and a clear leave what the handle holds. -/
theorem get?_edited {d : Desk} {op : Op} {handle : Nat} (key : String)
    (h : op.target? = some handle) (hclose : op.isClose = false)
    (hchange : d.change? op =
      if (d.step op).2 = .done then (d.step op).1.handles[handle]?.bind OpenFile.saved? else none) :
    (d.step op).1.store.files.get? key =
      ((d.change? op).toList.lookup key).getD (d.store.files.get? key) := by
  rw [hchange]
  cases d.acts op h with
  | nobody hnone hstep => simp [hstep]
  | refused hf hclosed hstep => simp [hstep]
  | @acted f f' hf hopen hname hstored hcontent hclosed hstep =>
    have hset := getElem?_setHandle_self hf f'
    simp only [hstep, hclose, if_true, Bool.false_eq_true, if_false, hset, Option.bind_some,
      OpenFile.get?_save]

theorem get?_step (d : Desk) (op : Op) (key : String) :
    (d.step op).1.store.files.get? key =
      ((d.change? op).toList.lookup key).getD (d.store.files.get? key) := by
  cases op with
  | read name => rfl
  | contains name => rfl
  | openFile name => rfl
  | detached name text => rfl
  | write name text =>
    by_cases hkey : FileName.normalize name = key
    · subst hkey
      simp [step, Store.write, change?]
    · have hne : (key == FileName.normalize name) = false := by simpa using Ne.symm hkey
      simp [step, Store.write, change?, List.lookup_cons, hne,
        Bindings.get?_insert_of_ne _ (Ne.symm hkey)]
  | remove name =>
    by_cases hkey : FileName.normalize name = key
    · subst hkey
      simp [step, Store.remove, change?]
    · have hne : (key == FileName.normalize name) = false := by simpa using Ne.symm hkey
      simp [step, Store.remove, change?, List.lookup_cons, hne,
        Bindings.get?_erase_of_ne _ (Ne.symm hkey)]
  | writeTo handle text => exact get?_edited key rfl rfl rfl
  | clear handle => exact get?_edited key rfl rfl rfl
  | close handle =>
    cases d.acts (.close handle) rfl with
    | nobody hnone hstep => simp [hstep, change?]
    | refused hf hclosed hstep => simp [hstep, change?]
    | acted hf hopen hname hstored hcontent hclosed hstep => simp [hstep, change?, Op.isClose, setHandle]
  | readFrom handle want =>
    rcases d.readThrough_cases handle want with ⟨-, hstep⟩ | ⟨f, t, answer, -, -, hstep, -⟩
    · simp [hstep, change?]
    · simp [hstep, change?, setHandle]

/-- A stored file is what the last operation that changed it has made of it. -/
theorem get?_run (d : Desk) (ops : List Op) (key : String) :
    (d.run ops).1.store.files.get? key =
      (((d.run ops).2.filterMap Entry.change?).reverse.lookup key).getD (d.store.files.get? key) := by
  induction ops generalizing d with
  | nil => rfl
  | cons op ops ih =>
    have hfirst : (d.entry op :: ((d.step op).1.run ops).2).filterMap Entry.change? =
        (d.change? op).toList ++ ((d.step op).1.run ops).2.filterMap Entry.change? := by
      rw [List.filterMap_cons, entry]
      cases d.change? op <;> rfl
    have hone : (d.change? op).toList.reverse = (d.change? op).toList := by
      cases d.change? op <;> rfl
    simp only [run]
    rw [ih, get?_step, hfirst, List.reverse_append, hone, List.lookup_append]
    cases (((d.step op).1.run ops).2.filterMap Entry.change?).reverse.lookup key <;> rfl

/-! ## One handle among the others -/

/-- What a log says about a handle: the content it started from, changed by what was done through this
handle and by nothing else, and whether it is closed. -/
structure Follows (handle : Nat) (log : List Entry) (f f' : OpenFile) : Prop where
  name : f'.name = f.name
  stored : f'.stored = f.stored
  content : f'.content = log.foldl (Entry.edit handle) f.content
  closed : f'.stream.closed = true ↔ f.stream.closed = true ∨ ∃ e ∈ log, e.closes handle

theorem Follows.trans {handle : Nat} {log log' : List Entry} {f f' f'' : OpenFile}
    (h : Follows handle log f f') (h' : Follows handle log' f' f'') :
    Follows handle (log ++ log') f f'' where
  name := by rw [h'.name, h.name]
  stored := by rw [h'.stored, h.stored]
  content := by rw [h'.content, h.content, List.foldl_append]
  closed := by
    rw [h'.closed, h.closed]
    simp only [List.mem_append, or_and_right, exists_or, or_assoc]

/-- An operation that does nothing through the handle leaves it as it is, up to what its stream
holds. -/
theorem Follows.of_eq {handle : Nat} {e : Entry} {f f' : OpenFile}
    (hother : e.op.target? ≠ some handle ∨ e.answer ≠ .done) (hname : f'.name = f.name)
    (hstored : f'.stored = f.stored) (hcontent : f'.content = f.content)
    (hclosed : f'.stream.closed = f.stream.closed) : Follows handle [e] f f' where
  name := hname
  stored := hstored
  content := by
    have hedit : e.edit handle f.content = f.content := by
      apply if_neg
      rintro ⟨htarget, hdone⟩
      exact hother.elim (· htarget) (· hdone)
    rw [List.foldl_cons, List.foldl_nil, hedit, hcontent]
  closed := by
    have hcloses : ¬ ∃ e' ∈ [e], e'.closes handle := by
      rintro ⟨e', he', hop, hdone⟩
      obtain rfl := List.mem_singleton.1 he'
      refine hother.elim (· ?_) (· hdone)
      rw [hop, Op.target?]
    rw [hclosed]
    exact ⟨.inl, fun h => h.resolve_right hcloses⟩

theorem follows_act (d : Desk) {op : Op} {handle target : Nat} {f : OpenFile}
    (hf : d.handles[handle]? = some f) (htarget : op.target? = some target) :
    ∃ f', (d.step op).1.handles[handle]? = some f' ∧ Follows handle [d.entry op] f f' := by
  cases d.acts op htarget with
  | nobody hnone hstep
  | refused hg hclosed hstep =>
    have hanswer : (d.entry op).answer ≠ .done := by simp [entry, hstep]
    exact ⟨f, by rw [hstep, hf], .of_eq (.inr hanswer) rfl rfl rfl rfl⟩
  | @acted g g' hg hopen hname hstored hcontent hclosed hstep =>
    rw [hstep]
    by_cases hsame : handle = target
    · subst hsame
      obtain rfl : f = g := Option.some.inj (hf.symm.trans hg)
      refine ⟨g', getElem?_setHandle_self hf g', hname, hstored, ?_, ?_⟩
      · have hedit : (d.entry op).edit handle f.content = op.edit f.content := by
          apply if_pos
          simp [entry, hstep, htarget]
        rw [List.foldl_cons, List.foldl_nil, hedit, hcontent]
      · rw [hclosed, hopen]
        cases op with
        | close handle' =>
          obtain rfl : handle' = handle := Option.some.inj htarget
          simp [Op.isClose, Entry.closes, entry, hstep]
        | _ => simp [Op.isClose, Entry.closes, entry]
    · refine ⟨f, (getElem?_setHandle_of_ne hsame g').trans hf, .of_eq (.inl ?_) rfl rfl rfl rfl⟩
      show op.target? ≠ some handle
      rw [htarget]
      exact fun h => hsame (Option.some.inj h).symm

theorem follows_step (d : Desk) (op : Op) {handle : Nat} {f : OpenFile}
    (hf : d.handles[handle]? = some f) :
    ∃ f', (d.step op).1.handles[handle]? = some f' ∧ Follows handle [d.entry op] f f' := by
  have hlt : handle < d.handles.length := (List.getElem?_eq_some_iff.1 hf).1
  cases op with
  | writeTo target text => exact d.follows_act hf rfl
  | clear target => exact d.follows_act hf rfl
  | close target => exact d.follows_act hf rfl
  | read | write | contains | remove => exact ⟨f, hf, .of_eq (.inl nofun) rfl rfl rfl rfl⟩
  | openFile | detached =>
    exact ⟨f, (List.getElem?_append_left hlt).trans hf, .of_eq (.inl nofun) rfl rfl rfl rfl⟩
  | readFrom target want =>
    rcases d.readThrough_cases target want with ⟨-, hstep⟩ | ⟨g, t, answer, hg, hclosed, hstep, -⟩
    · exact ⟨f, by rw [hstep, hf], .of_eq (.inl nofun) rfl rfl rfl rfl⟩
    · rw [hstep]
      by_cases hsame : handle = target
      · subst hsame
        obtain rfl : f = g := Option.some.inj (hf.symm.trans hg)
        exact ⟨_, getElem?_setHandle_self hf _, .of_eq (.inl nofun) rfl rfl rfl hclosed⟩
      · exact ⟨f, (getElem?_setHandle_of_ne hsame _).trans hf, .of_eq (.inl nofun) rfl rfl rfl rfl⟩

theorem follows_run (d : Desk) (ops : List Op) {handle : Nat} {f : OpenFile}
    (hf : d.handles[handle]? = some f) :
    ∃ f', (d.run ops).1.handles[handle]? = some f' ∧ Follows handle (d.run ops).2 f f' := by
  induction ops generalizing d f with
  | nil => exact ⟨f, hf, rfl, rfl, rfl, by simp [run]⟩
  | cons op ops ih =>
    obtain ⟨f', hf', hstep⟩ := d.follows_step op hf
    obtain ⟨f'', hf'', hrun⟩ := ih _ hf'
    exact ⟨f'', hf'', hstep.trans hrun⟩

/-! ## Closed handles -/

def IsClosed (d : Desk) (handle : Nat) : Prop :=
  ∃ f, d.handles[handle]? = some f ∧ f.stream.closed = true

theorem getElem?_setHandle_eq_none {d : Desk} {handle : Nat} (h : d.handles[handle]? = none)
    (target : Nat) (f : OpenFile) : (d.setHandle target f).handles[handle]? = none := by
  simpa [setHandle] using h

/-- A handle that an operation makes is open. -/
theorem not_isClosed_of_made (d : Desk) (op : Op) {handle : Nat}
    (hnone : d.handles[handle]? = none) : ¬ (d.step op).1.IsClosed handle := by
  have hold : ¬ d.IsClosed handle := by
    rintro ⟨f, hf, -⟩
    rw [hnone] at hf
    cases hf
  have hadd (f : OpenFile) (hopen : f.stream.closed = false) :
      ¬ (d.addHandle f).1.IsClosed handle := by
    rintro ⟨g, hg, hclosed⟩
    rw [addHandle, List.getElem?_append_right (List.getElem?_eq_none_iff.1 hnone)] at hg
    obtain rfl : g = f := List.mem_singleton.1 (List.mem_of_getElem? hg)
    rw [hopen] at hclosed
    cases hclosed
  have hset {d' : Desk} {target : Nat} {f : OpenFile}
      (h : d'.handles = (d.setHandle target f).handles) : ¬ d'.IsClosed handle := by
    rintro ⟨g, hg, -⟩
    rw [h, getElem?_setHandle_eq_none hnone] at hg
    cases hg
  have hact {target : Nat} (h : op.target? = some target) : ¬ (d.step op).1.IsClosed handle := by
    cases d.acts op h with
    | nobody _ hstep => rwa [hstep]
    | refused _ _ hstep => rwa [hstep]
    | acted _ _ _ _ _ _ hstep =>
      rw [hstep]
      exact hset rfl
  cases op with
  | read | write | contains | remove => exact hold
  | openFile name => exact hadd _ (Stream.closed_put _ _)
  | detached name text => exact hadd _ (Stream.closed_put _ _)
  | writeTo | clear | close => exact hact rfl
  | readFrom target want =>
    rcases d.readThrough_cases target want with ⟨-, hstep⟩ | ⟨g, t, answer, -, -, hstep, -⟩
    · rwa [hstep]
    · rw [hstep]
      exact hset rfl

theorem isClosed_step (d : Desk) (op : Op) (handle : Nat) :
    (d.step op).1.IsClosed handle ↔ d.IsClosed handle ∨ (d.entry op).closes handle := by
  cases hf : d.handles[handle]? with
  | some f =>
    obtain ⟨f', hf', h⟩ := d.follows_step op hf
    simpa [IsClosed, hf, hf'] using h.closed
  | none =>
    have hcloses : ¬ (d.entry op).closes handle := by
      rintro ⟨rfl, hdone⟩
      cases d.acts (.close handle) rfl with
      | nobody _ hstep => simp [entry, hstep] at hdone
      | refused hg _ _ => simp [hf] at hg
      | acted hg _ _ _ _ _ _ => simp [hf] at hg
    have hold : ¬ d.IsClosed handle := by simp [IsClosed, hf]
    exact iff_of_false (d.not_isClosed_of_made op hf) (not_or.2 ⟨hold, hcloses⟩)

theorem isClosed_run (d : Desk) (ops : List Op) (handle : Nat) :
    (d.run ops).1.IsClosed handle ↔
      d.IsClosed handle ∨ ∃ e ∈ (d.run ops).2, e.closes handle := by
  induction ops generalizing d with
  | nil => simp [run]
  | cons op ops ih =>
    simp only [run, List.mem_cons, exists_eq_or_imp]
    rw [ih, isClosed_step, or_assoc]

theorem step_of_isClosed {d : Desk} {op : Op} {handle : Nat} (h : d.IsClosed handle)
    (htarget : op.target? = some handle) : d.step op = (d, .fault .closed) := by
  obtain ⟨f, hf, hclosed⟩ := h
  cases d.acts op htarget with
  | nobody hnone _ => simp [hf] at hnone
  | refused _ _ hstep => exact hstep
  | acted hg hopen _ _ _ _ _ =>
    obtain rfl := Option.some.inj (hf.symm.trans hg)
    rw [hclosed] at hopen
    cases hopen

theorem step_of_not_isClosed {d : Desk} {op : Op} {handle : Nat} (hlt : handle < d.handles.length)
    (h : ¬ d.IsClosed handle) (htarget : op.target? = some handle) : (d.step op).2 = .done := by
  cases d.acts op htarget with
  | nobody hnone _ =>
    rw [List.getElem?_eq_none_iff] at hnone
    omega
  | refused hf hclosed _ => exact absurd ⟨_, hf, hclosed⟩ h
  | acted _ _ _ _ _ _ hstep => rw [hstep]

/-- A read through a closed handle gives some of what its stream still holds, and the end of the
stream when that is nothing. -/
theorem read_of_isClosed {d : Desk} {handle : Nat} {f : OpenFile}
    (hf : d.handles[handle]? = some f) (hclosed : f.stream.closed = true) (want : Want) :
    f.stream.text = [] ∧ (d.step (.readFrom handle want)).2 = .fault .endOfStream ∨
      ∃ text, (d.step (.readFrom handle want)).2 = .text? (some text) ∧ text ≠ "" ∧
        text.toList <+: f.stream.text := by
  rcases hpoll : f.stream.poll want.serve {} none with ⟨t, c, out⟩
  cases Stream.polls_of_eq hpoll with
  | fresh h =>
    cases h with
    | served hserve =>
      refine .inr ⟨_, by simp only [step, readThrough, hf, hpoll]; rfl, ?_⟩
      obtain ⟨ch, rest, htext, ⟨-, rfl, -⟩ | ⟨-, rfl, -⟩ | ⟨-, rfl, -⟩⟩ := Want.serve_eq_some hserve
      · simp [htext]
      · simp [htext, Char.toString]
      · simp [htext, Char.toString]
    | ended hserve _ =>
      exact .inl ⟨Want.serve_eq_none_iff.1 hserve, by simp only [step, readThrough, hf, hpoll]⟩
    | cancelled _ hopen => simp [hclosed] at hopen
    | queued _ hopen => simp [hclosed] at hopen

/-! ## The law -/

/-- What holds of the files and the handles after any operations. -/
structure FileLaw (store : Store) (ops : List Op) (d : Desk) (log : List Entry) : Prop where
  /-- A handle holds what its file held when it was opened, changed by its own writes and clears. -/
  content : ∀ before name after opened, ops = before ++ .openFile name :: after →
    opened = (run { store := store } before).1 →
    ∃ f, d.handles[opened.handles.length]? = some f ∧ f.name = FileName.normalize name ∧
      f.stored = true ∧
      f.content = (log.drop (before.length + 1)).foldl (Entry.edit opened.handles.length)
        ((opened.store.read? name).getD "")
  /-- A file is what the last operation that changed it has made of it. -/
  files : ∀ key, d.store.files.get? key =
    ((log.filterMap Entry.change?).reverse.lookup key).getD (store.files.get? key)
  /-- A handle that has been closed takes nothing any more. -/
  refused : ∀ handle op, (∃ e ∈ log, e.closes handle) → op.target? = some handle →
    d.step op = (d, .fault .closed)
  /-- Until then it takes everything. -/
  granted : ∀ handle op, handle < d.handles.length → (∀ e ∈ log, ¬ e.closes handle) →
    op.target? = some handle → (d.step op).2 = .done
  /-- It still gives what its stream holds. -/
  drained : ∀ handle want, (∃ e ∈ log, e.closes handle) →
    ∃ f, d.handles[handle]? = some f ∧
      (f.stream.text = [] ∧ (d.step (.readFrom handle want)).2 = .fault .endOfStream ∨
        ∃ text, (d.step (.readFrom handle want)).2 = .text? (some text) ∧ text ≠ "" ∧
          text.toList <+: f.stream.text)
  /-- Opening a file, reading and closing leave all files as they are. -/
  quiet : ∀ op, (∃ name, op = .openFile name) ∨ (∃ handle want, op = .readFrom handle want) ∨
    (∃ handle, op = .close handle) → (d.step op).1.store = d.store

theorem store_step_of_quiet (d : Desk) {op : Op}
    (h : (∃ name, op = .openFile name) ∨ (∃ handle want, op = .readFrom handle want) ∨
      ∃ handle, op = .close handle) : (d.step op).1.store = d.store := by
  obtain ⟨name, rfl⟩ | ⟨handle, want, rfl⟩ | ⟨handle, rfl⟩ := h
  · rfl
  · rcases d.readThrough_cases handle want with ⟨-, hstep⟩ | ⟨f, t, answer, -, -, hstep, -⟩
    · rw [hstep]
    · rw [hstep]
      rfl
  · cases d.acts (.close handle) rfl with
    | nobody _ hstep => rw [hstep]
    | refused _ _ hstep => rw [hstep]
    | acted _ _ _ _ _ _ hstep =>
      rw [hstep]
      rfl

/-- A handle from its opening on. -/
theorem opened_run (d : Desk) (before : List Op) (name : String) (after : List Op) :
    ∃ f, (d.run (before ++ .openFile name :: after)).1.handles[(d.run before).1.handles.length]? =
        some f ∧
      Follows (d.run before).1.handles.length
        ((d.run (before ++ .openFile name :: after)).2.drop (before.length + 1))
        ((d.run before).1.store.openFile name) f := by
  have hmade : ((d.run before).1.step (.openFile name)).1.handles[(d.run before).1.handles.length]? =
      some ((d.run before).1.store.openFile name) := by
    simp [step, addHandle]
  obtain ⟨f, hf, h⟩ := ((d.run before).1.step (.openFile name)).1.follows_run after hmade
  have hlog : (d.run (before ++ .openFile name :: after)).2.drop (before.length + 1) =
      (((d.run before).1.step (.openFile name)).1.run after).2 := by
    rw [run_append, ← d.length_run before, List.drop_append]
    simp [run]
  rw [hlog, run_append]
  exact ⟨f, hf, h⟩

theorem run_keeps_law (store : Store) (ops : List Op) :
    FileLaw store ops (run { store := store } ops).1 (run { store := store } ops).2 := by
  have hclosed (handle : Nat) : (run { store := store } ops).1.IsClosed handle ↔
      ∃ e ∈ (run { store := store } ops).2, e.closes handle := by
    rw [isClosed_run]
    simp [IsClosed]
  refine ⟨?_, fun key => get?_run _ ops key, ?_, ?_, ?_, fun op h => store_step_of_quiet _ h⟩
  · rintro before name after opened rfl rfl
    obtain ⟨f, hf, h⟩ := opened_run { store := store } before name after
    exact ⟨f, hf, h.name, h.stored, h.content⟩
  · intro handle op hcloses htarget
    exact step_of_isClosed ((hclosed handle).2 hcloses) htarget
  · intro handle op hlt hopen htarget
    apply step_of_not_isClosed hlt _ htarget
    rw [hclosed]
    rintro ⟨e, he, hcloses⟩
    exact hopen e he hcloses
  · intro handle want hcloses
    obtain ⟨f, hf, hshut⟩ := (hclosed handle).2 hcloses
    exact ⟨f, hf, read_of_isClosed hf hshut want⟩

/-- A closed handle refuses writes, not reads. -/
theorem read_through_closed_handle :
    (∃ e ∈ (run {} [.openFile "f", .writeTo 0 "ab", .close 0]).2, e.closes 0) ∧
      ((run {} [.openFile "f", .writeTo 0 "ab", .close 0]).1.step (.readFrom 0 .chunk)).2 =
        .text? (some "ab") := by
  refine ⟨⟨⟨.close 0, .done, none⟩, ?_, rfl, rfl⟩, ?_⟩
  · decide +kernel
  · decide +kernel

end Desk

end PocketShell
