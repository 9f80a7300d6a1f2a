import PocketShell.Proofs.Sequential.Programs

/-!
# A run takes its steps one after the other

A job whose input is closed never waits: a pipe is polled on its left first, and by the time its
right side is polled the left side has ended and the pipe is closed. So one poll of a script does
what `Sequential.eval` says.

* `Job.reads` : the streams that a poll reads from, each as it was before the read;
* `Sequential.Meets` : what the beginning of a job has to do with an action on states, closed under
  all ways to put jobs together;
* `Sequential.meets_job` : every part of a script meets its evaluation.
-/

namespace PocketShell

namespace Job

/-- The streams that are read from during a poll, each as it was before the read. -/
def reads (host : Host) : Job → Scene → List Stream
  | exit _, _ => []
  | emit text k, sc => reads host k (sc.write text).1
  | lookup name k, sc => reads host (k (host.env name)) (sc.record (.env name))
  | openFile name overwrite k, sc =>
    let (sc, file) := handOut host sc name overwrite
    reads host (k file) sc
  | exec cancellable argv k, sc =>
    if cancellable && sc.fired then reads host (k cancelledStatus) sc
    else
      let started := sc.record (.exec argv)
      (host.exec argv).reads .nothing started ++
        match (host.exec argv).resume .nothing started with
        | (sc, .finished status) => reads host (k status) (sc.record (.exit (argv.headD "") status))
        | _ => []
  | command name state k, sc =>
    state.program.reads state.wait sc ++
      match state.resume sc with
      | (sc, .finished status) => reads host (k status) (sc.record (.exit name status))
      | _ => []
  | within frame inner k, outer =>
    let (sc, progress) := poll host inner (frame.enter outer)
    let (left, sc) := frame.leave outer sc
    reads host inner (frame.enter outer) ++
      match progress with
      | .finished status => reads host (k left status) sc
      | _ => []
  | pipe .left buffer left right k, outer =>
    let (sc, progress) := poll host left (sideScene outer buffer .left)
    let (filled, sc) := leaveSide outer sc .left
    reads host left (sideScene outer buffer .left) ++
      match progress with
      | .finished status =>
        let (inner, progress) := poll host right (sideScene sc filled.shut .right)
        reads host right (sideScene sc filled.shut .right) ++
          match progress with
          | .finished _ => reads host (k status) (leaveSide sc inner .right).2
          | _ => []
      | .waiting _ => reads host right (sideScene sc filled .right)
      | .interrupted _ => []
  | pipe .right buffer _ right _, sc => reads host right (sideScene sc buffer .right)
  | settle side status buffer rest k, outer =>
    let (inner, progress) := poll host rest (sideScene outer buffer side)
    reads host rest (sideScene outer buffer side) ++
      match progress with
      | .finished _ => reads host (k status) (leaveSide outer inner side).2
      | _ => []

end Job

namespace Sequential

variable {α β : Type} {host : Host} {dest : Option String}

attribute [local simp] Job.reads

/-- From every scene that stands for a state, a poll of the job comes to its continuation in a scene
that stands for the state after `act`, and reads from closed streams only on the way. -/
def Meets (host : Host) (dest : Option String) (start : (α → Job) → Job)
    (act : State → State × α) : Prop :=
  ∀ sc s, Shows dest sc s → ∃ sc' rs, Shows dest sc' (act s).1 ∧
    (∀ t ∈ rs, t.closed = true) ∧
    ∀ k, (start k).poll host sc = (k (act s).2).poll host sc' ∧
      (start k).reads host sc = rs ++ (k (act s).2).reads host sc'

theorem Shows.record {sc : Scene} {s : State} (h : Shows dest sc s) (call : Call) :
    Shows dest (sc.record call) s :=
  ⟨h.closed, h.input, h.output, h.errors, h.store, h.cancellation⟩

theorem Shows.fired {sc : Scene} {s : State} (h : Shows dest sc s) :
    sc.fired = s.cancellation.fired := by
  rw [Scene.fired, h.cancellation]

/-- What has been written to a buffer is there. -/
theorem SinkShows.text {sink : Sink} {text : String} (h : SinkShows none text sink) :
    sink.toStream.text = text.toList := by
  cases sink with
  | stream t => exact h.2
  | file f => exact h.elim

namespace Meets

theorem pure (a : α) : Meets host dest (fun k => k a) fun s => (s, a) :=
  fun sc _ h => ⟨sc, [], h, by simp, fun _ => ⟨rfl, rfl⟩⟩

theorem bind {start : (α → Job) → Job} {act : State → State × α} {next : α → (β → Job) → Job}
    {then_ : α → State → State × β} (h : Meets host dest start act)
    (hn : ∀ a, Meets host dest (next a) (then_ a)) :
    Meets host dest (fun k => start fun a => next a k) fun s => then_ (act s).2 (act s).1 := by
  intro sc s hs
  obtain ⟨sc₁, rs₁, h₁, hr₁, hk₁⟩ := h sc s hs
  obtain ⟨sc₂, rs₂, h₂, hr₂, hk₂⟩ := hn (act s).2 sc₁ (act s).1 h₁
  refine ⟨sc₂, rs₁ ++ rs₂, h₂, List.forall_mem_append.2 ⟨hr₁, hr₂⟩, fun k => ⟨?_, ?_⟩⟩
  · rw [(hk₁ _).1, (hk₂ k).1]
  · rw [(hk₁ _).2, (hk₂ k).2, List.append_assoc]

theorem ite {p : Prop} [Decidable p] {start other : (α → Job) → Job} {act act' : State → State × α}
    (h : Meets host dest start act) (h' : Meets host dest other act') :
    Meets host dest (fun k => if p then start k else other k)
      fun s => if p then act s else act' s := by
  by_cases hp : p
  · simpa only [hp, if_true] using h
  · simpa only [hp, if_false] using h'

/-- A job that does nothing after its beginning ends with the result of it. -/
theorem finish {start : (Int → Job) → Job} {act : State → State × Int}
    (h : Meets host dest start act) {sc : Scene} {s : State} (hs : Shows dest sc s) :
    ∃ sc', (start .exit).poll host sc = (sc', .finished (act s).2) ∧ Shows dest sc' (act s).1 ∧
      ∀ t ∈ (start .exit).reads host sc, t.closed = true := by
  obtain ⟨sc', rs, h', hr, hk⟩ := h sc s hs
  refine ⟨sc', (hk _).1, h', ?_⟩
  rw [(hk _).2]
  simpa using hr

theorem emit (text : String) (a : α) :
    Meets host dest (fun k => .emit text (k a)) fun s => (s.write dest text, a) := by
  intro sc s hs
  obtain ⟨sc', hw, h'⟩ := hs.write text
  refine ⟨sc', [], h', by simp, fun k => ⟨?_, ?_⟩⟩
  · simp only [Job.poll, hw]
  · simp only [Job.reads, hw, List.nil_append]

theorem expandVar (name : String) :
    Meets host dest (Tree.expandVar name) fun s => (s, variableText host name) := by
  intro sc s hs
  by_cases hname : name.isEmpty
  · refine ⟨sc, [], hs, by simp, fun k => ?_⟩
    simp [Tree.expandVar, variableText, hname]
  · refine ⟨sc.record (.env name), [], hs.record _, by simp, fun k => ?_⟩
    simp [Tree.expandVar, variableText, hname, Job.poll]

/-- A command of a host whose programs never pause. -/
theorem exec (hhost : ∀ argv, (host.exec argv).Steady) (cancellable : Bool) (argv : List String) :
    Meets host dest (.exec cancellable argv) (launch host cancellable dest argv) := by
  intro sc s hs
  by_cases hc : (cancellable && s.cancellation.fired) = true
  · refine ⟨sc, [], ?_, by simp, fun k => ?_⟩
    · rw [launch, if_pos hc]
      exact hs
    · simp only [launch, Job.poll, Job.reads, hs.fired, hc, if_true, List.nil_append, and_self]
  · have hlaunch : launch host cancellable dest argv s = perform dest (host.exec argv) s := by
      rw [launch, if_neg hc]
    obtain ⟨sc', hres, h', hreads⟩ := resume_of_shows (hhost argv) (hs.record (.exec argv))
    rw [hlaunch]
    refine ⟨sc'.record (.exit (argv.headD "") (perform dest (host.exec argv) s).2),
      (host.exec argv).reads .nothing (sc.record (.exec argv)), h'.record _, hreads,
      fun k => ⟨?_, ?_⟩⟩
    · simp only [Job.poll, hs.fired, if_neg hc, hres]
    · simp only [Job.reads, hs.fired, if_neg hc, hres]

/-! ## Streams of their own -/

/-- A job inside a frame that it cannot tell from the scene around it. -/
theorem within_of_finish (frame : Frame) {inner : Job} {sc sc' : Scene} {status : Int}
    (hpoll : inner.poll host (frame.enter sc) = (sc', .finished status)) (k : Frame → Int → Job) :
    (Job.within frame inner k).poll host sc =
        (k (frame.leave sc sc').1 status).poll host (frame.leave sc sc').2 ∧
      (Job.within frame inner k).reads host sc =
        inner.reads host (frame.enter sc) ++
          (k (frame.leave sc sc').1 status).reads host (frame.leave sc sc').2 := by
  constructor
  · simp only [Job.poll, hpoll]
  · simp only [Job.reads, hpoll]

/-- Output that is collected in a buffer; what is done with it depends on its text only. -/
theorem buffered {start : (Int → Job) → Job} {act : State → State × Int}
    (next : Frame → Int → (β → Job) → Job) (then_ : String → Int → State → State × β)
    (cancellable : Bool) (h : Meets host none start act)
    (hn : ∀ frame text status, frame.stream.text = text.toList →
      Meets host dest (next frame status) (then_ text status)) :
    Meets host dest
      (fun k => Tree.buffered cancellable (start .exit) fun frame status => next frame status k)
      fun s => then_ (s.capture act).2.1 (s.capture act).2.2 (s.capture act).1 := by
  intro sc s hs
  have hinner : Shows none
      ((Frame.output (.stream (Tree.privateStream cancellable))).enter sc) { s with output := "" } :=
    ⟨hs.closed, hs.input, ⟨rfl, rfl⟩, hs.errors, hs.store, hs.cancellation⟩
  obtain ⟨sc₁, hpoll, h₁, hr₁⟩ := h.finish hinner
  have hafter : Shows dest { sc₁ with stdout := sc.stdout } (s.capture act).1 :=
    ⟨h₁.closed, h₁.input, hs.output, h₁.errors, h₁.store, h₁.cancellation⟩
  obtain ⟨sc₂, rs₂, h₂, hr₂, hk₂⟩ :=
    hn (.output sc₁.stdout) _ (s.capture act).2.2 h₁.output.text _ _ hafter
  refine ⟨sc₂, _, h₂, List.forall_mem_append.2 ⟨hr₁, hr₂⟩, fun k => ⟨?_, ?_⟩⟩
  · exact (within_of_finish _ hpoll _).1.trans (hk₂ k).1
  · rw [List.append_assoc]
    exact (within_of_finish _ hpoll _).2.trans (congrArg _ (hk₂ k).2)

theorem text_of_stream {frame : Frame} {text : String} (h : frame.stream.text = text.toList) :
    frame.text = text := by
  rw [Frame.text, Stream.drain, h, String.ofList_toList]

/-- Input from a closed stream of its own. -/
theorem fed {start : (Int → Job) → Job} {act : State → State × Int} {t : Stream} {text : String}
    (hclosed : t.closed = true) (htext : t.text = text.toList) (h : Meets host dest start act) :
    Meets host dest (fun k => .within (.input t) (start .exit) fun _ status => k status)
      (State.feed text act) := by
  intro sc s hs
  obtain ⟨sc₁, hpoll, h₁, hr₁⟩ := h.finish (hs.setInput hclosed htext)
  refine ⟨{ sc₁ with stdin := sc.stdin }, _, ?_, hr₁, fun k => ?_⟩
  · exact ⟨hs.closed, hs.input, h₁.output, h₁.errors, h₁.store, h₁.cancellation⟩
  · exact within_of_finish (.input t) hpoll fun _ status => k status

/-! ## Files -/

theorem openFile_of_handOut {sc sc' : Scene} {name : String} {overwrite : Bool} {file : OpenFile}
    (h : Job.handOut host sc name overwrite = (sc', file)) (k : OpenFile → Job) :
    (Job.openFile name overwrite k).poll host sc = (k file).poll host sc' ∧
      (Job.openFile name overwrite k).reads host sc = (k file).reads host sc' := by
  constructor
  · simp only [Job.poll, h]
  · simp only [Job.reads, h]

/-- A file that the host hands out is open and holds what is stored. -/
theorem handOut_of_shows (hhost : ∀ name, host.sealed name = false) {sc : Scene} {s : State}
    (hs : Shows dest sc s) (overwrite : Bool) (name : String) :
    ∃ sc' file, Job.handOut host sc name overwrite = (sc', file) ∧ sc'.stdout = sc.stdout ∧
      Shows (some (FileName.normalize name)) { sc' with stdout := .file file }
        (s.openFile overwrite (FileName.normalize name)) ∧
      file.stream.text = ((s.store.read? name).getD "").toList := by
  obtain ⟨t, hput, hopen, htext⟩ := Stream.write_of_open (s := {}) rfl ((s.store.read? name).getD "")
  replace htext : t.text = ((s.store.read? name).getD "").toList := htext
  have hfile : sc.world.store.openFile name = ⟨FileName.normalize name,
      (s.store.read? name).getD "", t, true⟩ := by
    have hput' : ({} : Stream).put ((s.store.read? name).getD "") = t := by
      rw [Stream.put, hput]
      rfl
    simpa [Store.openFile, OpenFile.detached, hs.store, Store.read?] using hput'
  cases overwrite with
  | false =>
    refine ⟨sc.record (.getFile name),
      ⟨FileName.normalize name, (s.store.read? name).getD "", t, true⟩, ?_, rfl, ?_, htext⟩
    · simp only [Job.handOut, hhost, Bool.false_eq_true, if_false, Scene.record, World.record, hfile]
    · exact ⟨hs.closed, hs.input, ⟨rfl, hopen, rfl, rfl⟩, hs.errors, hs.store, hs.cancellation⟩
  | true =>
    refine ⟨{ sc.record (.getFile name) with
      world := { (sc.record (.getFile name)).world with
        store := ⟨sc.world.store.files.insert (FileName.normalize name) ""⟩ } },
      ⟨FileName.normalize name, "", t, true⟩, ?_, rfl, ?_, htext⟩
    · simp [Job.handOut, hhost, Scene.record, World.record, hfile, OpenFile.clear, hopen,
        OpenFile.save]
    · refine ⟨hs.closed, hs.input, ⟨rfl, hopen, rfl, rfl⟩, hs.errors, ?_, hs.cancellation⟩
      simp [State.openFile, hs.store]

/-- Output to a file. The handle is open at the end, so its status is that of what wrote to it. -/
theorem diverted {start : (Int → Job) → Job} {act : String → State → State × Int}
    (hhost : ∀ name, host.sealed name = false) (overwrite : Bool) (name : String)
    (h : ∀ key, Meets host (some key) start (act key)) :
    Meets host dest
      (fun k => .openFile name overwrite fun file =>
        .within (.output (.file file)) (start .exit) fun frame status =>
          k (Tree.writtenStatus frame status))
      (State.divert overwrite name act) := by
  intro sc s hs
  obtain ⟨sc₁, file, hhand, hsame, h₁, -⟩ := handOut_of_shows hhost hs overwrite name
  obtain ⟨sc₂, hpoll, h₂, hr₂⟩ := (h _).finish h₁
  have hstatus : ∀ status, Tree.writtenStatus (.output sc₂.stdout) status = status := by
    intro status
    have hopen : sc₂.stdout.toStream.closed = false := by
      have hout := h₂.output
      cases hsink : sc₂.stdout with
      | stream t => simp [hsink, SinkShows] at hout
      | file f =>
        rw [hsink] at hout
        exact hout.2.1
    simp only [Tree.writtenStatus, Frame.stream, hopen]
    split <;> simp_all
  refine ⟨{ sc₂ with stdout := sc.stdout }, _, ?_, hr₂, fun k => ?_⟩
  · exact ⟨h₂.closed, h₂.input, hs.output, h₂.errors, h₂.store, h₂.cancellation⟩
  · have hin := within_of_finish (.output (.file file)) hpoll
      fun frame status => k (Tree.writtenStatus frame status)
    simp only [Frame.leave, hstatus, hsame] at hin
    rw [(openFile_of_handOut hhand _).1, (openFile_of_handOut hhand _).2]
    exact hin

/-- Input from a file: only what is stored when it is opened is read. -/
theorem fedFile {start : (Int → Job) → Job} {act : State → State × Int}
    (hhost : ∀ name, host.sealed name = false) (name : String) (h : Meets host dest start act) :
    Meets host dest
      (fun k => .openFile name false fun file =>
        .within (.input file.stream.shut) (start .exit) fun _ status => k status)
      fun s => s.feed ((s.store.read? name).getD "") act := by
  intro sc s hs
  obtain ⟨sc₁, file, hhand, hsame, h₁, htext⟩ := handOut_of_shows hhost hs false name
  have hopened : Shows dest sc₁ s := by
    refine ⟨h₁.closed, h₁.input, ?_, h₁.errors, h₁.store, h₁.cancellation⟩
    rw [hsame]
    exact hs.output
  obtain ⟨sc₂, rs, h₂, hr, hk⟩ :=
    fed (Stream.closed_shut file.stream) ((Stream.text_shut _).trans htext) h sc₁ s hopened
  refine ⟨sc₂, rs, h₂, hr, fun k => ?_⟩
  rw [(openFile_of_handOut hhand _).1, (openFile_of_handOut hhand _).2]
  exact hk k

/-! ## Pipes -/

theorem pipe_of_finish {left right : Job} {buffer : Stream} {sc sc₁ sc₂ : Scene} {status other : Int}
    (hleft : left.poll host (Job.sideScene sc buffer .left) = (sc₁, .finished status))
    (hright : right.poll host (Job.sideScene { sc₁ with stdout := sc.stdout }
      sc₁.stdout.toStream.shut .right) = (sc₂, .finished other)) (k : Int → Job) :
    (Job.pipe .left buffer left right k).poll host sc =
        (k status).poll host { sc₂ with stdin := sc₁.stdin } ∧
      (Job.pipe .left buffer left right k).reads host sc =
        left.reads host (Job.sideScene sc buffer .left) ++
          (right.reads host (Job.sideScene { sc₁ with stdout := sc.stdout }
            sc₁.stdout.toStream.shut .right) ++
              (k status).reads host { sc₂ with stdin := sc₁.stdin }) := by
  constructor
  · simp only [Job.poll, hleft, Job.leaveSide, hright]
  · simp only [Job.reads, hleft, Job.leaveSide, hright]

/-- The two sides of a pipe: by the time the right one is polled, the left one has ended and the pipe
is closed. -/
theorem pipe {left right : (Int → Job) → Job} {actL actR : State → State × Int}
    (cancellable : Bool) (hl : Meets host none left actL) (hr : Meets host dest right actR) :
    Meets host dest
      (fun k => .pipe .left (Tree.privateStream cancellable) (left .exit) (right .exit) k)
      fun s =>
        (((s.capture actL).1.feed (s.capture actL).2.1 actR).1, (s.capture actL).2.2) := by
  intro sc s hs
  have hinner : Shows none
      (Job.sideScene sc (Tree.privateStream cancellable) .left) { s with output := "" } :=
    ⟨hs.closed, hs.input, ⟨rfl, rfl⟩, hs.errors, hs.store, hs.cancellation⟩
  obtain ⟨sc₁, hpoll₁, h₁, hr₁⟩ := hl.finish hinner
  have hmid : Shows dest { sc₁ with stdout := sc.stdout } (s.capture actL).1 :=
    ⟨h₁.closed, h₁.input, hs.output, h₁.errors, h₁.store, h₁.cancellation⟩
  have htext : sc₁.stdout.toStream.shut.text = (s.capture actL).2.1.toList :=
    (Stream.text_shut _).trans h₁.output.text
  obtain ⟨sc₂, hpoll₂, h₂, hr₂⟩ := hr.finish (hmid.setInput (Stream.closed_shut _) htext)
  refine ⟨{ sc₂ with stdin := sc₁.stdin }, _, ?_, List.forall_mem_append.2 ⟨hr₁, hr₂⟩, fun k => ?_⟩
  · exact ⟨h₁.closed, h₁.input, h₂.output, h₂.errors, h₂.store, h₂.cancellation⟩
  · rw [List.append_assoc]
    exact pipe_of_finish hpoll₁ hpoll₂ k

end Meets

/-! ## Scripts -/

/-- The files of redirections, whose names are what their targets come to. -/
theorem Meets.redirected (cancellable overwrite : Bool)
    {target : (Int → Job) → Job} {act : State → State × Int} (use : OpenFile → (Int → Job) → Job)
    (then_ : String → State → State × Int) (h : Meets host none target act)
    (hn : ∀ name, Meets host dest (fun k => .openFile name overwrite fun file => use file k)
      (then_ name)) :
    Meets host dest
      (fun k => Tree.redirected cancellable overwrite (target .exit) k fun file => use file k)
      fun s =>
        if (s.capture act).2.1.isEmpty then ((s.capture act).1, Tree.redirectFailed)
        else then_ (s.capture act).2.1 (s.capture act).1 := by
  refine Meets.buffered
    (fun frame _ k => if frame.text.isEmpty then k Tree.redirectFailed
      else .openFile frame.text overwrite fun file => use file k)
    (fun name _ s => if name.isEmpty then (s, Tree.redirectFailed) else then_ name s)
    cancellable h fun frame name status hframe => ?_
  rw [Meets.text_of_stream hframe]
  exact Meets.ite (Meets.pure _) (hn name)

/-- A host whose commands never pause and whose files are open. -/
structure Prompt (host : Host) : Prop where
  steady : ∀ argv, (host.exec argv).Steady
  unsealed : ∀ name, host.sealed name = false

mutual

/-- A poll of a part of a script does what its evaluation says. -/
theorem meets_job (hhost : Prompt host) (cancellable : Bool) (t : Tree) (dest : Option String) :
    Meets host dest (t.job cancellable) (eval host cancellable t dest) := by
  cases t with
  | seq kind body =>
    cases kind with
    | script => exact meets_statements hhost cancellable body dest 0
    | group closed => exact meets_statements hhost cancellable body dest 0
    | command target =>
      cases target with
      | false =>
        have hwords (parts : List Segment × Option Int) : Meets host dest
            (fun k =>
              match Words.split parts.1 with
              | [] => k (parts.2.getD 0)
              | argv => .exec cancellable argv k)
            fun s =>
              match Words.split parts.1 with
              | [] => (s, parts.2.getD 0)
              | argv => launch host cancellable dest argv s := by
          cases Words.split parts.1 with
          | nil => exact Meets.pure _
          | cons word words => exact Meets.exec hhost.steady cancellable (word :: words)
        have hplain := (meets_segments hhost cancellable body dest).bind hwords
        rcases meets_group hhost cancellable body dest with ⟨hj, he⟩ | ⟨start, act, hj, he, hgroup⟩
        · intro sc s hs
          simp only [Tree.job, eval, hj, he]
          exact hplain sc s hs
        · intro sc s hs
          simp only [Tree.job, eval, hj, he]
          exact hgroup sc s hs
      | true =>
        exact (meets_segments hhost cancellable body dest).bind fun parts =>
          Meets.emit (Words.join parts.1) 0
    | dblQuote =>
      exact (meets_expandAll hhost cancellable body dest).bind fun text => Meets.emit text 0
    | sub style quoted =>
      refine Meets.buffered (fun frame status k => .emit (Tree.chomp frame.text) (k status))
        (fun text status s => (s.write dest (Tree.chomp text), status)) cancellable
        (meets_statements hhost cancellable body none 0) fun frame text status hframe => ?_
      rw [Meets.text_of_stream hframe]
      exact Meets.emit (Tree.chomp text) status
  | join op left right =>
    have hl := meets_job hhost cancellable left
    have hr := meets_job hhost cancellable right
    cases op with
    | pipe => exact Meets.pipe cancellable (hl none) (hr dest)
    | and =>
      have hthen (status : Int) : Meets host dest
          (fun k => if status = 0 then right.job cancellable k else k status)
          fun s => if status = 0 then eval host cancellable right dest s else (s, status) :=
        Meets.ite (hr dest) (Meets.pure status)
      exact (hl dest).bind hthen
    | or =>
      have hthen (status : Int) : Meets host dest
          (fun k => if status ≠ 0 then right.job cancellable k else k status)
          fun s => if status ≠ 0 then eval host cancellable right dest s else (s, status) :=
        Meets.ite (hr dest) (Meets.pure status)
      exact (hl dest).bind hthen
    | write =>
      exact Meets.redirected cancellable true _ _ (hr none) fun name =>
        Meets.diverted hhost.unsealed true name fun key => hl (some key)
    | append =>
      exact Meets.redirected cancellable false _ _ (hr none) fun name =>
        Meets.diverted hhost.unsealed false name fun key => hl (some key)
    | read =>
      exact Meets.redirected cancellable false _ _ (hr none) fun name =>
        Meets.fedFile hhost.unsealed name (hl dest)
    | readStr =>
      exact Meets.buffered
        (fun frame _ k => .within (.input frame.stream.shut) (left.job cancellable .exit)
          fun _ status => k status)
        (fun text _ s => s.feed text (eval host cancellable left dest)) cancellable (hr none)
        fun frame text _ hframe =>
          Meets.fed (Stream.closed_shut _) ((Stream.text_shut _).trans hframe) (hl dest)
  | dangling op left => exact Meets.pure 1
  | leaf l =>
    cases l with
    | ident text => exact Meets.emit text 0
    | whitespace text => exact Meets.emit text 0
    | quote text => exact Meets.emit text 0
    | var name => exact (Meets.expandVar name).bind fun text => Meets.emit text 0
    | comment => exact Meets.pure 0

theorem meets_statements (hhost : Prompt host) (cancellable : Bool) (ts : List Tree)
    (dest : Option String) (status : Int) :
    Meets host dest (Tree.statements cancellable ts status)
      (evalAll host cancellable ts dest status) := by
  cases ts with
  | nil => exact Meets.pure status
  | cons t ts => exact (meets_job hhost cancellable t dest).bind fun status =>
      meets_statements hhost cancellable ts dest status

/-- A group among the parts of a command: either there is none, or it is done. -/
theorem meets_group (hhost : Prompt host) (cancellable : Bool) (ts : List Tree)
    (dest : Option String) :
    ((∀ k, Tree.firstGroup? cancellable ts k = none) ∧
        ∀ s, evalGroup? host cancellable ts dest s = none) ∨
      ∃ start act, (∀ k, Tree.firstGroup? cancellable ts k = some (start k)) ∧
        (∀ s, evalGroup? host cancellable ts dest s = some (act s)) ∧
        Meets host dest start act := by
  cases ts with
  | nil => exact .inl ⟨fun _ => rfl, fun _ => rfl⟩
  | cons t ts =>
    have hrest := meets_group hhost cancellable ts dest
    cases t with
    | seq kind body =>
      cases kind with
      | group closed =>
        exact .inr ⟨_, _, fun _ => rfl, fun _ => rfl,
          meets_job hhost cancellable (.seq (.group closed) body) dest⟩
      | script => exact hrest
      | command target => exact hrest
      | dblQuote => exact hrest
      | sub style quoted => exact hrest
    | join op left right => exact hrest
    | dangling op left => exact hrest
    | leaf l => exact hrest

theorem meets_segments (hhost : Prompt host) (cancellable : Bool) (ts : List Tree)
    (dest : Option String) :
    Meets host dest
      (fun k => Tree.segments cancellable ts fun parts status => k (parts, status))
      (segments host cancellable ts) := by
  cases ts with
  | nil => exact Meets.pure ([], none)
  | cons t ts =>
    have hrest := meets_segments hhost cancellable ts dest
    -- the parts that come to a segment without a run of their own
    have hpart (part : Segment) : Meets host dest
        (fun k => Tree.segments cancellable ts fun parts status => k (part :: parts, status))
        fun s => ((segments host cancellable ts s).1, part :: (segments host cancellable ts s).2.1,
          (segments host cancellable ts s).2.2) :=
      hrest.bind fun found => Meets.pure (part :: found.1, found.2)
    cases t with
    | seq kind body =>
      cases kind with
      | dblQuote =>
        exact (meets_expandAll hhost cancellable body dest).bind fun text => hpart (.literal text)
      | sub style quoted =>
        let part (text : String) : Segment :=
          if quoted then .literal (Tree.chomp text) else .expansion (Tree.chomp text)
        refine Meets.buffered
          (fun frame status k => Tree.segments cancellable ts fun parts later =>
            k (part frame.text :: parts, later.or (some status)))
          (fun text status s =>
            let (s, parts, later) := segments host cancellable ts s
            (s, part text :: parts, later.or (some status)))
          cancellable (meets_statements hhost cancellable body none 0)
          fun frame text status hframe => ?_
        rw [Meets.text_of_stream hframe]
        exact hrest.bind fun found => Meets.pure (part text :: found.1, found.2.or (some status))
      | script => exact hrest
      | command target => exact hrest
      | group closed => exact hrest
    | join op left right => exact hrest
    | dangling op left => exact hrest
    | leaf l =>
      cases l with
      | ident text => exact hpart (.literal text)
      | whitespace text => exact hpart .gap
      | quote text => exact hpart (.literal text)
      | var name => exact (Meets.expandVar name).bind fun text => hpart (.expansion text)
      | comment => exact hpart .gap

theorem meets_expand (hhost : Prompt host) (cancellable : Bool) (t : Tree) (dest : Option String) :
    Meets host dest (Tree.expand cancellable t) (expand host cancellable t) := by
  cases t with
  | seq kind body =>
    cases kind with
    | dblQuote => exact meets_expandAll hhost cancellable body dest
    | sub style quoted =>
      refine Meets.buffered (fun frame _ k => k (Tree.chomp frame.text))
        (fun text _ s => (s, Tree.chomp text)) cancellable
        (meets_statements hhost cancellable body none 0) fun frame text status hframe => ?_
      rw [Meets.text_of_stream hframe]
      exact Meets.pure (Tree.chomp text)
    | script => exact Meets.pure ""
    | command target => exact Meets.pure ""
    | group closed => exact Meets.pure ""
  | join op left right => exact Meets.pure ""
  | dangling op left => exact Meets.pure ""
  | leaf l =>
    cases l with
    | ident text => exact Meets.pure text
    | whitespace text => exact Meets.pure text
    | quote text => exact Meets.pure text
    | var name => exact Meets.expandVar name
    | comment => exact Meets.pure ""

theorem meets_expandAll (hhost : Prompt host) (cancellable : Bool) (ts : List Tree)
    (dest : Option String) :
    Meets host dest (Tree.expandAll cancellable ts) (expandAll host cancellable ts) := by
  cases ts with
  | nil => exact Meets.pure ""
  | cons t ts =>
    exact (meets_expand hhost cancellable t dest).bind fun text =>
      (meets_expandAll hhost cancellable ts dest).bind fun rest => Meets.pure (text ++ rest)

end

/-! ## Shells -/

theorem prompt_host (sh : Shell) : Prompt sh.host :=
  ⟨sh.steady_exec, fun _ => rfl⟩

theorem shows_scene (sh : Shell) (input : String) :
    Shows none (sh.scene input) (initial sh input) := by
  obtain ⟨t, hput, -, htext⟩ := Stream.write_of_open (s := {}) rfl input
  have hstream : Stream.ofText input = t.shut := by
    rw [Stream.ofText, Stream.put, hput]
    rfl
  refine ⟨?_, ?_, ⟨rfl, rfl⟩, ⟨rfl, rfl⟩, rfl, rfl⟩
  · show (Stream.ofText input).closed = true
    rw [hstream, Stream.closed_shut]
  · show (Stream.ofText input).text = input.toList
    rw [hstream, Stream.text_shut, htext]
    rfl

/-- A shell does with statements what their evaluation says, in one poll and without a read from an
open stream. -/
theorem run_eq (sh : Shell) (ts : List Tree) (input : String) :
    sh.run ts input = ((run sh ts input).1, some (run sh ts input).2) ∧
      ∀ t ∈ (Tree.statements sh.cancellable ts 0 .exit).reads sh.host (sh.scene input),
        t.closed = true := by
  obtain ⟨sc, hpoll, h, hreads⟩ := (meets_statements (prompt_host sh) sh.cancellable ts none
    0).finish (shows_scene sh input)
  refine ⟨?_, hreads⟩
  have hout : sc.stdout.toStream.drain.1 = (run sh ts input).2.stdout := by
    rw [Stream.drain, h.output.text, String.ofList_toList]
    rfl
  have herr : sc.stderr.drain.1 = (run sh ts input).2.stderr := by
    rw [Stream.drain, h.errors.2, String.ofList_toList]
    rfl
  rw [Shell.run, hpoll]
  simp only [hout, herr, h.store, h.cancellation]
  rfl

/-- **One poll runs a script as its statements stand.** For every shell and every script that can be
read, what comes out and what is stored is what the statements come to one after the other, and
nothing is read from a stream that is still open. Of a script that holds blanks only, nothing is
run. -/
theorem exec_eq_sequential (sh : Shell) (script input : String) (f : Forest)
    (hparse : Forest.parse (Source.ofText script) = .ok f) :
    (Text.isAllBlank script.toList = true → sh.exec script input = (sh, some {})) ∧
      (Text.isAllBlank script.toList = false →
        sh.exec script input =
            ((run sh f.statements input).1, some (run sh f.statements input).2) ∧
          ∀ t ∈ (Tree.statements sh.cancellable f.statements 0 .exit).reads sh.host
            (sh.scene input), t.closed = true) := by
  refine ⟨fun hblank => ?_, fun hblank => ?_⟩
  · rw [Shell.exec, if_pos hblank]
  · obtain ⟨hrun, hreads⟩ := run_eq sh f.statements input
    refine ⟨?_, hreads⟩
    rw [Shell.exec, hblank, if_neg Bool.false_ne_true, Shell.interpret, hparse]
    exact hrun

theorem parse_of_toOption {source : Source} {f : Forest}
    (h : (Forest.parse source).toOption = some f) : Forest.parse source = .ok f := by
  cases hp : Forest.parse source with
  | error e => simp [hp, Except.toOption] at h
  | ok g =>
    rw [hp] at h
    exact congrArg Except.ok (Option.some.inj h)

/-- A pipe into a group that reads, appends to a file and reads it again. -/
def pipedScript : String := "echo a | (cat; echo b >> f; cat < f)"

theorem exec_pipedScript : ∃ f, Forest.parse (Source.ofText pipedScript) = .ok f ∧
    ({} : Shell).exec pipedScript "unread" =
      ((run {} f.statements "unread").1, some (run {} f.statements "unread").2) ∧
    (run {} f.statements "unread").2 = { stdout := "a\nb\n" } := by
  obtain ⟨f, hf⟩ : ∃ f, (Forest.parse (Source.ofText pipedScript)).toOption = some f :=
    Option.isSome_iff_exists.1 (by decide +kernel)
  have hresult : ((Forest.parse (Source.ofText pipedScript)).toOption.map fun f =>
      (run {} f.statements "unread").2) = some { stdout := "a\nb\n" } := by decide +kernel
  rw [hf] at hresult
  exact ⟨f, parse_of_toOption hf, ((exec_eq_sequential {} pipedScript "unread" f
    (parse_of_toOption hf)).2 (by decide +kernel)).1, Option.some.inj hresult⟩

/-- The one statement of a script that holds nothing but a carriage return: a command of that name. -/
def carriageReturn : Forest where
  nodes := #[⟨none, .seq .script [1]⟩, ⟨some 0, .seq (.command false) [2]⟩,
    ⟨some 1, .leaf (.ident "\r")⟩]

/-- A carriage return is a blank to the shell and a word to its scripts: the shell does not look for
the command that the script names. -/
theorem exec_carriageReturn_ne_sequential :
    ¬ ∀ (sh : Shell) (script input : String) (f : Forest),
      Forest.parse (Source.ofText script) = .ok f →
        sh.exec script input =
          ((run sh f.statements input).1, some (run sh f.statements input).2) := by
  intro h
  have hparse : Forest.parse (Source.ofText "\r") = .ok carriageReturn :=
    parse_of_toOption (by decide +kernel)
  have hexec : (({} : Shell).exec "\r").2 = some {} := by decide +kernel
  have hrun : (run {} carriageReturn.statements "").2 =
      { stderr := "bashlet: \r: command not found\n", exitCode := 127 } := by decide +kernel
  have hsame := congrArg Prod.snd (h {} "\r" "" carriageReturn hparse)
  rw [hexec, hrun] at hsame
  exact absurd hsame (by decide)

end Sequential

end PocketShell
