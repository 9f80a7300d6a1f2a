import PocketShell.Proofs.Bindings
import PocketShell.Proofs.Streams
import PocketShell.Run.Job

/-!
# Files that a run has nothing to do with

* `Job.footprint` : the files that a poll has to do with. It opens them, looks at them, stores them,
  or writes to an open one;
* `Beside` : two scenes that differ in one file only, and perhaps in where output goes: to a stream
  in the one, to that file in the other;
* `Job.sameOutcome_poll` : a job that has nothing to do with the file comes to the same in both
  scenes, and what it writes to the stream in the one it writes to the file in the other.
-/

namespace PocketShell

/-! ## Footprints -/

/-- The file that is written to, if it is a file. -/
def Sink.files : Sink → List String
  | stream _ => []
  | file f => [f.name]

/-- The files, by normalised name, that a program has to do with until it ends or has to wait. -/
def Program.footprint {α : Type} : Program α → Wait → Scene → List String
  | done _, _, _ => []
  | write text k, _, sc =>
    let (next, ok) := sc.write text
    sc.stdout.files ++ footprint (k ok) .nothing next
  | complain text k, _, sc =>
    let (sc, ok) := sc.complain text
    footprint (k ok) .nothing sc
  | read want k, wait, sc =>
    let (stdin, c, out) := sc.stdin.poll want.serve sc.world.cancellation wait.ticket?
    let sc := { sc with stdin := stdin, world := { sc.world with cancellation := c } }
    match out with
    | .ready answer => footprint (k answer) .nothing sc
    | .waiting _ => []
  | relay render seen k, wait, sc =>
    let (stdin, c, out) := sc.stdin.poll Stream.takeChunk? sc.world.cancellation wait.ticket?
    let sc := { sc with stdin := stdin, world := { sc.world with cancellation := c } }
    match out with
    | .ready (.error cause) => footprint (k seen (.ended cause)) .nothing sc
    | .waiting _ => []
    | .ready (.ok chunk) =>
      ((render chunk).map fun _ => sc.stdout.files).getD [] ++
        let (sc, ok) := ((render chunk).map sc.write).getD (sc, true)
        if ok then
          let (stdin, more) := sc.stdin.await sc.fired
          match more with
          | .error cause =>
            footprint (k (seen ++ chunk) (.ended cause)) .nothing { sc with stdin := stdin }
          | .ok _ => []
        else footprint (k (seen ++ chunk) .refused) .nothing sc
  | file name k, _, sc =>
    FileName.normalize name :: footprint (k (sc.world.store.read? name)) .nothing sc
  | save name text k, _, sc =>
    FileName.normalize name ::
      footprint (k ()) .nothing { sc with world := sc.world.save name text }
  | pause k, wait, sc => if wait = .paused then footprint (k ()) .nothing sc else []
  | cancel k, _, sc => footprint (k ()) .nothing { sc with world := sc.world.cancel }

namespace Job

/-- The files, by normalised name, that a poll has to do with. -/
def footprint (host : Host) : Job → Scene → List String
  | exit _, _ => []
  | emit text k, sc => sc.stdout.files ++ footprint host k (sc.write text).1
  | lookup name k, sc => footprint host (k (host.env name)) (sc.record (.env name))
  | openFile name overwrite k, sc =>
    let (sc, file) := handOut host sc name overwrite
    FileName.normalize name :: footprint host (k file) sc
  | exec cancellable argv k, sc =>
    if cancellable && sc.fired then footprint host (k cancelledStatus) sc
    else
      let started := sc.record (.exec argv)
      (host.exec argv).footprint .nothing started ++
        match (host.exec argv).resume .nothing started with
        | (sc, .finished status) =>
          footprint host (k status) (sc.record (.exit (argv.headD "") status))
        | _ => []
  | command name state k, sc =>
    state.program.footprint state.wait sc ++
      match state.resume sc with
      | (sc, .finished status) => footprint host (k status) (sc.record (.exit name status))
      | _ => []
  | within frame inner k, outer =>
    let (sc, progress) := poll host inner (frame.enter outer)
    let (left, sc) := frame.leave outer sc
    footprint host inner (frame.enter outer) ++
      match progress with
      | .finished status => footprint host (k left status) sc
      | _ => []
  | pipe .left buffer left right k, outer =>
    let (sc, progress) := poll host left (sideScene outer buffer .left)
    let (filled, sc) := leaveSide outer sc .left
    footprint host left (sideScene outer buffer .left) ++
      match progress with
      | .finished status =>
        let (inner, progress) := poll host right (sideScene sc filled.shut .right)
        footprint host right (sideScene sc filled.shut .right) ++
          match progress with
          | .finished _ => footprint host (k status) (leaveSide sc inner .right).2
          | _ => []
      | .waiting _ => footprint host right (sideScene sc filled .right)
      | .interrupted _ => []
  | pipe .right buffer _ right _, sc => footprint host right (sideScene sc buffer .right)
  | settle side status buffer rest k, outer =>
    let (inner, progress) := poll host rest (sideScene outer buffer side)
    footprint host rest (sideScene outer buffer side) ++
      match progress with
      | .finished _ => footprint host (k status) (leaveSide outer inner side).2
      | _ => []

end Job

/-! ## Scenes beside each other -/

section beside

variable {α β : Type} {key content : String} {away : Bool} {sc sc' : Scene}

/-- Where output goes: to the same sink, or, where the second scene is `away`, to an open stream and
to an open handle on the file `key`, which hold the same text. -/
def SinkBeside (key content : String) : Bool → Sink → Sink → Prop
  | false, sink, sink' => sink' = sink
  | true, .stream t, .file f =>
    t.closed = false ∧ t.text = content.toList ∧
      f.stored = true ∧ f.stream.closed = false ∧ f.name = key ∧ f.content = content
  | true, _, _ => False

/-- The second scene has the file `key` with this content, and apart from that and from where output
goes it is the first. -/
structure Beside (key : String) (away : Bool) (content : String) (sc sc' : Scene) : Prop where
  stdin : sc'.stdin = sc.stdin
  stdout : SinkBeside key content away sc.stdout sc'.stdout
  stderr : sc'.stderr = sc.stderr
  world : sc'.world = { sc.world with store := ⟨sc.world.store.files.insert key content⟩ }

/-- The same answer, in scenes beside each other. Where output does not go to the file, its content
is what it was. -/
def SameOutcome (key : String) (away : Bool) (content : String) (r r' : Scene × α) : Prop :=
  r'.2 = r.2 ∧ ∃ content', Beside key away content' r.1 r'.1 ∧ (away = false → content' = content)

theorem SameOutcome.of_beside (h : Beside key away content sc sc') (a : α) :
    SameOutcome key away content (sc, a) (sc', a) :=
  ⟨rfl, content, h, fun _ => rfl⟩

theorem SameOutcome.cases {r r' : Scene × α} (h : SameOutcome key away content r r') :
    ∃ next next' a content', r = (next, a) ∧ r' = (next', a) ∧
      Beside key away content' next next' ∧ (away = false → content' = content) := by
  obtain ⟨hanswer, content', hbeside, hkept⟩ := h
  exact ⟨r.1, r'.1, r.2, content', rfl, Prod.ext rfl hanswer, hbeside, hkept⟩

/-- The content that counts is the one before. -/
theorem SameOutcome.after {content' : String} {r r' : Scene × α}
    (hkept : away = false → content' = content) (h : SameOutcome key away content' r r') :
    SameOutcome key away content r r' := by
  obtain ⟨hanswer, last, hbeside, hlast⟩ := h
  exact ⟨hanswer, last, hbeside, fun haway => (hlast haway).trans (hkept haway)⟩

namespace Beside

theorem cancellation (h : Beside key away content sc sc') :
    sc'.world.cancellation = sc.world.cancellation := by
  rw [h.world]

theorem fired (h : Beside key away content sc sc') : sc'.fired = sc.fired := by
  rw [Scene.fired, h.cancellation, Scene.fired]

theorem read? (h : Beside key away content sc sc') {name : String}
    (hname : FileName.normalize name ≠ key) :
    sc'.world.store.read? name = sc.world.store.read? name := by
  rw [h.world]
  exact Bindings.get?_insert_of_ne _ hname content

theorem record (h : Beside key away content sc sc') (call : Call) :
    Beside key away content (sc.record call) (sc'.record call) :=
  ⟨h.stdin, h.stdout, h.stderr, by simp only [Scene.record, World.record, h.world]⟩

theorem setStdin (h : Beside key away content sc sc') (stdin : Stream) :
    Beside key away content { sc with stdin := stdin } { sc' with stdin := stdin } :=
  ⟨rfl, h.stdout, h.stderr, h.world⟩

theorem setCancellation (h : Beside key away content sc sc') (c : Cancellation) :
    Beside key away content { sc with world := { sc.world with cancellation := c } }
      { sc' with world := { sc'.world with cancellation := c } } :=
  ⟨h.stdin, h.stdout, h.stderr, by simp only [h.world]⟩

theorem cancel (h : Beside key away content sc sc') :
    Beside key away content { sc with world := sc.world.cancel }
      { sc' with world := sc'.world.cancel } :=
  ⟨h.stdin, h.stdout, h.stderr, by simp only [World.cancel, h.world]⟩

/-- A file of another name. -/
theorem saveFile (h : Beside key away content sc sc') {name : String}
    (hname : FileName.normalize name ≠ key) (text : String) :
    Beside key away content { sc with world := sc.world.save name text }
      { sc' with world := sc'.world.save name text } := by
  refine ⟨h.stdin, h.stdout, h.stderr, ?_⟩
  simp only [World.save, h.world, Store.write, Bindings.insert_comm _ hname]

/-- Output of its own. -/
theorem setStdout (h : Beside key away content sc sc') (sink : Sink) :
    Beside key false content { sc with stdout := sink } { sc' with stdout := sink } :=
  ⟨h.stdin, rfl, h.stderr, h.world⟩

theorem complain (h : Beside key away content sc sc') (text : String) :
    SameOutcome key away content (sc.complain text) (sc'.complain text) := by
  simp only [Scene.complain, h.stderr]
  cases sc.stderr.write text with
  | error cause => exact .of_beside h false
  | ok t =>
    refine .of_beside ?_ true
    exact ⟨h.stdin, h.stdout, rfl, h.world⟩

theorem save (f : OpenFile) (hname : f.name ≠ key) (content : String) (st : Store) :
    f.save ⟨st.files.insert key content⟩ = ⟨(f.save st).files.insert key content⟩ := by
  unfold OpenFile.save
  split
  · rw [Bindings.insert_comm _ hname]
  · rfl

/-- Output to a sink that has nothing to do with the file. -/
theorem write_same (h : Beside key false content sc sc') (hkey : key ∉ sc.stdout.files)
    (text : String) : SameOutcome key false content (sc.write text) (sc'.write text) := by
  have hsink : sc'.stdout = sc.stdout := h.stdout
  cases hstdout : sc.stdout with
  | stream t =>
    cases hwrite : t.write text with
    | error cause =>
      simpa [Scene.write, Sink.write, hsink, hstdout, hwrite, Except.map] using .of_beside h false
    | ok t' =>
      simp only [Scene.write, Sink.write, hsink, hstdout, hwrite, Except.map]
      refine .of_beside ?_ true
      exact ⟨h.stdin, rfl, h.stderr, h.world⟩
  | file f =>
    have hname : f.name ≠ key := by
      rintro rfl
      simp [hstdout, Sink.files] at hkey
    cases hwrite : f.stream.write text with
    | error cause =>
      simp only [Scene.write, Sink.write, hsink, hstdout, OpenFile.write, hwrite, Except.map]
      exact .of_beside h false
    | ok t =>
      simp only [Scene.write, Sink.write, hsink, hstdout, OpenFile.write, hwrite, Except.map,
        h.world, save { f with stream := t, content := f.content ++ text } hname]
      refine .of_beside ?_ true
      exact ⟨h.stdin, rfl, h.stderr, rfl⟩

/-- Output to the stream in the one scene and to the file in the other. -/
theorem write_away (h : Beside key true content sc sc') (text : String) :
    SameOutcome key true content (sc.write text) (sc'.write text) := by
  have hsinks := h.stdout
  cases hstdout : sc.stdout with
  | file f => simp [hstdout, SinkBeside] at hsinks
  | stream t =>
    cases hstdout' : sc'.stdout with
    | stream t' => simp [hstdout, hstdout', SinkBeside] at hsinks
    | file f =>
      rw [hstdout, hstdout'] at hsinks
      obtain ⟨hopen, htext, hstored, hopened, hname, hcontent⟩ := hsinks
      obtain ⟨t', hwrite, hopen', htext'⟩ := Stream.write_of_open hopen text
      obtain ⟨u, hwrite', hopened', -⟩ := Stream.write_of_open hopened text
      simp only [Scene.write, Sink.write, OpenFile.write, OpenFile.save, hstdout, hstdout', hwrite,
        hwrite', hstored, Except.map, if_true, h.world, hname, hcontent, Bindings.insert_insert]
      refine ⟨rfl, content ++ text, ⟨h.stdin, ?_, h.stderr, rfl⟩, nofun⟩
      exact ⟨hopen', by rw [htext', htext, String.toList_append], rfl, hopened', rfl, rfl⟩

theorem write (h : Beside key away content sc sc') (hkey : key ∉ sc.stdout.files) (text : String) :
    SameOutcome key away content (sc.write text) (sc'.write text) := by
  cases away with
  | false => exact h.write_same hkey text
  | true => exact h.write_away text

/-- Output of a text, if there is one. -/
theorem writeSome (h : Beside key away content sc sc') (text : Option String)
    (hkey : key ∉ (text.map fun _ => sc.stdout.files).getD []) :
    SameOutcome key away content ((text.map sc.write).getD (sc, true))
      ((text.map sc'.write).getD (sc', true)) := by
  cases text with
  | none => exact .of_beside h true
  | some text => exact h.write hkey text

end Beside

end beside

/-! ## Programs -/

variable {α : Type} {key content : String} {away : Bool} {sc sc' : Scene}

theorem Program.sameOutcome_resume (p : Program α) (wait : Wait)
    (h : Beside key away content sc sc') (hkey : key ∉ p.footprint wait sc) :
    SameOutcome key away content (p.resume wait sc) (p.resume wait sc') := by
  induction p generalizing wait sc sc' content with
  | done result => exact .of_beside h _
  | write text k ih =>
    rw [footprint, List.mem_append, not_or] at hkey
    obtain ⟨next, next', ok, content', hw, hw', hnext, hkept⟩ := (h.write hkey.1 text).cases
    rw [hw] at hkey
    simp only [resume, hw, hw']
    exact .after hkept (ih ok _ hnext hkey.2)
  | complain text k ih =>
    obtain ⟨next, next', ok, content', hw, hw', hnext, hkept⟩ := (h.complain text).cases
    rw [footprint, hw] at hkey
    simp only [resume, hw, hw']
    exact .after hkept (ih ok _ hnext hkey)
  | read want k ih =>
    rw [footprint] at hkey
    rw [resume, resume, h.stdin, h.cancellation]
    generalize sc.stdin.poll want.serve sc.world.cancellation wait.ticket? = r at hkey ⊢
    obtain ⟨stdin, c, out⟩ := r
    have hnext := (h.setCancellation c).setStdin stdin
    cases out with
    | ready answer => exact ih _ _ hnext hkey
    | waiting number => exact .of_beside hnext _
  | relay render seen k ih =>
    rw [footprint] at hkey
    rw [resume, resume, h.stdin, h.cancellation]
    generalize sc.stdin.poll Stream.takeChunk? sc.world.cancellation wait.ticket? = r at hkey ⊢
    obtain ⟨stdin, c, out⟩ := r
    have hnext := (h.setCancellation c).setStdin stdin
    cases out with
    | waiting number => exact .of_beside hnext _
    | ready answer =>
      cases answer with
      | error cause => exact ih _ _ _ hnext hkey
      | ok chunk =>
        rw [List.mem_append, not_or] at hkey
        obtain ⟨after, after', ok, content', hw, hw', hafter, hkept⟩ :=
          (hnext.writeSome (render chunk) hkey.1).cases
        have hrest := hkey.2
        rw [hw] at hrest
        simp only [hw, hw']
        refine .after hkept ?_
        cases ok with
        | false => exact ih _ _ _ hafter hrest
        | true =>
          simp only [if_true, hafter.stdin, hafter.fired] at hrest ⊢
          generalize after.stdin.await after.fired = awaited at hrest ⊢
          obtain ⟨stdin, more⟩ := awaited
          have hawaited := hafter.setStdin stdin
          cases more with
          | error cause => exact ih _ _ _ hawaited hrest
          | ok number => exact .of_beside hawaited _
  | file name k ih =>
    rw [footprint, List.mem_cons, not_or] at hkey
    rw [resume, resume, h.read? (Ne.symm hkey.1)]
    exact ih _ _ h hkey.2
  | save name text k ih =>
    rw [footprint, List.mem_cons, not_or] at hkey
    exact ih () .nothing (h.saveFile (Ne.symm hkey.1) text) hkey.2
  | pause k ih =>
    rw [footprint] at hkey
    rw [resume, resume]
    split
    · rename_i hwait
      rw [if_pos hwait] at hkey
      exact ih _ _ h hkey
    · exact .of_beside h _
  | cancel k ih => exact ih () .nothing h.cancel hkey

/-! ## Jobs -/

/-- The frame that the side of a pipe runs in. -/
def Side.frame (buffer : Stream) : Side → Frame
  | left => .output (.stream buffer)
  | right => .input buffer

/-- Whether output goes to the file inside a frame. -/
def Frame.isAway (away : Bool) : Frame → Bool
  | output _ => false
  | input _ => away

theorem Beside.enter (h : Beside key away content sc sc') (f : Frame) :
    Beside key (f.isAway away) content (f.enter sc) (f.enter sc') := by
  cases f with
  | output sink => exact h.setStdout sink
  | input source => exact h.setStdin source

/-- A frame hides what is inside it: where output goes around it does not change. -/
theorem Beside.leave (h : Beside key away content sc sc') (f : Frame) {r r' : Scene × α}
    (hr : SameOutcome key (f.isAway away) content r r') :
    ∃ inside inside' a left next next' content', r = (inside, a) ∧ r' = (inside', a) ∧
      f.leave sc inside = (left, next) ∧ f.leave sc' inside' = (left, next') ∧
      Beside key away content' next next' ∧ (away = false → content' = content) := by
  obtain ⟨inside, inside', a, content', rfl, rfl, hin, hkept⟩ := hr.cases
  cases f with
  | output sink =>
    have hsink : inside'.stdout = inside.stdout := hin.stdout
    refine ⟨inside, inside', a, .output inside.stdout, { inside with stdout := sc.stdout },
      { inside' with stdout := sc'.stdout }, content, rfl, rfl, rfl, ?_, ?_, fun _ => rfl⟩
    · rw [Frame.leave, hsink]
    · obtain rfl := hkept rfl
      exact ⟨hin.stdin, h.stdout, hin.stderr, hin.world⟩
  | input source =>
    refine ⟨inside, inside', a, .input inside.stdin, { inside with stdin := sc.stdin },
      { inside' with stdin := sc'.stdin }, content', rfl, rfl, rfl, ?_, ?_, hkept⟩
    · rw [Frame.leave, hin.stdin]
    · exact ⟨h.stdin, hin.stdout, hin.stderr, hin.world⟩

theorem Beside.enterSide (h : Beside key away content sc sc') (buffer : Stream) (side : Side) :
    Beside key ((side.frame buffer).isAway away) content (Job.sideScene sc buffer side)
      (Job.sideScene sc' buffer side) := by
  have hinside := h.enter (side.frame buffer)
  cases side <;> exact hinside

theorem Beside.leaveSide (h : Beside key away content sc sc') (buffer : Stream) (side : Side)
    {r r' : Scene × α} (hr : SameOutcome key ((side.frame buffer).isAway away) content r r') :
    ∃ inside inside' a filled next next' content', r = (inside, a) ∧ r' = (inside', a) ∧
      Job.leaveSide sc inside side = (filled, next) ∧
      Job.leaveSide sc' inside' side = (filled, next') ∧
      Beside key away content' next next' ∧ (away = false → content' = content) := by
  have hleave (outer inner : Scene) : Job.leaveSide outer inner side =
      (((side.frame buffer).leave outer inner).1.stream,
        ((side.frame buffer).leave outer inner).2) := by
    cases side <;> rfl
  obtain ⟨inside, inside', a, left, next, next', content', hr, hr', hl, hl', hnext, hkept⟩ :=
    h.leave (side.frame buffer) hr
  exact ⟨inside, inside', a, left.stream, next, next', content', hr, hr', by rw [hleave, hl],
    by rw [hleave, hl'], hnext, hkept⟩

/-- The file that is handed out for another name. -/
theorem Beside.handOut (h : Beside key away content sc sc') (host : Host) {name : String}
    (hname : FileName.normalize name ≠ key) (overwrite : Bool) :
    SameOutcome key away content (Job.handOut host sc name overwrite)
      (Job.handOut host sc' name overwrite) := by
  have hrecord := h.record (.getFile name)
  have hopen : (sc'.record (.getFile name)).world.store.openFile name =
      (sc.record (.getFile name)).world.store.openFile name := by
    have hread := h.read? hname
    simp only [Store.read?] at hread
    simp only [Scene.record, World.record, Store.openFile, hread]
  generalize hfile : (sc.record (.getFile name)).world.store.openFile name = file at hopen
  have hkey : file.name ≠ key := by
    rw [← hfile]
    exact hname
  have hsealed : (if host.sealed name then file.shut else file).name ≠ key := by
    split <;> exact hkey
  simp only [Job.handOut, hopen, hfile]
  generalize (if host.sealed name then file.shut else file) = file at hsealed
  cases overwrite with
  | false => exact .of_beside hrecord file
  | true =>
    cases hclosed : file.stream.closed with
    | true =>
      simp only [OpenFile.clear, hclosed, if_true]
      exact .of_beside hrecord file
    | false =>
      simp only [OpenFile.clear, hclosed, Bool.false_eq_true, if_false, if_true, hrecord.world,
        Beside.save { file with content := "" } hsealed]
      refine .of_beside ?_ _
      exact ⟨hrecord.stdin, hrecord.stdout, hrecord.stderr, rfl⟩

namespace Job

variable (host : Host)

theorem sameOutcome_afterRight (h : Beside key away content sc sc') (buffer : Stream) (left : Job)
    (k : Int → Job) {r r' : Scene × Progress Job Int}
    (hr : SameOutcome key ((Side.right.frame buffer).isAway away) content r r') :
    SameOutcome key away content (afterRight sc left k r) (afterRight sc' left k r') := by
  obtain ⟨inside, inside', progress, filled, next, next', content', rfl, rfl, hl, hl', hnext,
    hkept⟩ :=
    h.leaveSide buffer .right hr
  simp only [afterRight, hl, hl']
  refine .after hkept ?_
  cases progress <;> exact .of_beside hnext _

/-- **A job in scenes beside each other.** If it has nothing to do with the file in which they
differ, it comes to the same in both. -/
theorem sameOutcome_poll (job : Job) (h : Beside key away content sc sc')
    (hkey : key ∉ job.footprint host sc) :
    SameOutcome key away content (job.poll host sc) (job.poll host sc') := by
  induction job generalizing sc sc' away content with
  | exit status => exact .of_beside h _
  | emit text k ih =>
    rw [footprint, List.mem_append, not_or] at hkey
    obtain ⟨next, next', ok, content', hw, hw', hnext, hkept⟩ := (h.write hkey.1 text).cases
    rw [hw] at hkey
    simp only [poll, hw, hw']
    exact .after hkept (ih hnext hkey.2)
  | lookup name k ih => exact ih _ (h.record _) hkey
  | openFile name overwrite k ih =>
    rw [footprint, List.mem_cons, not_or] at hkey
    obtain ⟨next, next', file, content', ho, ho', hnext, hkept⟩ :=
      (h.handOut host (Ne.symm hkey.1) overwrite).cases
    rw [ho] at hkey
    simp only [poll, ho, ho']
    exact .after hkept (ih file hnext hkey.2)
  | exec cancellable argv k ih =>
    rw [footprint] at hkey
    rw [poll, poll, h.fired]
    split
    · rename_i hcancelled
      rw [if_pos hcancelled] at hkey
      exact ih _ h hkey
    · rename_i hcancelled
      rw [if_neg hcancelled, List.mem_append, not_or] at hkey
      obtain ⟨next, next', progress, content', hr, hr', hnext, hkept⟩ :=
        ((host.exec argv).sameOutcome_resume .nothing (h.record _) hkey.1).cases
      rw [hr] at hkey
      simp only [hr, hr']
      refine .after hkept ?_
      cases progress with
      | finished status => exact ih _ (hnext.record _) hkey.2
      | waiting state => exact .of_beside hnext _
      | interrupted state => exact .of_beside hnext _
  | command name state k ih =>
    rw [footprint, List.mem_append, not_or] at hkey
    obtain ⟨next, next', progress, content', hr, hr', hnext, hkept⟩ :=
      (state.program.sameOutcome_resume state.wait h hkey.1).cases
    rw [Suspended.resume, hr] at hkey
    simp only [poll, Suspended.resume, hr, hr']
    refine .after hkept ?_
    cases progress with
    | finished status => exact ih _ (hnext.record _) hkey.2
    | waiting state => exact .of_beside hnext _
    | interrupted state => exact .of_beside hnext _
  | within frame inner k ihi ihk =>
    rw [footprint, List.mem_append, not_or] at hkey
    obtain ⟨inside, inside', progress, left, next, next', content', hr, hr', hl, hl', hnext,
      hkept⟩ :=
      h.leave frame (ihi (h.enter frame) hkey.1)
    have hrest := hkey.2
    simp only [hr, hl] at hrest
    simp only [poll, hr, hr', hl, hl']
    refine .after hkept ?_
    cases progress with
    | finished status => exact ihk _ _ hnext hrest
    | waiting inner => exact .of_beside hnext _
    | interrupted inner => exact .of_beside hnext _
  | pipe turn buffer left right k ihl ihr ihk =>
    cases turn with
    | left =>
      rw [footprint, List.mem_append, not_or] at hkey
      obtain ⟨inside, inside', progress, filled, next, next', content', hr, hr', hl, hl', hnext,
        hkept⟩ := h.leaveSide buffer .left (ihl (h.enterSide buffer .left) hkey.1)
      have hrest := hkey.2
      simp only [hr, hl] at hrest
      simp only [poll, hr, hr', hl, hl']
      refine .after hkept ?_
      cases progress with
      | finished status =>
        rw [List.mem_append, not_or] at hrest
        obtain ⟨inside₂, inside₂', progress₂, filled₂, next₂, next₂', content₂, hr₂, hr₂', hl₂,
          hl₂', hnext₂, hkept₂⟩ := hnext.leaveSide filled.shut .right
            (ihr (hnext.enterSide filled.shut .right) hrest.1)
        have hlast := hrest.2
        simp only [hr₂, hl₂] at hlast
        simp only [hr₂, hr₂', hl₂, hl₂']
        refine .after hkept₂ ?_
        cases progress₂ with
        | finished _ => exact ihk _ hnext₂ hlast
        | waiting right => exact .of_beside hnext₂ _
        | interrupted right => exact .of_beside hnext₂ _
      | waiting left =>
        exact sameOutcome_afterRight hnext filled left k
          (ihr (hnext.enterSide filled .right) hrest)
      | interrupted left => exact .of_beside hnext _
    | right =>
      exact sameOutcome_afterRight h buffer left k (ihr (h.enterSide buffer .right) hkey)
  | settle side status buffer rest k ihr ihk =>
    rw [footprint, List.mem_append, not_or] at hkey
    obtain ⟨inside, inside', progress, filled, next, next', content', hr, hr', hl, hl', hnext,
      hkept⟩ :=
      h.leaveSide buffer side (ihr (h.enterSide buffer side) hkey.1)
    have hrest := hkey.2
    simp only [hr, hl] at hrest
    simp only [poll, hr, hr', hl, hl']
    refine .after hkept ?_
    cases progress with
    | finished _ => exact ihk _ hnext hrest
    | waiting rest => exact .of_beside hnext _
    | interrupted rest => exact .of_beside hnext _

end Job

end PocketShell
