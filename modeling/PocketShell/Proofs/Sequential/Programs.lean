import PocketShell.Proofs.Sequential.Evaluator
import PocketShell.Proofs.Streams

/-!
# Commands whose input is closed

A read from a closed stream is answered at once. So a command that never pauses, and whose input is
closed and whose outputs are open, is done after one `Program.resume`, and has done what
`Sequential.perform` says.

* `Program.reads` : the streams that a program reads from, each as it was before the read;
* `Program.Calm` : a program that never pauses and does not cancel the run either. All built-in
  commands are like that (`Command.calm_run`);
* `Shell.steady_exec` : nothing that a shell runs pauses;
* `Sequential.Shows` : how a scene stands for a state;
* `Sequential.resume_of_shows` : the main statement.
-/

namespace PocketShell

/-! ## Reads -/

namespace Program

variable {α β : Type}

/-- The streams that a program reads from until it ends or has to wait, each as it was before the
read. -/
def reads : Program α → Wait → Scene → List Stream
  | done _, _, _ => []
  | write text k, _, sc =>
    let (sc, ok) := sc.write text
    reads (k ok) .nothing sc
  | complain text k, _, sc =>
    let (sc, ok) := sc.complain text
    reads (k ok) .nothing sc
  | read want k, wait, sc =>
    let (stdin, c, out) := sc.stdin.poll want.serve sc.world.cancellation wait.ticket?
    let next := { sc with stdin := stdin, world := { sc.world with cancellation := c } }
    sc.stdin ::
      match out with
      | .ready answer => reads (k answer) .nothing next
      | .waiting _ => []
  | relay render seen k, wait, sc =>
    let (stdin, c, out) := sc.stdin.poll Stream.takeChunk? sc.world.cancellation wait.ticket?
    let next := { sc with stdin := stdin, world := { sc.world with cancellation := c } }
    sc.stdin ::
      match out with
      | .ready (.error cause) => reads (k seen (.ended cause)) .nothing next
      | .waiting _ => []
      | .ready (.ok chunk) =>
        let seen := seen ++ chunk
        let (next, ok) := ((render chunk).map next.write).getD (next, true)
        if ok then
          -- the relay goes on reading, and finds that nothing is left
          let (stdin, more) := next.stdin.await next.fired
          next.stdin ::
            match more with
            | .error cause => reads (k seen (.ended cause)) .nothing { next with stdin := stdin }
            | .ok _ => []
        else reads (k seen .refused) .nothing next
  | file name k, _, sc => reads (k (sc.world.store.read? name)) .nothing sc
  | save name text k, _, sc => reads (k ()) .nothing { sc with world := sc.world.save name text }
  | pause k, wait, sc => if wait = .paused then reads (k ()) .nothing sc else []
  | cancel k, _, sc => reads (k ()) .nothing { sc with world := sc.world.cancel }

/-! ## Programs that never pause -/

/-- A program that neither pauses nor cancels the run. -/
def Calm : Program α → Prop
  | done _ => True
  | write _ k => ∀ ok, (k ok).Calm
  | complain _ k => ∀ ok, (k ok).Calm
  | read _ k => ∀ answer, (k answer).Calm
  | relay _ _ k => ∀ text stop, (k text stop).Calm
  | file _ k => ∀ content, (k content).Calm
  | save _ _ k => (k ()).Calm
  | pause _ => False
  | cancel _ => False

theorem Calm.steady {p : Program α} (h : p.Calm) : p.Steady := by
  induction p with
  | done a => trivial
  | write text k ih => exact fun ok => ih ok (h ok)
  | complain text k ih => exact fun ok => ih ok (h ok)
  | read want k ih => exact fun answer => ih answer (h answer)
  | relay render seen k ih => exact fun text stop => ih text stop (h text stop)
  | file name k ih => exact fun content => ih content (h content)
  | save name text k ih => exact ih () h
  | pause k => exact h.elim
  | cancel k => exact h.elim

theorem Steady.bind {p : Program α} {f : α → Program β} (hp : p.Steady) (hf : ∀ a, (f a).Steady) :
    (p.bind f).Steady := by
  induction p with
  | done a => exact hf a
  | write text k ih => exact fun ok => ih ok (hp ok)
  | complain text k ih => exact fun ok => ih ok (hp ok)
  | read want k ih => exact fun answer => ih answer (hp answer)
  | relay render seen k ih => exact fun text stop => ih text stop (hp text stop)
  | file name k ih => exact fun content => ih content (hp content)
  | save name text k ih => exact ih () hp
  | pause k => exact hp.elim
  | cancel k ih => exact ih () hp

theorem Calm.bind {p : Program α} {f : α → Program β} (hp : p.Calm) (hf : ∀ a, (f a).Calm) :
    (p.bind f).Calm := by
  induction p with
  | done a => exact hf a
  | write text k ih => exact fun ok => ih ok (hp ok)
  | complain text k ih => exact fun ok => ih ok (hp ok)
  | read want k ih => exact fun answer => ih answer (hp answer)
  | relay render seen k ih => exact fun text stop => ih text stop (hp text stop)
  | file name k ih => exact fun content => ih content (hp content)
  | save name text k ih => exact ih () hp
  | pause k => exact hp.elim
  | cancel k => exact hp.elim

theorem calm_pure (a : α) : (pure a : Program α).Calm := trivial

theorem calm_say (text : String) : (say text).Calm := fun _ => trivial

theorem calm_sayError (text : String) : (sayError text).Calm := fun _ => trivial

theorem calm_readAll : readAll.Calm := by
  intro text stop
  cases stop with
  | refused => exact trivial
  | ended cause =>
    simp only
    split <;> exact trivial

end Program

/-! ## The commands of a shell -/

namespace Command

open Program

theorem calm_readInput (input : String) : (readInput input).Calm := by
  unfold readInput
  split
  · refine calm_readAll.bind fun answer => ?_
    cases answer <;> exact trivial
  · intro content
    cases content <;> exact trivial

namespace Cat

theorem calm_passOn : passOn.Calm := by
  intro text stop
  cases stop <;> exact trivial

theorem calm_plain (files : List String) (result : Result) : (plain files result).Calm := by
  induction files generalizing result with
  | nil => exact calm_pure result
  | cons file files ih =>
    unfold plain
    split
    · refine calm_passOn.bind fun answer => ?_
      cases answer with
      | ok _ => exact ih result
      | error cause => exact ih _
    · refine (calm_readInput file).bind fun answer => ?_
      cases answer with
      | ok text => exact (calm_say text).bind fun _ => ih result
      | error trouble => exact ih _

theorem calm_numbered (files : List String) (number : Nat) (result : Result) :
    (numbered files number result).Calm := by
  induction files generalizing number result with
  | nil => exact calm_pure result
  | cons file files ih =>
    unfold numbered
    refine (calm_readInput file).bind fun answer => ?_
    cases answer with
    | ok text => exact ih _ _
    | error trouble => exact ih _ _

theorem calm_run (args : List String) : (run args).Calm := by
  unfold run
  simp only
  split
  · exact calm_pure _
  · split
    · exact calm_numbered _ _ _
    · exact calm_plain _ _

end Cat

theorem Rev.calm_readFrom (done : String) (files : List String) :
    (Rev.readFrom done files).Calm := by
  induction files generalizing done with
  | nil => exact calm_pure _
  | cons file files ih =>
    unfold Rev.readFrom
    refine (calm_readInput file).bind fun answer => ?_
    cases answer with
    | ok text => exact ih _
    | error trouble => exact calm_pure _

theorem Rev.calm_run (args : List String) : (Rev.run args).Calm := by
  unfold Rev.run
  split
  · exact calm_pure _
  · refine (Rev.calm_readFrom _ _).bind fun answer => ?_
    cases answer <;> exact calm_pure _

theorem Tr.calm_onInput (change : List Char → List Char) : (Tr.onInput change).Calm := by
  refine calm_readAll.bind fun answer => ?_
  cases answer <;> exact calm_pure _

theorem Tr.calm_run (args : List String) : (Tr.run args).Calm := by
  unfold Tr.run
  simp only
  split
  · exact calm_pure _
  · split
    · exact calm_pure _
    · split
      · exact Tr.calm_onInput _
      · split
        · exact calm_pure _
        · exact Tr.calm_onInput _

theorem Wc.calm_countFrom (rows : List Wc.Row) (complaints : String) (files : List String) :
    (Wc.countFrom rows complaints files).Calm := by
  induction files generalizing rows complaints with
  | nil => exact calm_pure _
  | cons file files ih =>
    unfold Wc.countFrom
    refine (calm_readInput file).bind fun answer => ?_
    cases answer with
    | ok text => exact ih _ _
    | error trouble => exact ih _ _

theorem Wc.calm_run (args : List String) : (Wc.run args).Calm := by
  unfold Wc.run
  simp only
  split
  · exact calm_pure _
  · exact (Wc.calm_countFrom _ _ _).bind fun _ => calm_pure _

/-- No built-in command pauses or cancels the run. -/
theorem calm_run {c : Command} (hc : c.isCustom = Bool.false) (env : Bindings String)
    (args : List String) : (c.run env args).Calm := by
  cases c with
  | cat => exact Cat.calm_run args
  | rev => exact Rev.calm_run args
  | tr => exact Tr.calm_run args
  | wc => exact Wc.calm_run args
  | env =>
    show (Env.run env args).Calm
    unfold Env.run
    split <;> exact calm_pure _
  | printf => cases args <;> exact calm_pure _
  | echo => exact calm_pure _
  | false => exact calm_pure _
  | true => exact calm_pure _
  | constant name result => exact calm_pure _
  | custom name program steady => cases hc

/-- No command pauses. -/
theorem steady_run (c : Command) (env : Bindings String) (args : List String) :
    (c.run env args).Steady := by
  cases c with
  | custom name program steady => exact steady env args
  | cat | echo | env | false | printf | rev | tr | true | wc | constant =>
    exact (calm_run rfl env args).steady

end Command

theorem Shell.calm_report (r : Command.Result) : (Shell.report r).Calm := by
  have hlast : (if !r.stderr.isEmpty then Program.sayError r.stderr >>= fun _ => pure r.exitCode
      else (pure r.exitCode : Program Int)).Calm := by
    split
    · exact (Program.calm_sayError _).bind fun _ => Program.calm_pure _
    · exact Program.calm_pure _
  by_cases h : r.stdout.isEmpty
  · simpa [Shell.report, h] using hlast
  · simp only [Shell.report, h]
    exact (Program.calm_say _).bind fun _ => hlast

/-- What a shell says to a name that it does not know. -/
theorem Shell.calm_commandNotFound (text : String) :
    (Program.sayError text >>= fun _ => pure Shell.commandNotFound : Program Int).Calm :=
  (Program.calm_sayError text).bind fun _ => Program.calm_pure _

/-- What a shell runs for a list of words does not pause. -/
theorem Shell.steady_exec (sh : Shell) (argv : List String) : (sh.host.exec argv).Steady := by
  change (sh.execute (argv.headD "") argv.tail).Steady
  unfold Shell.execute
  split
  · rename_i c _
    exact (c.steady_run sh.env argv.tail).bind fun r => (Shell.calm_report r).steady
  · exact (Shell.calm_commandNotFound _).steady

/-- If no command of a shell cancels the run, nothing that it runs does. -/
theorem Shell.calm_exec {sh : Shell}
    (h : ∀ name c, sh.registry.get? name = some c → ∀ args, (c.run sh.env args).Calm)
    (argv : List String) : (sh.host.exec argv).Calm := by
  change (sh.execute (argv.headD "") argv.tail).Calm
  unfold Shell.execute
  split
  · rename_i c hc
    exact (h _ c hc argv.tail).bind Shell.calm_report
  · exact Shell.calm_commandNotFound _

/-! ## Scenes and states -/

namespace Sequential

variable {α : Type} {dest : Option String} {sc : Scene} {s : State}

/-- How a sink stands for what has been written: an open stream that buffers it, or an open handle
on the file `dest` with that content. -/
def SinkShows : Option String → String → Sink → Prop
  | none, text, .stream t => t.closed = false ∧ t.text = text.toList
  | some name, text, .file f =>
    f.stored = true ∧ f.stream.closed = false ∧ f.name = name ∧ f.content = text
  | _, _, _ => False

/-- A scene stands for a state: its input is closed, its outputs are open. -/
structure Shows (dest : Option String) (sc : Scene) (s : State) : Prop where
  closed : sc.stdin.closed = true
  input : sc.stdin.text = s.input.toList
  output : SinkShows dest s.output sc.stdout
  errors : sc.stderr.closed = false ∧ sc.stderr.text = s.errors.toList
  store : sc.world.store = s.store
  cancellation : sc.world.cancellation = s.cancellation

theorem Shows.write (h : Shows dest sc s) (text : String) :
    ∃ sc', sc.write text = (sc', true) ∧ Shows dest sc' (s.write dest text) := by
  have hout := h.output
  cases dest with
  | none =>
    cases hsink : sc.stdout with
    | file f => simp [hsink, SinkShows] at hout
    | stream t =>
      rw [hsink] at hout
      obtain ⟨t', hw, hopen, htext⟩ := Stream.write_of_open hout.1 text
      refine ⟨{ sc with stdout := .stream t' }, ?_, ?_⟩
      · simp [Scene.write, hsink, Sink.write, hw, Except.map]
      · exact ⟨h.closed, h.input, ⟨hopen, by simp [State.write, htext, hout.2]⟩, h.errors, h.store,
          h.cancellation⟩
  | some name =>
    cases hsink : sc.stdout with
    | stream t => simp [hsink, SinkShows] at hout
    | file f =>
      rw [hsink] at hout
      obtain ⟨hstored, hopened, hname, hcontent⟩ := hout
      obtain ⟨t', hw, hopen, -⟩ := Stream.write_of_open hopened text
      let f' := { f with stream := t', content := f.content ++ text }
      refine ⟨{ sc with stdout := .file f', world := { sc.world with store := f'.save sc.world.store } },
        by simp [Scene.write, hsink, Sink.write, OpenFile.write, hw, Except.map, f'], ?_⟩
      refine ⟨h.closed, h.input, ⟨hstored, hopen, hname, ?_⟩, h.errors, ?_, h.cancellation⟩
      · simp [State.write, f', hcontent]
      · simp [State.write, OpenFile.save, f', hstored, hname, hcontent, h.store]

theorem Shows.writeSome (h : Shows dest sc s) (text : Option String) :
    ∃ sc', (text.map sc.write).getD (sc, true) = (sc', true) ∧
      Shows dest sc' (s.writeSome dest text) := by
  cases text with
  | none => exact ⟨sc, rfl, h⟩
  | some text => exact h.write text

theorem Shows.complain (h : Shows dest sc s) (text : String) :
    ∃ sc', sc.complain text = (sc', true) ∧ Shows dest sc' (s.complain text) := by
  obtain ⟨t, hw, hopen, htext⟩ := Stream.write_of_open h.errors.1 text
  refine ⟨{ sc with stderr := t }, by simp [Scene.complain, hw], ?_⟩
  exact ⟨h.closed, h.input, h.output, ⟨hopen, by simp [State.complain, htext, h.errors.2]⟩, h.store,
    h.cancellation⟩

theorem Shows.setInput (h : Shows dest sc s) {t : Stream} {text : String} (hclosed : t.closed = true)
    (htext : t.text = text.toList) : Shows dest { sc with stdin := t } { s with input := text } :=
  ⟨hclosed, htext, h.output, h.errors, h.store, h.cancellation⟩

/-- One read of a command. -/
theorem Shows.read (h : Shows dest sc s) (want : Want) :
    ∃ stdin, sc.stdin.poll want.serve sc.world.cancellation none =
        (stdin, sc.world.cancellation, .ready (s.read want).2) ∧
      Shows dest { sc with stdin := stdin } (s.read want).1 := by
  rw [Stream.poll_of_closed _ h.closed]
  cases htext : s.input.toList with
  | nil =>
    have hnil : sc.stdin.text = [] := h.input.trans htext
    have hserve : want.serve sc.stdin = none := by
      cases want <;>
        simp [Want.serve, Stream.takeChunk?, Stream.takeChar?, Stream.peekChar?, Stream.isEmpty_iff,
          Stream.front?_eq_head?, hnil]
    have hread : s.read want = (s, .error .endOfStream) := by
      cases want <;> simp [State.read, htext]
    refine ⟨sc.stdin, ?_, ?_⟩
    · simp [hserve, hread]
    · rw [hread]
      exact h
  | cons c cs =>
    have hcons : sc.stdin.text = c :: cs := h.input.trans htext
    cases want with
    | chunk =>
      have hne : sc.stdin.isEmpty = false := by
        simp [← Bool.not_eq_true, Stream.isEmpty_iff, hcons]
      have htaken : String.ofList sc.stdin.text = s.input := by rw [h.input, String.ofList_toList]
      refine ⟨sc.stdin.drain.2, ?_, ?_⟩
      · simp [Want.serve, Stream.takeChunk?, hne, Stream.drain, State.read, htext, htaken]
      · simp only [State.read, htext]
        exact h.setInput h.closed rfl
    | char =>
      refine ⟨sc.stdin.advance.passOn, ?_, ?_⟩
      · simp [Want.serve, Stream.takeChar?, Stream.front?_eq_head?, hcons, State.read, htext]
      · simp only [State.read, htext]
        exact h.setInput (by simpa using h.closed) (by simp [hcons])
    | peek =>
      refine ⟨sc.stdin.passOn, ?_, ?_⟩
      · simp [Want.serve, Stream.peekChar?, Stream.front?_eq_head?, hcons, State.read, htext]
      · simp only [State.read, htext]
        exact h.setInput (by simpa using h.closed) (by simpa using h.input)

/-- A command that does not pause ends at once, has done what `perform` says, and has read from
closed streams only. -/
theorem resume_of_shows {p : Program α} (hp : p.Steady) (h : Shows dest sc s) :
    ∃ sc', p.resume .nothing sc = (sc', .finished (perform dest p s).2) ∧
      Shows dest sc' (perform dest p s).1 ∧ ∀ r ∈ p.reads .nothing sc, r.closed = true := by
  induction p generalizing sc s with
  | done a => exact ⟨sc, rfl, h, by simp [Program.reads]⟩
  | write text k ih =>
    obtain ⟨sc₁, hw, h₁⟩ := h.write text
    simp only [Program.resume, Program.reads, hw]
    exact ih true (hp true) h₁
  | complain text k ih =>
    obtain ⟨sc₁, hw, h₁⟩ := h.complain text
    simp only [Program.resume, Program.reads, hw]
    exact ih true (hp true) h₁
  | read want k ih =>
    obtain ⟨stdin, hr, h₁⟩ := h.read want
    obtain ⟨sc', hres, hshow, hreads⟩ := ih _ (hp _) h₁
    refine ⟨sc', ?_, hshow, ?_⟩
    · simp only [Program.resume, Wait.ticket?, hr]
      exact hres
    · simp only [Program.reads, Wait.ticket?, hr, List.mem_cons]
      rintro r (rfl | hr')
      · exact h.closed
      · exact hreads r hr'
  | relay render seen k ih =>
    obtain ⟨stdin, hr, h₁⟩ := h.read .chunk
    have hpoll : sc.stdin.poll Stream.takeChunk? sc.world.cancellation none =
        (stdin, sc.world.cancellation, .ready (s.read .chunk).2) := hr
    by_cases hempty : s.input.toList = []
    · have hread : s.read .chunk = (s, .error .endOfStream) := by simp [State.read, hempty]
      have hnone : s.input.isEmpty = true := by simpa using hempty
      rw [hread] at h₁ hpoll
      obtain ⟨sc', hres, hshow, hreads⟩ := ih seen (.ended .endOfStream) (hp _ _) h₁
      simp only [Program.resume, Program.reads, Wait.ticket?, hpoll, perform, hnone, if_true]
      refine ⟨sc', hres, hshow, ?_⟩
      rintro r (_ | ⟨_, hr'⟩)
      · exact h.closed
      · exact hreads r hr'
    · have hread : s.read .chunk = ({ s with input := "" }, .ok s.input) := by
        cases ht : s.input.toList with
        | nil => exact absurd ht hempty
        | cons => simp [State.read, ht]
      have hsome : s.input.isEmpty = false := by simpa using hempty
      rw [hread] at h₁ hpoll
      obtain ⟨sc₂, hw, h₂⟩ := h₁.writeSome (render s.input)
      obtain ⟨sc', hres, hshow, hreads⟩ := ih (seen ++ s.input) (.ended .endOfStream) (hp _ _) h₂
      have hawait := Stream.await_of_closed h₂.closed sc₂.fired
      simp only [Program.resume, Program.reads, Wait.ticket?, hpoll, hw, if_true, hawait, perform,
        hsome, Bool.false_eq_true, if_false]
      refine ⟨sc', hres, hshow, ?_⟩
      rintro r (_ | ⟨_, _ | ⟨_, hr'⟩⟩)
      · exact h.closed
      · exact h₂.closed
      · exact hreads r hr'
  | file name k ih =>
    simp only [Program.resume, Program.reads, perform, h.store]
    exact ih _ (hp _) h
  | save name text k ih =>
    refine ih () hp ⟨h.closed, h.input, h.output, h.errors, ?_, h.cancellation⟩
    simp only [World.save, h.store]
  | pause k => exact hp.elim
  | cancel k ih =>
    refine ih () hp ⟨h.closed, h.input, h.output, h.errors, h.store, ?_⟩
    simp [World.cancel, h.cancellation]

end Sequential

end PocketShell
