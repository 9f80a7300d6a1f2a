import PocketShell.Proofs.Streams.Polling
import PocketShell.Run.Job

/-!
# What a job does to its standard streams

* `Deed` : a write to standard output or a read from standard input, with its answer;
* `Program.deeds`, `Job.deeds` : what is done during one poll, in order. Inside a pipe or a
  redirection some of it is done to other streams, and that is left out;
* `Scene.Did` : the deeds account for all that becomes of the two streams: standard output has been
  written to as they say, and standard input holds what they have not taken;
* `Job.did_poll` : every poll accounts for itself in this way.
-/

namespace PocketShell

/-! ## Deeds -/

inductive Deed where
  | wrote (text : String) (ok : Bool)
  | got (want : Want) (answer : Except Fault String)

namespace Deed

def isWrite : Deed → Bool
  | wrote .. => true
  | got .. => false

def isRead : Deed → Bool
  | wrote .. => false
  | got .. => true

/-- The text that a deed has added to standard output. -/
def written : Deed → List Char
  | wrote text true => text.toList
  | _ => []

/-- The text that a deed has taken from standard input. -/
def taken : Deed → List Char
  | got want (.ok answer) => want.taken answer
  | _ => []

/-- A stream after somebody has tried to write to it. -/
def onto (s : Stream) : Deed → Stream
  | wrote text _ => s.put text
  | got .. => s

end Deed

/-- What a program does until it ends or has to wait. -/
def Program.deeds {α : Type} : Program α → Wait → Scene → List Deed
  | done _, _, _ => []
  | write text k, _, sc =>
    let (sc, ok) := sc.write text
    .wrote text ok :: deeds (k ok) .nothing sc
  | complain text k, _, sc =>
    let (sc, ok) := sc.complain text
    deeds (k ok) .nothing sc
  | read want k, wait, sc =>
    let (stdin, c, out) := sc.stdin.poll want.serve sc.world.cancellation wait.ticket?
    let sc := { sc with stdin := stdin, world := { sc.world with cancellation := c } }
    match out with
    | .ready answer => .got want answer :: deeds (k answer) .nothing sc
    | .waiting _ => []
  | relay render seen k, wait, sc =>
    let (stdin, c, out) := sc.stdin.poll Stream.takeChunk? sc.world.cancellation wait.ticket?
    let sc := { sc with stdin := stdin, world := { sc.world with cancellation := c } }
    match out with
    | .ready (.error cause) => .got .chunk (.error cause) :: deeds (k seen (.ended cause)) .nothing sc
    | .waiting _ => []
    | .ready (.ok chunk) =>
      let seen := seen ++ chunk
      let (sc, ok) := ((render chunk).map sc.write).getD (sc, true)
      .got .chunk (.ok chunk) :: ((render chunk).map (Deed.wrote · ok)).toList ++
        if ok then
          let (stdin, more) := sc.stdin.await sc.fired
          let sc := { sc with stdin := stdin }
          match more with
          | .error cause => .got .chunk (.error cause) :: deeds (k seen (.ended cause)) .nothing sc
          | .ok _ => []
        else deeds (k seen .refused) .nothing sc
  | file name k, _, sc => deeds (k (sc.world.store.read? name)) .nothing sc
  | save name text k, _, sc => deeds (k ()) .nothing { sc with world := sc.world.save name text }
  | pause k, wait, sc => if wait = .paused then deeds (k ()) .nothing sc else []
  | cancel k, _, sc => deeds (k ()) .nothing { sc with world := sc.world.cancel }

/-- Whether a deed inside a frame concerns a stream from around it. -/
def Frame.letsPass : Frame → Deed → Bool
  | output _ => Deed.isRead
  | input _ => Deed.isWrite

namespace Side

/-- Whether a deed of one side of a pipe concerns the pipe. -/
def uses : Side → Deed → Bool
  | left => Deed.isWrite
  | right => Deed.isRead

/-- Whether a deed of one side of a pipe concerns a stream from around the pipe. -/
def letsPass : Side → Deed → Bool
  | left => Deed.isRead
  | right => Deed.isWrite

end Side

/-- What a job does during a poll. -/
def Job.deeds (host : Host) : Job → Scene → List Deed
  | exit _, _ => []
  | emit text k, sc => .wrote text (sc.write text).2 :: deeds host k (sc.write text).1
  | lookup name k, sc => deeds host (k (host.env name)) (sc.record (.env name))
  | openFile name overwrite k, sc =>
    let (sc, file) := handOut host sc name overwrite
    deeds host (k file) sc
  | exec cancellable argv k, sc =>
    if cancellable && sc.fired then deeds host (k cancelledStatus) sc
    else
      let started := sc.record (.exec argv)
      (host.exec argv).deeds .nothing started ++
        match (host.exec argv).resume .nothing started with
        | (sc, .finished status) => deeds host (k status) (sc.record (.exit (argv.headD "") status))
        | _ => []
  | command name state k, sc =>
    state.program.deeds state.wait sc ++
      match state.resume sc with
      | (sc, .finished status) => deeds host (k status) (sc.record (.exit name status))
      | _ => []
  | within frame inner k, outer =>
    let (sc, progress) := poll host inner (frame.enter outer)
    let (left, sc) := frame.leave outer sc
    (deeds host inner (frame.enter outer)).filter frame.letsPass ++
      match progress with
      | .finished status => deeds host (k left status) sc
      | _ => []
  | pipe .left buffer left right k, outer =>
    let (sc, progress) := poll host left (sideScene outer buffer .left)
    let (filled, sc) := leaveSide outer sc .left
    (deeds host left (sideScene outer buffer .left)).filter (Side.letsPass .left) ++
      match progress with
      | .finished status =>
        let (inner, progress) := poll host right (sideScene sc filled.shut .right)
        (deeds host right (sideScene sc filled.shut .right)).filter (Side.letsPass .right) ++
          match progress with
          | .finished _ => deeds host (k status) (leaveSide sc inner .right).2
          | _ => []
      | .waiting _ => (deeds host right (sideScene sc filled .right)).filter (Side.letsPass .right)
      | .interrupted _ => []
  | pipe .right buffer _ right _, sc =>
    (deeds host right (sideScene sc buffer .right)).filter (Side.letsPass .right)
  | settle side status buffer rest k, outer =>
    let (inner, progress) := poll host rest (sideScene outer buffer side)
    (deeds host rest (sideScene outer buffer side)).filter side.letsPass ++
      match progress with
      | .finished _ => deeds host (k status) (leaveSide outer inner side).2
      | _ => []

/-! ## Streams that are written to -/

namespace Stream

/-- A relay polls for chunks. -/
theorem polls_of_chunk {s t : Stream} {c c' : Cancellation} {ticket : Option Nat}
    {out : Polled String} (h : s.poll takeChunk? c ticket = (t, c', out)) :
    Polls Want.chunk.serve s c ticket t c' out := polls_of_eq h

/-- A read of a chunk leaves nothing. -/
theorem Polls.drained {s t : Stream} {c c' : Cancellation} {ticket : Option Nat} {chunk : String}
    (h : Polls Want.chunk.serve s c ticket t c' (.ready (.ok chunk))) : t.text = [] := by
  have hserved (s : Stream) (hs : Want.chunk.serve s = some (chunk, t)) : t.text = [] := by
    obtain ⟨ch, rest, -, ⟨-, -, rfl⟩ | ⟨hw, -⟩ | ⟨hw, -⟩⟩ := Want.serve_eq_some hs
    · exact text_drain s
    · cases hw
    · cases hw
  cases h with
  | fresh h =>
    cases h with
    | served hs => exact hserved _ hs
  | called _ _ h =>
    cases h with
    | served hs => exact hserved _ hs

/-- A stream has been written to, and nothing else has been done to it. Writing to it is possible as
long as it is open. -/
structure Absorbed (s : Stream) (ds : List Deed) (t : Stream) : Prop where
  eq_foldl : t = ds.foldl Deed.onto s
  answers : ∀ text ok, .wrote text ok ∈ ds → ok = !s.closed

namespace Absorbed

variable {s t u : Stream} {ds es : List Deed}

theorem nil (s : Stream) : Absorbed s [] s := ⟨rfl, by simp⟩

theorem closed (h : Absorbed s ds t) : t.closed = s.closed := by
  rw [h.eq_foldl]
  clear h
  induction ds generalizing s with
  | nil => rfl
  | cons d ds ih =>
    rw [List.foldl_cons, ih]
    cases d with
    | wrote text ok => exact closed_put s text
    | got want answer => rfl

theorem append (h : Absorbed s ds t) (h' : Absorbed t es u) : Absorbed s (ds ++ es) u := by
  refine ⟨?_, fun text ok hmem => ?_⟩
  · rw [List.foldl_append, ← h.eq_foldl]
    exact h'.eq_foldl
  · rcases List.mem_append.1 hmem with hmem | hmem
    · exact h.answers text ok hmem
    · rw [← h.closed]
      exact h'.answers text ok hmem

theorem text (h : Absorbed s ds t) : t.text = s.text ++ ds.flatMap Deed.written := by
  rw [h.eq_foldl]
  have hanswers := h.answers
  clear h
  induction ds generalizing s with
  | nil => simp
  | cons d ds ih =>
    rw [List.foldl_cons]
    cases d with
    | got want answer =>
      exact ih fun text ok hmem => hanswers text ok (List.mem_cons_of_mem _ hmem)
    | wrote new ok =>
      have hok := hanswers new ok List.mem_cons_self
      have hrest : ∀ text ok, .wrote text ok ∈ ds → ok = !(s.put new).closed := by
        intro text ok hmem
        rw [closed_put]
        exact hanswers text ok (List.mem_cons_of_mem _ hmem)
      rw [Deed.onto, ih hrest, text_put, List.flatMap_cons, List.append_assoc, hok]
      cases s.closed <;> rfl

/-- Reads leave the stream that is written to as it is. -/
theorem filter (h : Absorbed s ds t) : Absorbed s (ds.filter Deed.isWrite) t := by
  refine ⟨?_, fun text ok hmem => h.answers text ok (List.mem_filter.1 hmem).1⟩
  rw [h.eq_foldl]
  clear h
  induction ds generalizing s with
  | nil => rfl
  | cons d ds ih =>
    cases d with
    | wrote text ok => exact ih
    | got want answer => exact ih

theorem of_reads (s : Stream) (ds : List Deed) : Absorbed s (ds.filter Deed.isRead) s := by
  refine ⟨?_, fun text ok hmem => by simp [Deed.isRead] at hmem⟩
  induction ds with
  | nil => rfl
  | cons d ds ih =>
    cases d with
    | wrote text ok => exact ih
    | got want answer => exact ih

end Absorbed

/-! ## Streams that are read from -/

/-- What reads get of a stream that holds `text`, and what they leave. The end is reported when
everything has been taken and no more is to come. -/
inductive Draws (closed : Bool) : List Char → List Deed → List Char → Prop where
  | nil (text : List Char) : Draws closed text [] text
  | wrote {text rest : List Char} {ds : List Deed} {new : String} {ok : Bool}
    (h : Draws closed text ds rest) : Draws closed text (.wrote new ok :: ds) rest
  | got {want : Want} {answer : String} {text rest : List Char} {ds : List Deed}
    (h : Draws closed text ds rest) :
    Draws closed (want.taken answer ++ text) (.got want (.ok answer) :: ds) rest
  | ended {want : Want} {ds : List Deed} {rest : List Char} (hclosed : closed = true)
    (h : Draws closed [] ds rest) : Draws closed [] (.got want (.error .endOfStream) :: ds) rest
  | failed {want : Want} {cause : Fault} {text rest : List Char} {ds : List Deed}
    (hcause : cause ≠ .endOfStream) (h : Draws closed text ds rest) :
    Draws closed text (.got want (.error cause) :: ds) rest

namespace Draws

variable {closed : Bool} {text rest rest' : List Char} {ds es : List Deed}

theorem append (h : Draws closed text ds rest) (h' : Draws closed rest es rest') :
    Draws closed text (ds ++ es) rest' := by
  induction h with
  | nil => exact h'
  | wrote _ ih => exact .wrote (ih h')
  | got _ ih => exact .got (ih h')
  | ended hclosed _ ih => exact .ended hclosed (ih h')
  | failed hcause _ ih => exact .failed hcause (ih h')

theorem filter (h : Draws closed text ds rest) :
    Draws closed text (ds.filter Deed.isRead) rest := by
  induction h with
  | nil => exact .nil _
  | wrote _ ih => exact ih
  | got _ ih => exact .got ih
  | ended hclosed _ ih => exact .ended hclosed ih
  | failed hcause _ ih => exact .failed hcause ih

theorem of_writes (closed : Bool) (text : List Char) (ds : List Deed) :
    Draws closed text (ds.filter Deed.isWrite) text := by
  induction ds with
  | nil => exact .nil text
  | cons d ds ih =>
    cases d with
    | wrote new ok => exact .wrote ih
    | got want answer => exact ih

end Draws

/-- A stream has been read from. -/
structure Drawn (s : Stream) (ds : List Deed) (t : Stream) : Prop where
  closed : t.closed = s.closed
  cancellable : t.cancellable = s.cancellable
  draws : Draws s.closed s.text ds t.text

namespace Drawn

variable {s t u : Stream} {ds es : List Deed}

theorem nil (s : Stream) : Drawn s [] s := ⟨rfl, rfl, .nil _⟩

theorem append (h : Drawn s ds t) (h' : Drawn t es u) : Drawn s (ds ++ es) u :=
  ⟨h'.closed.trans h.closed, h'.cancellable.trans h.cancellable,
    h.draws.append (h.closed ▸ h'.draws)⟩

theorem filter (h : Drawn s ds t) : Drawn s (ds.filter Deed.isRead) t :=
  ⟨h.closed, h.cancellable, h.draws.filter⟩

theorem of_writes (s : Stream) (ds : List Deed) : Drawn s (ds.filter Deed.isWrite) s :=
  ⟨rfl, rfl, .of_writes _ _ _⟩

variable {want : Want} {c c' : Cancellation} {ticket : Option Nat}

theorem of_ready {answer : Except Fault String}
    (h : Polls want.serve s c ticket t c' (.ready answer)) : Drawn s [.got want answer] t := by
  refine ⟨h.closed, h.cancellable, ?_⟩
  have htext := h.text
  cases answer with
  | ok answer =>
    rw [htext]
    exact .got (.nil _)
  | error cause =>
    have hsame : t.text = s.text := htext.symm
    rw [hsame]
    by_cases hcause : cause = .endOfStream
    · subst hcause
      obtain ⟨hclosed, hnil⟩ := h.endOfStream
      rw [hnil]
      exact .ended hclosed (.nil _)
    · exact .failed hcause (.nil _)

theorem of_waiting {n : Nat} (h : Polls want.serve s c ticket t c' (.waiting n)) :
    Drawn s [] t := by
  refine ⟨h.closed, h.cancellable, ?_⟩
  rw [h.text]
  exact .nil _

/-- Asking an empty stream whether there will be more. -/
theorem of_await {fired : Bool} {cause : Fault} (hempty : s.text = [])
    (h : s.await fired = (t, .error cause)) : Drawn s [.got want (.error cause)] t := by
  rcases await_cases s fired with ⟨hclosed, hw⟩ | ⟨-, -, -, hw⟩ | ⟨-, -, hw⟩
  · rw [hw] at h
    cases h
    refine ⟨rfl, rfl, ?_⟩
    rw [hempty]
    exact .ended hclosed (.nil _)
  · rw [hw] at h
    cases h
    exact ⟨rfl, rfl, .failed (by decide) (.nil _)⟩
  · rw [hw] at h
    cases h

theorem of_await_ok {fired : Bool} {n : Nat} (h : s.await fired = (t, .ok n)) : Drawn s [] t := by
  rcases await_cases s fired with ⟨-, hw⟩ | ⟨-, -, -, hw⟩ | ⟨-, -, hw⟩
  · rw [hw] at h
    cases h
  · rw [hw] at h
    cases h
  · rw [hw] at h
    cases h
    exact ⟨rfl, rfl, .nil _⟩

end Drawn

end Stream

/-! ## Scenes -/

@[simp] theorem Scene.stdin_write (sc : Scene) (text : String) :
    (sc.write text).1.stdin = sc.stdin := by
  unfold write
  split <;> rfl

@[simp] theorem Scene.stdin_complain (sc : Scene) (text : String) :
    (sc.complain text).1.stdin = sc.stdin := by
  unfold complain
  split <;> rfl

theorem Scene.fired_write (sc : Scene) (text : String) : (sc.write text).1.fired = sc.fired := by
  unfold write
  split <;> rfl

theorem Scene.calls_write (sc : Scene) (text : String) :
    (sc.write text).1.world.calls = sc.world.calls := by
  unfold write
  split <;> rfl

theorem Scene.calls_complain (sc : Scene) (text : String) :
    (sc.complain text).1.world.calls = sc.world.calls := by
  unfold complain
  split <;> rfl

/-- Writing to a sink is writing to its stream. -/
theorem Sink.write_cases (sink : Sink) (store : Store) (text : String) :
    (∃ sink' store', sink.write store text = .ok (sink', store') ∧
      sink.toStream.write text = .ok sink'.toStream) ∨
    ∃ cause, sink.write store text = .error cause ∧ sink.toStream.write text = .error cause := by
  cases sink with
  | stream s =>
    cases hw : s.write text with
    | ok t => exact .inl ⟨.stream t, store, by simp [write, hw, Except.map], hw⟩
    | error cause => exact .inr ⟨cause, by simp [write, hw, Except.map], hw⟩
  | file f =>
    cases hw : f.stream.write text with
    | ok t =>
      let f' := { f with content := f.content ++ text, stream := t }
      have hf : f.write store text = .ok (f', f'.save store) := by simp [OpenFile.write, hw, f']
      refine .inl ⟨.file f', f'.save store, ?_, hw⟩
      rw [write, hf]
      rfl
    | error cause => exact .inr ⟨cause, by simp [write, OpenFile.write, hw, Except.map], hw⟩

/-- The deeds account for what became of standard input and standard output. A cancellation is not
taken back. -/
structure Scene.Did (sc : Scene) (ds : List Deed) (sc' : Scene) : Prop where
  input : sc.stdin.Drawn ds sc'.stdin
  output : sc.stdout.toStream.Absorbed ds sc'.stdout.toStream
  fired : sc.fired = true → sc'.fired = true

namespace Scene.Did

variable {sc sc' sc'' : Scene} {ds es : List Deed}

theorem append (h : Did sc ds sc') (h' : Did sc' es sc'') : Did sc (ds ++ es) sc'' :=
  ⟨h.input.append h'.input, h.output.append h'.output, fun hfired => h'.fired (h.fired hfired)⟩

theorem of_eq (hin : sc'.stdin = sc.stdin) (hout : sc'.stdout = sc.stdout)
    (hfired : sc'.fired = sc.fired) : Did sc [] sc' := by
  refine ⟨?_, ?_, fun h => hfired.trans h⟩
  · rw [hin]
    exact .nil _
  · rw [hout]
    exact .nil _

theorem of_write (sc : Scene) (text : String) :
    Did sc [.wrote text (sc.write text).2] (sc.write text).1 := by
  refine ⟨?_, ?_, fun h => (sc.fired_write text).trans h⟩
  · rw [stdin_write]
    exact ⟨rfl, rfl, .wrote (.nil _)⟩
  · unfold Scene.write
    rcases sc.stdout.write_cases sc.world.store text with
      ⟨sink, store, hsink, hw⟩ | ⟨cause, hsink, hw⟩
    · have hopen : sc.stdout.toStream.closed = false := by
        rcases sc.stdout.toStream.write_cases text with ⟨-, hw'⟩ | ⟨hopen, -⟩
        · rw [hw] at hw'
          cases hw'
        · exact hopen
      rw [hsink]
      exact ⟨by simp [Deed.onto, Stream.put, hw, Except.toOption], by simp [hopen]⟩
    · have hclosed : sc.stdout.toStream.closed = true := by
        rcases sc.stdout.toStream.write_cases text with ⟨hclosed, -⟩ | ⟨-, t, hw', -⟩
        · exact hclosed
        · rw [hw] at hw'
          cases hw'
      rw [hsink]
      exact ⟨by simp [Deed.onto, Stream.put, hw, Except.toOption], by simp [hclosed]⟩

theorem of_complain (sc : Scene) (text : String) : Did sc [] (sc.complain text).1 := by
  unfold complain
  cases sc.stderr.write text with
  | ok s => exact of_eq rfl rfl rfl
  | error cause => exact of_eq rfl rfl rfl

variable {stdin : Stream} {c : Cancellation}

theorem of_got {want : Want} {answer : Except Fault String}
    (hin : sc.stdin.Drawn [.got want answer] stdin) (hfired : c.fired = sc.fired) :
    Did sc [.got want answer]
      { sc with stdin := stdin, world := { sc.world with cancellation := c } } :=
  ⟨hin, .of_reads _ [.got want answer], fun h => hfired.trans h⟩

theorem of_wait (hin : sc.stdin.Drawn [] stdin) (hfired : c.fired = sc.fired) :
    Did sc [] { sc with stdin := stdin, world := { sc.world with cancellation := c } } :=
  ⟨hin, .nil _, fun h => hfired.trans h⟩

end Scene.Did

/-! ## Programs -/

namespace Program

variable {α : Type}

/-- A relay that has read a chunk and written something for it, if anything. -/
theorem did_relayed {render : String → Option String} {wait : Wait} {sc sc' : Scene}
    {stdin : Stream} {c : Cancellation} {chunk : String} {ok : Bool}
    (hpoll : sc.stdin.poll Stream.takeChunk? sc.world.cancellation wait.ticket? =
      (stdin, c, .ready (.ok chunk)))
    (hwrite : ((render chunk).map
      { sc with stdin := stdin, world := { sc.world with cancellation := c } }.write).getD
        ({ sc with stdin := stdin, world := { sc.world with cancellation := c } }, true) =
      (sc', ok)) :
    sc.Did (.got .chunk (.ok chunk) :: ((render chunk).map (Deed.wrote · ok)).toList) sc' ∧
      sc'.stdin.text = [] := by
  have hpolls := Stream.polls_of_chunk hpoll
  have hfirst : sc.Did [.got .chunk (.ok chunk)]
      { sc with stdin := stdin, world := { sc.world with cancellation := c } } :=
    .of_got (.of_ready hpolls) hpolls.fired
  have hempty : stdin.text = [] := hpolls.drained
  cases hrender : render chunk with
  | none =>
    rw [hrender] at hwrite
    cases hwrite
    exact ⟨hfirst, hempty⟩
  | some text =>
    rw [hrender, Option.map_some, Option.getD_some] at hwrite
    have hsecond := Scene.Did.of_write
      { sc with stdin := stdin, world := { sc.world with cancellation := c } } text
    have hstdin := Scene.stdin_write
      { sc with stdin := stdin, world := { sc.world with cancellation := c } } text
    rw [hwrite] at hsecond hstdin
    exact ⟨hfirst.append hsecond, by rw [hstdin]; exact hempty⟩

theorem did_resume (p : Program α) (wait : Wait) (sc : Scene) :
    sc.Did (p.deeds wait sc) (p.resume wait sc).1 := by
  fun_induction Program.resume p wait sc with
  | case1 result wait sc => exact .of_eq rfl rfl rfl
  | case2 text k wait sc sc' ok hw ih =>
    simp only [deeds, hw]
    have hdid := Scene.Did.of_write sc text
    rw [hw] at hdid
    exact hdid.append ih
  | case3 text k wait sc sc' ok hw ih =>
    simp only [deeds, hw]
    have hdid := Scene.Did.of_complain sc text
    rw [hw] at hdid
    exact hdid.append ih
  | case4 want k wait sc stdin c sc' answer hpoll ih =>
    simp only [deeds, hpoll]
    have hpolls := Stream.polls_of_eq hpoll
    have hdid : sc.Did [.got want answer] sc' := .of_got (.of_ready hpolls) hpolls.fired
    exact hdid.append ih
  | case5 want k wait sc stdin c sc' n hpoll =>
    simp only [deeds, hpoll]
    have hpolls := Stream.polls_of_eq hpoll
    exact .of_wait (.of_waiting hpolls) hpolls.fired
  | case6 render seen k wait sc stdin c sc₁ cause hpoll ih =>
    simp only [deeds, hpoll]
    have hpolls := Stream.polls_of_chunk hpoll
    have hdid : sc.Did [.got .chunk (.error cause)] sc₁ := .of_got (.of_ready hpolls) hpolls.fired
    exact hdid.append ih
  | case7 render seen k wait sc stdin c sc₁ n hpoll =>
    simp only [deeds, hpoll]
    have hpolls := Stream.polls_of_chunk hpoll
    exact .of_wait (.of_waiting hpolls) hpolls.fired
  | case8 render seen k wait sc stdin c sc₁ chunk seen' sc₂ stdin' sc₃ cause hpoll hwrite hawait ih =>
    simp only [deeds, hpoll]
    rw [hwrite]
    simp only [if_true, hawait]
    obtain ⟨hdid, hempty⟩ := did_relayed hpoll hwrite
    have hend : sc₂.Did [.got .chunk (.error cause)] sc₃ := .of_got (.of_await hempty hawait) rfl
    exact hdid.append (hend.append ih)
  | case9 render seen k wait sc stdin c sc₁ chunk seen' sc₂ stdin' sc₃ n hpoll hwrite hawait =>
    simp only [deeds, hpoll]
    rw [hwrite]
    simp only [if_true, hawait]
    obtain ⟨hdid, -⟩ := did_relayed hpoll hwrite
    have hwait : sc₂.Did [] sc₃ := .of_wait (.of_await_ok hawait) rfl
    exact hdid.append hwait
  | case10 render seen k wait sc stdin c sc₁ chunk seen' sc₂ ok hwrite hok hpoll ih =>
    simp only [deeds, hpoll]
    rw [hwrite]
    simp only [if_neg hok]
    obtain ⟨hdid, -⟩ := did_relayed hpoll hwrite
    exact hdid.append ih
  | case11 name k wait sc ih => exact ih
  | case12 name text k wait sc ih =>
    have hdid : sc.Did [] { sc with world := sc.world.save name text } := .of_eq rfl rfl rfl
    exact hdid.append ih
  | case13 k sc ih =>
    rw [deeds, if_pos rfl]
    exact ih
  | case14 k wait sc hwait =>
    rw [deeds, if_neg hwait]
    exact .of_eq rfl rfl rfl
  | case15 k wait sc ih =>
    have hdid : sc.Did [] { sc with world := sc.world.cancel } := ⟨.nil _, .nil _, fun _ => rfl⟩
    exact hdid.append ih

/-- A program makes no calls to the host. -/
theorem calls_resume (p : Program α) (wait : Wait) (sc : Scene) :
    (p.resume wait sc).1.world.calls = sc.world.calls := by
  induction p generalizing wait sc with
  | done result => rfl
  | write text k ih => exact (ih _ _ _).trans (sc.calls_write text)
  | complain text k ih => exact (ih _ _ _).trans (sc.calls_complain text)
  | read want k ih =>
    simp only [resume]
    split
    · exact ih _ _ _
    · rfl
  | relay render seen k ih =>
    simp only [resume]
    split
    · exact ih _ _ _ _
    · rfl
    · rename_i chunk _
      have hwrite : ∀ sc : Scene, (((render chunk).map sc.write).getD (sc, true)).1.world.calls =
          sc.world.calls := by
        intro sc
        cases render chunk with
        | none => rfl
        | some text => exact sc.calls_write text
      split
      · split
        · exact (ih _ _ _ _).trans (hwrite _)
        · exact hwrite _
      · exact (ih _ _ _ _).trans (hwrite _)
  | file name k ih => exact ih _ _ _
  | save name text k ih => exact ih _ _ _
  | pause k ih =>
    simp only [resume]
    split
    · exact ih _ _ _
    · rfl
  | cancel k ih => exact ih _ _ _

end Program

/-! ## Jobs -/

namespace Job

section

variable {host : Host} {buffer filled : Stream} {left left' right : Job} {k : Int → Job}
  {outer inner sc : Scene} {status : Int}

/-- A pipe whose left side has just ended. -/
theorem poll_pipe_of_finished
    (hpoll : left.poll host (sideScene outer buffer .left) = (inner, .finished status))
    (hleave : leaveSide outer inner .left = (filled, sc)) :
    (pipe .left buffer left right k).poll host outer =
      (settle .right status filled.shut right k).poll host sc := by
  simp only [poll, hpoll, hleave]

/-- A pipe whose left side has just been left waiting. -/
theorem poll_pipe_of_waiting
    (hpoll : left.poll host (sideScene outer buffer .left) = (inner, .waiting left'))
    (hleave : leaveSide outer inner .left = (filled, sc)) :
    (pipe .left buffer left right k).poll host outer =
      (pipe .right filled left' right k).poll host sc := by
  simp only [poll, hpoll, hleave]

theorem poll_pipe_of_interrupted
    (hpoll : left.poll host (sideScene outer buffer .left) = (inner, .interrupted left'))
    (hleave : leaveSide outer inner .left = (filled, sc)) :
    (pipe .left buffer left right k).poll host outer =
      (sc, .interrupted (pipe .left filled left' right k)) := by
  simp only [poll, hpoll, hleave]

end

theorem did_handOut (host : Host) (sc : Scene) (name : String) (overwrite : Bool) :
    sc.Did [] (handOut host sc name overwrite).1 := by
  unfold handOut
  dsimp only
  split
  · split
    · exact .of_eq rfl rfl rfl
    · exact .of_eq rfl rfl rfl
  · exact .of_eq rfl rfl rfl

/-- What is done inside a frame, as seen from outside. -/
theorem did_frame {frame frame' : Frame} {outer inner sc : Scene} {ds : List Deed}
    (h : (frame.enter outer).Did ds inner) (hleave : frame.leave outer inner = (frame', sc)) :
    outer.Did (ds.filter frame.letsPass) sc := by
  cases frame with
  | output sink =>
    cases hleave
    exact ⟨h.input.filter, .of_reads _ ds, h.fired⟩
  | input source =>
    cases hleave
    exact ⟨.of_writes _ ds, h.output.filter, h.fired⟩

/-- What one side of a pipe does, as seen from outside the pipe. -/
theorem did_side {side : Side} {buffer buffer' : Stream} {outer inner sc : Scene} {ds : List Deed}
    (h : (sideScene outer buffer side).Did ds inner)
    (hleave : leaveSide outer inner side = (buffer', sc)) :
    outer.Did (ds.filter side.letsPass) sc := by
  cases side with
  | left =>
    cases hleave
    exact ⟨h.input.filter, .of_reads _ ds, h.fired⟩
  | right =>
    cases hleave
    exact ⟨.of_writes _ ds, h.output.filter, h.fired⟩

theorem fst_afterRight (outer : Scene) (left : Job) (k : Int → Job)
    (r : Scene × Progress Job Int) :
    (afterRight outer left k r).1 = (leaveSide outer r.1 .right).2 := by
  obtain ⟨inner, progress⟩ := r
  cases progress <;> rfl

theorem did_poll (host : Host) (p : Job) (sc : Scene) :
    sc.Did (p.deeds host sc) (p.poll host sc).1 := by
  have hrecord (sc : Scene) (call : Call) : sc.Did [] (sc.record call) := .of_eq rfl rfl rfl
  have hexec (argv : List String) (sc : Scene) :
      sc.Did ((host.exec argv).deeds .nothing (sc.record (.exec argv)))
        ((host.exec argv).resume .nothing (sc.record (.exec argv))).1 :=
    (hrecord sc _).append ((host.exec argv).did_resume .nothing _)
  have hcommand (state : Suspended Int) (sc : Scene) :
      sc.Did (state.program.deeds state.wait sc) (state.resume sc).1 :=
    state.program.did_resume state.wait sc
  fun_induction Job.poll host p sc with
  | case1 status sc => exact .of_eq rfl rfl rfl
  | case2 text k sc ih => exact (Scene.Did.of_write sc text).append ih
  | case3 name k sc ih => exact (hrecord sc _).append ih
  | case4 name overwrite k sc sc' file hfile ih =>
    have hdid := did_handOut host sc name overwrite
    rw [hfile] at hdid
    simp only [deeds, hfile]
    exact hdid.append ih
  | case5 cancellable argv k sc hfired ih =>
    rw [deeds, if_pos hfired]
    exact ih
  | case6 cancellable argv k sc hfired name sc' status hresume ih =>
    have hdid := hexec argv sc
    rw [hresume] at hdid
    rw [deeds, if_neg hfired]
    simp only [hresume]
    exact hdid.append ((hrecord _ _).append ih)
  | case7 cancellable argv k sc hfired name sc' state hresume
  | case8 cancellable argv k sc hfired name sc' state hresume =>
    have hdid := hexec argv sc
    rw [hresume] at hdid
    rw [deeds, if_neg hfired]
    simpa only [hresume, List.append_nil] using hdid
  | case9 name state k sc sc' status hresume ih =>
    have hdid := hcommand state sc
    rw [hresume] at hdid
    simp only [deeds, hresume]
    exact hdid.append ((hrecord _ _).append ih)
  | case10 name state k sc sc' state' hresume
  | case11 name state k sc sc' state' hresume =>
    have hdid := hcommand state sc
    rw [hresume] at hdid
    simpa only [deeds, hresume, List.append_nil] using hdid
  | case12 frame inner k outer sc frame' sc' hleave status hpoll ihi ihk =>
    rw [hpoll] at ihi
    simp only [deeds, hpoll, hleave]
    exact (did_frame ihi hleave).append ihk
  | case13 frame inner k outer sc frame' sc' hleave inner' hpoll ihi
  | case14 frame inner k outer sc frame' sc' hleave inner' hpoll ihi =>
    rw [hpoll] at ihi
    simpa only [deeds, hpoll, hleave, List.append_nil] using did_frame ihi hleave
  | case15 buffer left right k outer inner filled sc hleave status inner' buffer' sc' hleave' status'
      hpoll hpoll' ihl ihr ihk =>
    rw [hpoll] at ihl
    rw [hpoll'] at ihr
    simp only [deeds, hpoll, hleave, hpoll', hleave']
    exact (did_side ihl hleave).append ((did_side ihr hleave').append ihk)
  | case16 buffer left right k outer inner filled sc hleave status inner' buffer' sc' hleave' right'
      hpoll hpoll' ihl ihr
  | case17 buffer left right k outer inner filled sc hleave status inner' buffer' sc' hleave' right'
      hpoll hpoll' ihl ihr =>
    rw [hpoll] at ihl
    rw [hpoll'] at ihr
    simpa only [deeds, hpoll, hleave, hpoll', List.append_nil] using
      (did_side ihl hleave).append (did_side ihr hleave')
  | case18 buffer left right k outer inner filled sc hleave left' hpoll ihl ihr =>
    rw [hpoll] at ihl
    simp only [deeds, hpoll, hleave, fst_afterRight]
    exact (did_side ihl hleave).append (did_side ihr rfl)
  | case19 buffer left right k outer inner filled sc hleave left' hpoll ihl =>
    rw [hpoll] at ihl
    simpa only [deeds, hpoll, hleave, List.append_nil] using did_side ihl hleave
  | case20 buffer left right k sc ihr =>
    rw [deeds, fst_afterRight]
    exact did_side ihr rfl
  | case21 side status buffer rest k outer inner buffer' sc hleave status' hpoll ih ihk =>
    rw [hpoll] at ih
    simp only [deeds, hpoll, hleave]
    exact (did_side ih hleave).append ihk
  | case22 side status buffer rest k outer inner buffer' sc hleave rest' hpoll ih
  | case23 side status buffer rest k outer inner buffer' sc hleave rest' hpoll ih =>
    rw [hpoll] at ih
    simpa only [deeds, hpoll, List.append_nil] using did_side ih hleave

end Job

end PocketShell
