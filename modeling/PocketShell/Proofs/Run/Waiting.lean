import PocketShell.Proofs.Run.Deeds
import PocketShell.Proofs.Streams.Queue

/-!
# What a job waits for

* `Job.Fits` : the job and its standard input agree on who waits: the command that reads it holds the
  only place in its queue, and the same is true of every stream inside the job. Where nobody will
  write any more (in a redirection, behind a side that has ended) the stream is closed;
* `Job.fits_poll` : polls keep this;
* `Job.WaitsFor` : a command of the job is parked on its standard input, which is open and empty;
* `Job.Fits.waitsFor` : a job that does not get on waits in this way, and for nothing else.
-/

namespace PocketShell

/-! ## Programs -/

/-- Where the reader stands when something has been polled; `fits` is for what is not finished. -/
def Progress.Fits {σ α : Type} (fits : σ → Stream → Prop) (stdin : Stream) : Progress σ α → Prop
  | finished _ => stdin.Awaited none
  | waiting state => fits state stdin
  | interrupted state => fits state stdin

/-- Whether a program is about to read. -/
def Program.asks {α : Type} : Program α → Bool
  | read .. => true
  | relay .. => true
  | _ => false

/-- A program waits with a ticket if it is about to read, and then for its standard input. -/
structure Suspended.Fits {α : Type} (state : Suspended α) (stdin : Stream) : Prop where
  awaited : stdin.Awaited state.wait.ticket?
  asks : state.wait.ticket?.isSome = true → state.program.asks = true

section

variable {α : Type} {p : Program α} {wait : Wait} {s : Stream}

theorem Suspended.Fits.of_nothing (h : s.Awaited none) : Suspended.Fits ⟨.nothing, p⟩ s :=
  ⟨h, fun hn => by cases hn⟩

theorem Suspended.Fits.of_ticket {n : Nat} (h : s.Awaited (some n)) (hasks : p.asks = true) :
    Suspended.Fits ⟨.ticket n, p⟩ s :=
  ⟨h, fun _ => hasks⟩

/-- Nobody waits while a program does something else than read. -/
theorem Suspended.Fits.idle (h : Suspended.Fits ⟨wait, p⟩ s) (hasks : p.asks = false) :
    s.Awaited none := by
  have hticket : wait.ticket? = none := by
    cases hw : wait.ticket? with
    | none => rfl
    | some n => exact absurd (h.asks (by rw [hw]; rfl)) (Bool.eq_false_iff.1 hasks)
  have hawaited := h.awaited
  rw [hticket] at hawaited
  exact hawaited

end

/-- The input after the chunk of a relay has been written. -/
theorem Scene.stdin_relayed {sc sc' : Scene} {ok : Bool} {text? : Option String}
    (h : (text?.map sc.write).getD (sc, true) = (sc', ok)) : sc'.stdin = sc.stdin := by
  cases text? with
  | none =>
    cases h
    rfl
  | some text =>
    have hw := sc.stdin_write text
    rw [Option.map_some, Option.getD_some] at h
    rw [h] at hw
    exact hw

/-- Nobody waits after a relay has read a chunk, and nothing is left to read. -/
theorem Program.awaited_relayed {render : String → Option String} {wait : Wait} {sc sc' : Scene}
    {stdin : Stream} {c : Cancellation} {chunk : String} {ok : Bool}
    (h : sc.stdin.Awaited wait.ticket?)
    (hpoll : sc.stdin.poll Stream.takeChunk? sc.world.cancellation wait.ticket? =
      (stdin, c, .ready (.ok chunk)))
    (hwrite : ((render chunk).map
      { sc with stdin := stdin, world := { sc.world with cancellation := c } }.write).getD
        ({ sc with stdin := stdin, world := { sc.world with cancellation := c } }, true) =
      (sc', ok)) : sc'.stdin.Awaited none ∧ sc'.stdin.text = [] := by
  refine ⟨?_, (did_relayed hpoll hwrite).2⟩
  rw [Scene.stdin_relayed hwrite]
  exact h.polls (Stream.polls_of_chunk hpoll)

theorem Program.fits_resume {α : Type} (p : Program α) (wait : Wait) (sc : Scene)
    (h : Suspended.Fits ⟨wait, p⟩ sc.stdin) :
    (p.resume wait sc).2.Fits Suspended.Fits (p.resume wait sc).1.stdin := by
  fun_induction Program.resume p wait sc with
  | case1 result wait sc => exact h.idle rfl
  | case2 text k wait sc sc' ok hw ih =>
    have hstdin := sc.stdin_write text
    rw [hw] at hstdin
    exact ih (.of_nothing (hstdin ▸ h.idle rfl))
  | case3 text k wait sc sc' ok hw ih =>
    have hstdin := sc.stdin_complain text
    rw [hw] at hstdin
    exact ih (.of_nothing (hstdin ▸ h.idle rfl))
  | case4 want k wait sc stdin c sc' answer hpoll ih =>
    exact ih (.of_nothing (h.awaited.polls (Stream.polls_of_eq hpoll)))
  | case5 want k wait sc stdin c sc' n hpoll =>
    exact .of_ticket (h.awaited.polls (Stream.polls_of_eq hpoll)) rfl
  | case6 render seen k wait sc stdin c sc₁ cause hpoll ih =>
    exact ih (.of_nothing (h.awaited.polls (Stream.polls_of_chunk hpoll)))
  | case7 render seen k wait sc stdin c sc₁ n hpoll =>
    exact .of_ticket (h.awaited.polls (Stream.polls_of_chunk hpoll)) rfl
  | case8 render seen k wait sc stdin c sc₁ chunk seen' sc₂ stdin' sc₃ cause hpoll hwrite hawait ih =>
    obtain ⟨hawaited, hempty⟩ := awaited_relayed h.awaited hpoll hwrite
    exact ih (.of_nothing (hawaited.await hempty hawait))
  | case9 render seen k wait sc stdin c sc₁ chunk seen' sc₂ stdin' sc₃ n hpoll hwrite hawait =>
    obtain ⟨hawaited, hempty⟩ := awaited_relayed h.awaited hpoll hwrite
    exact .of_ticket (hawaited.await hempty hawait) rfl
  | case10 render seen k wait sc stdin c sc₁ chunk seen' sc₂ ok hwrite hok hpoll ih =>
    exact ih (.of_nothing (awaited_relayed h.awaited hpoll hwrite).1)
  | case11 name k wait sc ih => exact ih (.of_nothing (h.idle rfl))
  | case12 name text k wait sc ih => exact ih (.of_nothing (h.idle rfl))
  | case13 k sc ih => exact ih (.of_nothing (h.idle rfl))
  | case14 k wait sc hwait => exact ⟨h.idle rfl, fun hn => by cases hn⟩
  | case15 k wait sc ih => exact ih (.of_nothing (h.idle rfl))

/-! ## Jobs -/

/-- What a frame has to do with the input around it. Input that comes from elsewhere is complete. -/
def Frame.Fits (stdin : Stream) : Frame → Prop
  | output sink => sink.toStream.Awaited none
  | input source => stdin.Awaited none ∧ source.closed = true

namespace Side

/-- The stream that one side of a pipe reads. -/
def input (buffer stdin : Stream) : Side → Stream
  | left => stdin
  | right => buffer

/-- What the last side of a pipe has to do with the input around the pipe. -/
def Fits (buffer stdin : Stream) : Side → Prop
  | left => True
  | right => stdin.Awaited none ∧ buffer.closed = true

end Side

namespace Job

/-- The job stands in the queue of this standard input where a command of it reads it, and else
nobody does. What follows a part of the job may begin with any input that nobody waits for. -/
def Fits : Job → Stream → Prop
  | exit _, stdin => stdin.Awaited none
  | emit _ k, stdin => k.Fits stdin
  | lookup _ k, stdin => ∀ value, (k value).Fits stdin
  | openFile _ _ k, stdin => ∀ file : OpenFile, file.stream.Awaited none → (k file).Fits stdin
  | exec _ _ k, stdin => stdin.Awaited none ∧ ∀ status s, s.Awaited none → (k status).Fits s
  | command _ state k, stdin => state.Fits stdin ∧ ∀ status s, s.Awaited none → (k status).Fits s
  | within frame inner k, stdin =>
    frame.Fits stdin ∧ inner.Fits (frame.inputWith stdin) ∧
      ∀ frame status s, frame.stream.Awaited none → s.Awaited none → (k frame status).Fits s
  | pipe _ buffer left right k, stdin =>
    left.Fits stdin ∧ right.Fits buffer ∧ ∀ status s, s.Awaited none → (k status).Fits s
  | settle side _ buffer rest k, stdin =>
    side.Fits buffer stdin ∧ rest.Fits (side.input buffer stdin) ∧
      ∀ status s, s.Awaited none → (k status).Fits s

/-- The job can begin where nobody waits for its input. -/
def Starts (p : Job) : Prop := ∀ s : Stream, s.Awaited none → p.Fits s

/-- Only who waits for its input matters to a job. -/
theorem Fits.of_awaited {p : Job} {s t : Stream} (h : p.Fits s)
    (hst : ∀ ticket, s.Awaited ticket → t.Awaited ticket) : p.Fits t := by
  induction p generalizing s t with
  | exit status => exact hst _ h
  | emit text k ih => exact ih h hst
  | lookup name k ih => exact fun value => ih value (h value) hst
  | openFile name overwrite k ih => exact fun file hfile => ih file (h file hfile) hst
  | exec cancellable argv k ih => exact ⟨hst _ h.1, h.2⟩
  | command name state k ih => exact ⟨⟨hst _ h.1.awaited, h.1.asks⟩, h.2⟩
  | within frame inner k ih ihk =>
    cases frame with
    | output sink => exact ⟨h.1, ih h.2.1 hst, h.2.2⟩
    | input source => exact ⟨⟨hst _ h.1.1, h.1.2⟩, h.2⟩
  | pipe turn buffer left right k ihl ihr ihk => exact ⟨ihl h.1 hst, h.2⟩
  | settle side status buffer rest k ih ihk =>
    cases side with
    | left => exact ⟨trivial, ih h.2.1 hst, h.2.2⟩
    | right => exact ⟨⟨hst _ h.1.1, h.1.2⟩, h.2⟩

end Job

theorem Stream.Awaited.absorbed {s t : Stream} {ds : List Deed} {ticket : Option Nat}
    (h : s.Awaited ticket) (ha : s.Absorbed ds t) : t.Awaited ticket := by
  rw [ha.eq_foldl]
  clear ha
  induction ds generalizing s with
  | nil => exact h
  | cons d ds ih =>
    cases d with
    | wrote text ok => exact ih (h.put text)
    | got want answer => exact ih h

theorem OpenFile.stream_clear {f f' : OpenFile} {st st' : Store} (h : f.clear st = .ok (f', st')) :
    f'.stream = f.stream := by
  unfold clear at h
  split at h
  · cases h
  · cases h
    rfl

section

variable {outer inner sc : Scene} {ds : List Deed}

theorem Frame.stdin_enter (frame : Frame) (sc : Scene) :
    (frame.enter sc).stdin = frame.inputWith sc.stdin := by
  cases frame <;> rfl

theorem Side.stdin_sideScene (side : Side) (sc : Scene) (buffer : Stream) :
    (Job.sideScene sc buffer side).stdin = side.input buffer sc.stdin := by
  cases side <;> rfl

theorem Frame.Fits.leave {frame frame' : Frame} (h : frame.Fits outer.stdin)
    (hdid : (frame.enter outer).Did ds inner) (hleave : frame.leave outer inner = (frame', sc)) :
    frame'.Fits sc.stdin ∧ frame'.inputWith sc.stdin = inner.stdin := by
  cases frame with
  | output sink =>
    cases hleave
    exact ⟨Stream.Awaited.absorbed h hdid.output, rfl⟩
  | input source =>
    cases hleave
    exact ⟨⟨h.1, hdid.input.closed.trans h.2⟩, rfl⟩

/-- When what is inside a frame has ended, nobody waits any more. -/
theorem Frame.Fits.idle {frame : Frame} {stdin : Stream} (h : frame.Fits stdin)
    (hin : (frame.inputWith stdin).Awaited none) :
    frame.stream.Awaited none ∧ stdin.Awaited none := by
  cases frame with
  | output sink => exact ⟨h, hin⟩
  | input source => exact ⟨hin, h.1⟩

theorem Side.Fits.leave {side : Side} {buffer buffer' : Stream} (h : side.Fits buffer outer.stdin)
    (hdid : (Job.sideScene outer buffer side).Did ds inner)
    (hleave : Job.leaveSide outer inner side = (buffer', sc)) :
    side.Fits buffer' sc.stdin ∧ side.input buffer' sc.stdin = inner.stdin := by
  cases side with
  | left =>
    cases hleave
    exact ⟨trivial, rfl⟩
  | right =>
    cases hleave
    exact ⟨⟨h.1, hdid.input.closed.trans h.2⟩, rfl⟩

theorem Side.Fits.idle {side : Side} {buffer stdin : Stream} (h : side.Fits buffer stdin)
    (hin : (side.input buffer stdin).Awaited none) : stdin.Awaited none := by
  cases side with
  | left => exact hin
  | right => exact h.1

end

namespace Job

/-- A file that is handed out has no reader. -/
theorem awaited_handOut (host : Host) (sc : Scene) (name : String) (overwrite : Bool) :
    (handOut host sc name overwrite).1.stdin = sc.stdin ∧
      (handOut host sc name overwrite).2.stream.Awaited none := by
  have hopened (store : Store) : (store.openFile name).stream.Awaited none :=
    (Stream.Awaited.of_fresh rfl rfl).put _
  have hfile (store : Store) :
      (if host.sealed name then (store.openFile name).shut else store.openFile name).stream.Awaited
        none := by
    split
    · exact (hopened store).shut
    · exact hopened store
  unfold handOut
  dsimp only
  split
  · split
    · rename_i hclear
      refine ⟨rfl, ?_⟩
      dsimp only
      rw [OpenFile.stream_clear hclear]
      exact hfile _
    · exact ⟨rfl, hfile _⟩
  · exact ⟨rfl, hfile _⟩

theorem fits_afterRight {outer : Scene} {left : Job} {k : Int → Job}
    {r : Scene × Progress Job Int} (hleft : left.Fits outer.stdin)
    (hk : ∀ status s, Stream.Awaited s none → (k status).Fits s)
    (h : r.2.Fits Fits r.1.stdin) :
    (afterRight outer left k r).2.Fits Fits (afterRight outer left k r).1.stdin := by
  obtain ⟨inner, progress⟩ := r
  cases progress with
  | finished status => exact ⟨trivial, hleft, hk⟩
  | waiting right => exact ⟨hleft, h, hk⟩
  | interrupted right => exact ⟨hleft, h, hk⟩

section

variable {host : Host} {p : Job} {outer inner sc : Scene} {out : Progress Job Int}

theorem fits_within {frame frame' : Frame} {k : Frame → Int → Job}
    (hpoll : p.poll host (frame.enter outer) = (inner, out))
    (hleave : frame.leave outer inner = (frame', sc)) (h : (within frame p k).Fits outer.stdin)
    (ih : p.Fits (frame.enter outer).stdin → (p.poll host (frame.enter outer)).2.Fits Fits
      (p.poll host (frame.enter outer)).1.stdin) :
    frame'.Fits sc.stdin ∧ out.Fits Fits (frame'.inputWith sc.stdin) := by
  have hdid := p.did_poll host (frame.enter outer)
  rw [frame.stdin_enter] at ih
  have hout := ih h.2.1
  rw [hpoll] at hdid hout
  obtain ⟨hframe, hstdin⟩ := Frame.Fits.leave h.1 hdid hleave
  exact ⟨hframe, hstdin ▸ hout⟩

theorem fits_left {buffer filled : Stream}
    (hpoll : p.poll host (sideScene outer buffer .left) = (inner, out))
    (hleave : leaveSide outer inner .left = (filled, sc)) (h : p.Fits outer.stdin) {right : Job}
    (hright : right.Fits buffer)
    (ih : p.Fits (sideScene outer buffer .left).stdin →
      (p.poll host (sideScene outer buffer .left)).2.Fits Fits
        (p.poll host (sideScene outer buffer .left)).1.stdin) :
    out.Fits Fits sc.stdin ∧ right.Fits filled := by
  have hdid := p.did_poll host (sideScene outer buffer .left)
  have hout := ih h
  rw [hpoll] at hdid hout
  cases hleave
  have habsorbed : buffer.Absorbed _ inner.stdout.toStream := hdid.output
  exact ⟨hout, hright.of_awaited fun _ hawaited => hawaited.absorbed habsorbed⟩

theorem fits_settle {side : Side} {buffer buffer' : Stream}
    (hpoll : p.poll host (sideScene outer buffer side) = (inner, out))
    (hleave : leaveSide outer inner side = (buffer', sc)) (hside : side.Fits buffer outer.stdin)
    (h : p.Fits (side.input buffer outer.stdin))
    (ih : p.Fits (sideScene outer buffer side).stdin →
      (p.poll host (sideScene outer buffer side)).2.Fits Fits
        (p.poll host (sideScene outer buffer side)).1.stdin) :
    side.Fits buffer' sc.stdin ∧ out.Fits Fits (side.input buffer' sc.stdin) := by
  have hdid := p.did_poll host (sideScene outer buffer side)
  rw [side.stdin_sideScene] at ih
  have hout := ih h
  rw [hpoll] at hdid hout
  obtain ⟨hside', hstdin⟩ := hside.leave hdid hleave
  exact ⟨hside', hstdin ▸ hout⟩

end

theorem fits_poll (host : Host) (p : Job) (sc : Scene) (h : p.Fits sc.stdin) :
    (p.poll host sc).2.Fits Fits (p.poll host sc).1.stdin := by
  fun_induction Job.poll host p sc with
  | case1 status sc => exact h
  | case2 text k sc ih => exact ih (by rw [Scene.stdin_write]; exact h)
  | case3 name k sc ih => exact ih (h _)
  | case4 name overwrite k sc sc' file hfile ih =>
    obtain ⟨hstdin, hidle⟩ := awaited_handOut host sc name overwrite
    rw [hfile] at hstdin hidle
    exact ih (hstdin ▸ h file hidle)
  | case5 cancellable argv k sc hfired ih => exact ih (h.2 _ _ h.1)
  | case6 cancellable argv k sc hfired name sc' status hresume ih =>
    have hfits := (host.exec argv).fits_resume .nothing (sc.record (.exec argv)) (.of_nothing h.1)
    rw [hresume] at hfits
    exact ih (h.2 _ _ hfits)
  | case7 cancellable argv k sc hfired name sc' state hresume
  | case8 cancellable argv k sc hfired name sc' state hresume =>
    have hfits := (host.exec argv).fits_resume .nothing (sc.record (.exec argv)) (.of_nothing h.1)
    rw [hresume] at hfits
    exact ⟨hfits, h.2⟩
  | case9 name state k sc sc' status hresume ih =>
    have hfits := state.program.fits_resume state.wait sc h.1
    rw [Suspended.resume] at hresume
    rw [hresume] at hfits
    exact ih (h.2 _ _ hfits)
  | case10 name state k sc sc' state' hresume
  | case11 name state k sc sc' state' hresume =>
    have hfits := state.program.fits_resume state.wait sc h.1
    rw [Suspended.resume] at hresume
    rw [hresume] at hfits
    exact ⟨hfits, h.2⟩
  | case12 frame inner k outer sc frame' sc' hleave status hpoll ihi ihk =>
    obtain ⟨hframe, hinner⟩ := fits_within hpoll hleave h ihi
    obtain ⟨hstream, hstdin⟩ := hframe.idle hinner
    exact ihk (h.2.2 _ _ _ hstream hstdin)
  | case13 frame inner k outer sc frame' sc' hleave inner' hpoll ihi
  | case14 frame inner k outer sc frame' sc' hleave inner' hpoll ihi =>
    obtain ⟨hframe, hinner⟩ := fits_within hpoll hleave h ihi
    exact ⟨hframe, hinner, h.2.2⟩
  | case15 buffer left right k outer inner filled sc hleave status inner' buffer' sc' hleave' status'
      hpoll hpoll' ihl ihr ihk =>
    obtain ⟨hleft, hright⟩ := fits_left hpoll hleave h.1 h.2.1 ihl
    have hside : Side.right.Fits filled.shut sc.stdin := ⟨hleft, filled.closed_shut⟩
    obtain ⟨hside', hdone⟩ := fits_settle hpoll' hleave' hside
      (hright.of_awaited fun _ hawaited => hawaited.shut) ihr
    exact ihk (h.2.2 _ _ (hside'.idle hdone))
  | case16 buffer left right k outer inner filled sc hleave status inner' buffer' sc' hleave' right'
      hpoll hpoll' ihl ihr
  | case17 buffer left right k outer inner filled sc hleave status inner' buffer' sc' hleave' right'
      hpoll hpoll' ihl ihr =>
    obtain ⟨hleft, hright⟩ := fits_left hpoll hleave h.1 h.2.1 ihl
    have hside : Side.right.Fits filled.shut sc.stdin := ⟨hleft, filled.closed_shut⟩
    obtain ⟨hside', hwaits⟩ := fits_settle hpoll' hleave' hside
      (hright.of_awaited fun _ hawaited => hawaited.shut) ihr
    exact ⟨hside', hwaits, h.2.2⟩
  | case18 buffer left right k outer inner filled sc hleave left' hpoll ihl ihr =>
    obtain ⟨hleft, hright⟩ := fits_left hpoll hleave h.1 h.2.1 ihl
    exact fits_afterRight hleft h.2.2 (ihr hright)
  | case19 buffer left right k outer inner filled sc hleave left' hpoll ihl =>
    obtain ⟨hleft, hright⟩ := fits_left hpoll hleave h.1 h.2.1 ihl
    exact ⟨hleft, hright, h.2.2⟩
  | case20 buffer left right k sc ihr => exact fits_afterRight h.1 h.2.2 (ihr h.2.1)
  | case21 side status buffer rest k outer inner buffer' sc hleave status' hpoll ih ihk =>
    obtain ⟨hside, hdone⟩ := fits_settle hpoll hleave h.1 h.2.1 ih
    exact ihk (h.2.2 _ _ (hside.idle hdone))
  | case22 side status buffer rest k outer inner buffer' sc hleave rest' hpoll ih
  | case23 side status buffer rest k outer inner buffer' sc hleave rest' hpoll ih =>
    obtain ⟨hside, hwaits⟩ := fits_settle hpoll hleave h.1 h.2.1 ih
    exact ⟨hside, hwaits, h.2.2⟩

/-! ## Jobs that do not get on -/

/-- The command `name` of a job waits with a ticket for the standard input of the whole job. -/
inductive Parked (name : String) (n : Nat) : Job → Prop where
  | command {state : Suspended Int} {k : Int → Job} (h : state.wait = .ticket n) :
    Parked name n (.command name state k)
  | output {sink : Sink} {inner : Job} {k : Frame → Int → Job} (h : Parked name n inner) :
    Parked name n (.within (.output sink) inner k)
  | left {turn : Side} {buffer : Stream} {left right : Job} {k : Int → Job}
    (h : Parked name n left) : Parked name n (.pipe turn buffer left right k)
  | rest {status : Int} {buffer : Stream} {rest : Job} {k : Int → Job} (h : Parked name n rest) :
    Parked name n (.settle .left status buffer rest k)

/-- A command of the job stands in the queue of its standard input, which is open and empty. -/
structure WaitsFor (p : Job) (stdin : Stream) : Prop where
  parked : ∃ name n, p.Parked name n ∧ { ticket := n } ∈ stdin.waiters
  isOpen : stdin.closed = false
  isEmpty : stdin.text = []

/-- A job that would not get on waits for its own standard input, and no cancellation has reached
it there. The streams inside are no reason of their own: such a stream is closed, or the left side
that writes to it waits as well, and the same is true of that side. -/
theorem Fits.waitsFor {p : Job} {stdin : Stream} {fired : Bool} (h : p.Fits stdin)
    (hready : p.ready stdin fired = false) :
    p.WaitsFor stdin ∧ (stdin.cancellable && fired) = false := by
  induction p generalizing stdin with
  | exit | emit | lookup | openFile | exec => cases hready
  | command name state k ih =>
    rw [ready, Suspended.ready] at hready
    have hawaited := h.1.awaited
    cases hwait : state.wait with
    | nothing | paused => simp [hwait] at hready
    | ticket n =>
      rw [hwait] at hready hawaited
      obtain ⟨hmem, hopen, hempty, hquiet⟩ := hawaited.of_not_calls hready
      exact ⟨⟨⟨name, n, .command hwait, hmem⟩, hopen, hempty⟩, hquiet⟩
  | within frame inner k ih ihk =>
    obtain ⟨hwaits, hquiet⟩ := ih h.2.1 hready
    cases frame with
    | output sink =>
      obtain ⟨name, n, hparked, hmem⟩ := hwaits.parked
      exact ⟨⟨⟨name, n, .output hparked, hmem⟩, hwaits.isOpen, hwaits.isEmpty⟩, hquiet⟩
    | input source => exact absurd h.1.2 (Bool.eq_false_iff.1 hwaits.isOpen)
  | pipe turn buffer left right k ihl ihr ihk =>
    rw [ready, Bool.or_eq_false_iff] at hready
    obtain ⟨hwaits, hquiet⟩ := ihl h.1 hready.1
    obtain ⟨name, n, hparked, hmem⟩ := hwaits.parked
    exact ⟨⟨⟨name, n, .left hparked, hmem⟩, hwaits.isOpen, hwaits.isEmpty⟩, hquiet⟩
  | settle side status buffer rest k ih ihk =>
    cases side with
    | left =>
      obtain ⟨hwaits, hquiet⟩ := ih h.2.1 hready
      obtain ⟨name, n, hparked, hmem⟩ := hwaits.parked
      exact ⟨⟨⟨name, n, .rest hparked, hmem⟩, hwaits.isOpen, hwaits.isEmpty⟩, hquiet⟩
    | right =>
      obtain ⟨hwaits, -⟩ := ih h.2.1 hready
      exact absurd h.1.2 (Bool.eq_false_iff.1 hwaits.isOpen)

end Job

end PocketShell
