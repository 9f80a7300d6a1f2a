import Mathlib.Logic.Relation
import PocketShell.Proofs.Run.Waiting

/-!
# Jobs get on only finitely often

Between two events a job is polled as long as it gets on. That comes to an end, although every side
of a pipe may bring the other one to life again: a side that writes has moved on, and what it writes
can only be read once.

* `Job.idle` : nothing in the job moves when it is polled (`Job.poll_of_idle`);
* `Job.Leaves` : what a poll leaves to be done;
* `Job.Below` : what a poll that moves something leaves, together with the amount of input;
* `Job.Wanes` : whatever becomes of the job, and however its input grows in the meantime, it is
  accessible for `Below`;
* `Job.wanes` : every job wanes, by induction over the job. A command moves on in its program, a
  relay in its program or its input; a pipe in its left side, or else in its right side.
-/

namespace PocketShell

/-! ## Polls in which nothing happens -/

theorem Suspended.resume_of_not_ready {α : Type} {state : Suspended α} {sc : Scene}
    (h : state.Fits sc.stdin) (hready : state.ready sc.stdin sc.fired = false) :
    state.resume sc = (sc, .waiting state) := by
  obtain ⟨wait, p⟩ := state
  cases wait with
  | nothing | paused => cases hready
  | ticket n =>
    have hcalls : sc.stdin.calls sc.world.cancellation.fired n = false := hready
    have hasks : p.asks = true := h.asks rfl
    cases p with
    | read want k
    | relay render seen k =>
      unfold resume Program.resume
      simp only [Wait.ticket?, Stream.poll_of_not_calls _ hcalls]
    | done | write | complain | file | save | pause | cancel => cases hasks

section

variable {α : Type} {wait : Wait} {sc : Scene}

/-- A program in front of a read goes on, or it waits. If it has waited before, it has not been
called. -/
theorem Program.resume_read {want : Want} {k : Except Fault String → Program α}
    (h : Suspended.Fits ⟨wait, read want k⟩ sc.stdin) :
    (∃ answer sc₁, Stream.Awaited sc₁.stdin none ∧
        (read want k).resume wait sc = (k answer).resume .nothing sc₁) ∨
      ∃ n sc₁, (read want k).resume wait sc = (sc₁, .waiting ⟨.ticket n, read want k⟩) ∧
        ∀ m, wait = .ticket m → sc.stdin.calls sc.fired m = false := by
  rcases hpoll : sc.stdin.poll want.serve sc.world.cancellation wait.ticket? with ⟨stdin, c, out⟩
  have hpolls := Stream.polls_of_eq hpoll
  cases out with
  | ready answer =>
    refine .inl ⟨answer, { sc with stdin := stdin, world := { sc.world with cancellation := c } },
      h.awaited.polls hpolls, ?_⟩
    simp only [resume, hpoll]
  | waiting n =>
    refine .inr ⟨n, { sc with stdin := stdin, world := { sc.world with cancellation := c } }, ?_, ?_⟩
    · simp only [resume, hpoll]
    · rintro m rfl
      exact (h.awaited.polls_waiting hpolls).2.2.2

/-- A relay goes on, or it waits with nothing to read. If it has waited before, it has read
something now or has not been called. -/
theorem Program.resume_relay {render : String → Option String} {seen : String}
    {k : String → Stop → Program α} (h : Suspended.Fits ⟨wait, relay render seen k⟩ sc.stdin) :
    (∃ seen' stop sc₁, Stream.Awaited sc₁.stdin none ∧
        (relay render seen k).resume wait sc = (k seen' stop).resume .nothing sc₁) ∨
      ∃ n seen' sc₁,
        (relay render seen k).resume wait sc = (sc₁, .waiting ⟨.ticket n, relay render seen' k⟩) ∧
        sc₁.stdin.text = [] ∧
        ∀ m, wait = .ticket m → sc.stdin.text = [] → sc.stdin.calls sc.fired m = false := by
  rcases hpoll : sc.stdin.poll Stream.takeChunk? sc.world.cancellation wait.ticket? with
    ⟨stdin, c, out⟩
  have hpolls := Stream.polls_of_chunk hpoll
  let sc₁ := { sc with stdin := stdin, world := { sc.world with cancellation := c } }
  cases out with
  | waiting n =>
    refine .inr ⟨n, seen, sc₁, ?_, h.awaited.empty_of_waiting hpolls, ?_⟩
    · simp only [resume, hpoll, sc₁]
    · rintro m rfl -
      exact (h.awaited.polls_waiting hpolls).2.2.2
  | ready answer =>
    cases answer with
    | error cause =>
      refine .inl ⟨seen, .ended cause, sc₁, h.awaited.polls hpolls, ?_⟩
      simp only [resume, hpoll, sc₁]
    | ok chunk =>
      rcases hwrite : ((render chunk).map sc₁.write).getD (sc₁, true) with ⟨sc₂, ok⟩
      obtain ⟨hawaited, hempty⟩ := awaited_relayed h.awaited hpoll hwrite
      cases ok with
      | false =>
        refine .inl ⟨seen ++ chunk, .refused, sc₂, hawaited, ?_⟩
        simp only [resume, hpoll]
        rw [hwrite]
        rfl
      | true =>
        rcases hawait : sc₂.stdin.await sc₂.fired with ⟨stdin', more⟩
        cases more with
        | error cause =>
          refine .inl ⟨seen ++ chunk, .ended cause, { sc₂ with stdin := stdin' },
            hawaited.await hempty hawait, ?_⟩
          simp only [resume, hpoll]
          rw [hwrite]
          simp only [if_true, hawait]
        | ok n =>
          have hnothing := sc₂.stdin.text_await sc₂.fired
          rw [hawait, hempty] at hnothing
          refine .inr ⟨n, seen ++ chunk, { sc₂ with stdin := stdin' }, ?_, hnothing, ?_⟩
          · simp only [resume, hpoll]
            rw [hwrite]
            simp only [if_true, hawait]
          · exact fun m _ hnil => absurd hnil hpolls.ne_nil

end

/-- How much there is to read inside a frame. -/
def Frame.amount : Frame → Nat → Nat
  | output _, n => n
  | input source, _ => source.text.length

/-- How much there is to read for one side of a pipe. -/
def Side.amount : Side → Stream → Nat → Nat
  | left, _, n => n
  | right, buffer, _ => buffer.text.length

namespace Job

/-- Nothing moves when the job is polled. -/
def idle : Job → Stream → Bool → Bool
  | command _ state _, stdin, fired => !state.ready stdin fired
  | within frame inner _, stdin, fired => inner.idle (frame.inputWith stdin) fired
  | pipe .left buffer left right _, stdin, fired => left.idle stdin fired && right.idle buffer fired
  | settle side _ buffer rest _, stdin, fired => rest.idle (side.input buffer stdin) fired
  | _, _, _ => false

theorem not_ready_of_idle {p : Job} {stdin : Stream} {fired : Bool}
    (h : p.idle stdin fired = true) : p.ready stdin fired = false := by
  induction p generalizing stdin with
  | exit | emit | lookup | openFile | exec => cases h
  | command name state k ih => simpa [idle, ready] using h
  | within frame inner k ih ihk => exact ih h
  | pipe turn buffer left right k ihl ihr ihk =>
    cases turn with
    | left =>
      rw [idle, Bool.and_eq_true] at h
      rw [ready, ihl h.1, ihr h.2]
      rfl
    | right => cases h
  | settle side status buffer rest k ih ihk =>
    cases side with
    | left => exact ih h
    | right => exact ih h

theorem poll_of_idle (host : Host) {p : Job} {sc : Scene} (h : p.Fits sc.stdin)
    (hidle : p.idle sc.stdin sc.fired = true) : p.poll host sc = (sc, .waiting p) := by
  induction p generalizing sc with
  | exit | emit | lookup | openFile | exec => cases hidle
  | command name state k ih =>
    have hready : state.ready sc.stdin sc.fired = false := by simpa [idle] using hidle
    simp only [poll, Suspended.resume_of_not_ready h.1 hready]
  | within frame inner k ih ihk =>
    have hinner : inner.poll host (frame.enter sc) = (frame.enter sc, .waiting inner) := by
      apply ih
      · rw [frame.stdin_enter]
        exact h.2.1
      · rw [frame.stdin_enter]
        cases frame <;> exact hidle
    have hleave : frame.leave sc (frame.enter sc) = (frame, sc) := by cases frame <;> rfl
    simp only [poll, hinner, hleave]
  | pipe turn buffer left right k ihl ihr ihk =>
    cases turn with
    | right => cases hidle
    | left =>
      rw [idle, Bool.and_eq_true] at hidle
      have hleft : left.poll host (sideScene sc buffer .left) =
          (sideScene sc buffer .left, .waiting left) := ihl h.1 hidle.1
      have hright : right.poll host (sideScene sc buffer .right) =
          (sideScene sc buffer .right, .waiting right) := ihr h.2.1 hidle.2
      have hleave : leaveSide sc (sideScene sc buffer .left) .left = (buffer, sc) := rfl
      simp only [poll, hleft, hleave, hright]
      rfl
  | settle side status buffer rest k ih ihk =>
    have hrest : rest.poll host (sideScene sc buffer side) =
        (sideScene sc buffer side, .waiting rest) := by
      apply ih
      · rw [side.stdin_sideScene]
        exact h.2.1
      · rw [side.stdin_sideScene]
        cases side <;> exact hidle
    have hleave : leaveSide sc (sideScene sc buffer side) side = (buffer, sc) := by
      cases side <;> rfl
    simp only [poll, hrest, hleave]

/-! ## What polls leave -/

section

variable {host : Host}

/-- A poll of a job leaves something to be done. -/
structure Leaves (host : Host) (p : Job) (sc sc' : Scene) (q : Job) : Prop where
  fits : p.Fits sc.stdin
  polled : p.poll host sc = (sc', .waiting q) ∨ p.poll host sc = (sc', .interrupted q)

/-- A poll in which something has moved, with the amount of input before and after it. -/
inductive Below (host : Host) : Job × Nat → Job × Nat → Prop where
  | intro {p q : Job} {sc sc' : Scene} (h : p.Leaves host sc sc' q)
    (hmoves : p.idle sc.stdin sc.fired = false) :
    Below host (q, sc'.stdin.text.length) (p, sc.stdin.text.length)

/-- The job can move only finitely often without new input, now and whenever it has been polled.
The polls before may be in any scenes, so that input may have come in between. -/
def Wanes (host : Host) (p : Job) : Prop :=
  ∀ q, Relation.ReflTransGen (fun p q => ∃ sc sc', p.Leaves host sc sc' q) p q →
    ∀ n, Acc (Below host) (q, n)

namespace Wanes

variable {p q : Job} {sc sc' : Scene}

theorem acc (h : p.Wanes host) (n : Nat) : Acc (Below host) (p, n) := h p .refl n

theorem leaves (h : p.Wanes host) (hl : p.Leaves host sc sc' q) : q.Wanes host :=
  fun r hr n => h r (.head ⟨sc, sc', hl⟩ hr) n

/-- Jobs wane if they are accessible and polls keep to them. -/
theorem of_closed {S : Job → Prop}
    (hclosed : ∀ p sc sc' q, S p → p.Leaves host sc sc' q → S q)
    (hacc : ∀ p, S p → ∀ n, Acc (Below host) (p, n)) (h : S p) : p.Wanes host := by
  intro q hq
  have hS : S q := by
    induction hq with
    | refl => exact h
    | tail _ hl ih =>
      obtain ⟨sc, sc', hl⟩ := hl
      exact hclosed _ _ _ _ ih hl
  exact hacc q hS

end Wanes

theorem Leaves.of_eq {p q r : Job} {sc sc' sc₁ : Scene} (h : p.Leaves host sc sc' q)
    (hr : p.poll host sc = (sc₁, .waiting r) ∨ p.poll host sc = (sc₁, .interrupted r)) :
    q = r ∧ sc' = sc₁ := by
  rcases h.polled with hq | hq <;> rcases hr with hr | hr <;> rw [hq] at hr <;> cases hr <;>
    exact ⟨rfl, rfl⟩

/-- A job in which nothing moves is left as it is. -/
theorem Leaves.eq_of_idle {p q : Job} {sc sc' : Scene} (h : p.Leaves host sc sc' q)
    (hidle : p.idle sc.stdin sc.fired = true) : q = p :=
  (h.of_eq (.inl (poll_of_idle host h.fits hidle))).1

theorem acc_of_moves {p : Job} {n : Nat}
    (h : ∀ sc sc' q, p.Leaves host sc sc' q → p.idle sc.stdin sc.fired = false →
      sc.stdin.text.length = n → Acc (Below host) (q, sc'.stdin.text.length)) :
    Acc (Below host) (p, n) := by
  refine ⟨_, fun x hx => ?_⟩
  generalize hy : (p, n) = y at hx
  cases hx with
  | intro hl hmoves =>
    cases hy
    exact h _ _ _ hl hmoves rfl

/-- A job wanes if everything does that it moves on to. -/
theorem Wanes.of_moves {p : Job}
    (h : ∀ sc sc' q, p.Leaves host sc sc' q → p.idle sc.stdin sc.fired = false → q.Wanes host) :
    p.Wanes host := by
  refine .of_closed (S := fun q => q = p ∨ q.Wanes host) ?_ ?_ (.inl rfl)
  · rintro q sc sc' r (rfl | hq) hl
    · cases hidle : q.idle sc.stdin sc.fired with
      | true => exact .inl (hl.eq_of_idle hidle)
      | false => exact .inr (h _ _ _ hl hidle)
    · exact .inr (hq.leaves hl)
  · rintro q (rfl | hq) n
    · exact acc_of_moves fun sc sc' r hl hmoves _ => (h _ _ _ hl hmoves).acc _
    · exact hq.acc n

/-- A poll that comes to the same as another one leaves the same. -/
theorem Leaves.of_poll_eq {p p₁ q : Job} {sc sc₁ sc' : Scene} (h : p.Leaves host sc sc' q)
    (hpoll : p.poll host sc = p₁.poll host sc₁) (hfits : p₁.Fits sc₁.stdin) :
    p₁.Leaves host sc₁ sc' q :=
  ⟨hfits, hpoll ▸ h.polled⟩

/-! ## Commands -/

section

variable {name : String} {k : Int → Job}

/-- What a command leaves depends on its program only. -/
theorem Leaves.of_resume_eq {state state₁ : Suspended Int} {sc sc₁ sc' : Scene} {q : Job}
    (h : (command name state k).Leaves host sc sc' q)
    (hresume : state.resume sc = state₁.resume sc₁) (hfits : state₁.Fits sc₁.stdin) :
    (command name state₁ k).Leaves host sc₁ sc' q := by
  refine h.of_poll_eq ?_ ⟨hfits, h.fits.2⟩
  simp only [poll, hresume]

/-- A command whose program waits leaves a command. -/
theorem Leaves.of_waiting {state state₁ : Suspended Int} {sc sc₁ sc' : Scene} {q : Job}
    (h : (command name state k).Leaves host sc sc' q)
    (hresume : state.resume sc = (sc₁, .waiting state₁)) :
    q = command name state₁ k ∧ sc' = sc₁ := by
  refine h.of_eq (.inl ?_)
  simp only [poll, hresume]

/-- What a program goes on with is left to it. -/
theorem Wanes.of_resume_eq {p p₁ : Program Int} {wait : Wait} {sc sc₁ sc' : Scene} {q : Job}
    (h : (command name ⟨.nothing, p₁⟩ k).Wanes host)
    (hl : (command name ⟨wait, p⟩ k).Leaves host sc sc' q) (hidle : sc₁.stdin.Awaited none)
    (hresume : p.resume wait sc = p₁.resume .nothing sc₁) : q.Wanes host :=
  h.leaves (hl.of_resume_eq hresume (.of_nothing hidle))

theorem wanes_relay {render : String → Option String} {k' : String → Stop → Program Int}
    (h : ∀ seen stop, (command name ⟨.nothing, k' seen stop⟩ k).Wanes host) (wait : Wait)
    (seen : String) : (command name ⟨wait, .relay render seen k'⟩ k).Wanes host := by
  -- a relay that waits has read everything there was
  have hdry (n : Nat) (seen : String) :
      Acc (Below host) (command name ⟨.ticket n, .relay render seen k'⟩ k, 0) := by
    refine acc_of_moves fun sc sc' q hl hmoves hnil => ?_
    rcases Program.resume_relay hl.fits.1 with
      ⟨seen', stop, sc₁, hidle, hresume⟩ | ⟨m, seen', sc₁, -, -, hquiet⟩
    · exact ((h seen' stop).of_resume_eq hl hidle hresume).acc _
    · have hcalls := hquiet n rfl (List.eq_nil_of_length_eq_zero hnil)
      simp [idle, Suspended.ready, hcalls] at hmoves
  have hnext {wait : Wait} {seen : String} {sc sc' : Scene} {q : Job}
      (hl : (command name ⟨wait, .relay render seen k'⟩ k).Leaves host sc sc' q) :
      q.Wanes host ∨ sc'.stdin.text = [] ∧
        ∃ n seen', q = command name ⟨.ticket n, .relay render seen' k'⟩ k := by
    rcases Program.resume_relay hl.fits.1 with
      ⟨seen', stop, sc₁, hidle, hresume⟩ | ⟨n, seen', sc₁, hresume, hnil, -⟩
    · exact .inl ((h seen' stop).of_resume_eq hl hidle hresume)
    · obtain ⟨rfl, rfl⟩ := hl.of_waiting hresume
      exact .inr ⟨hnil, n, seen', rfl⟩
  refine .of_closed
    (S := fun q => (∃ wait seen, q = command name ⟨wait, .relay render seen k'⟩ k) ∨ q.Wanes host)
    ?_ ?_ (.inl ⟨wait, seen, rfl⟩)
  · rintro _ sc sc' q (⟨wait, seen, rfl⟩ | hq) hl
    · rcases hnext hl with hq | ⟨-, n, seen', rfl⟩
      · exact .inr hq
      · exact .inl ⟨.ticket n, seen', rfl⟩
    · exact .inr (hq.leaves hl)
  · rintro _ (⟨wait, seen, rfl⟩ | hq) n
    · refine acc_of_moves fun sc sc' q hl _ _ => ?_
      rcases hnext hl with hq | ⟨hnil, n, seen', rfl⟩
      · exact hq.acc _
      · rw [hnil]
        exact hdry n seen'
    · exact hq.acc n

/-- A command comes to its end if what follows it does, by induction over its program. -/
theorem wanes_command (hk : ∀ status, (k status).Wanes host) (p : Program Int) (wait : Wait) :
    (command name ⟨wait, p⟩ k).Wanes host := by
  induction p generalizing wait with
  | done status =>
    refine .of_moves fun sc sc' q hl _ => (hk status).leaves (hl.of_poll_eq rfl ?_)
    exact hl.fits.2 _ _ (hl.fits.1.idle rfl)
  | write text k' ih =>
    refine .of_moves fun sc sc' q hl _ => ?_
    have hidle : (sc.write text).1.stdin.Awaited none := by
      rw [Scene.stdin_write]
      exact hl.fits.1.idle rfl
    exact (ih _ .nothing).of_resume_eq hl hidle rfl
  | complain text k' ih =>
    refine .of_moves fun sc sc' q hl _ => ?_
    have hidle : (sc.complain text).1.stdin.Awaited none := by
      rw [Scene.stdin_complain]
      exact hl.fits.1.idle rfl
    exact (ih _ .nothing).of_resume_eq hl hidle rfl
  | read want k' ih =>
    have hcalled (n : Nat) : (command name ⟨.ticket n, .read want k'⟩ k).Wanes host := by
      refine .of_moves fun sc sc' q hl hmoves => ?_
      rcases Program.resume_read hl.fits.1 with
        ⟨answer, sc₁, hidle, hresume⟩ | ⟨m, sc₁, -, hquiet⟩
      · exact (ih answer .nothing).of_resume_eq hl hidle hresume
      · simp [idle, Suspended.ready, hquiet n rfl] at hmoves
    refine .of_moves fun sc sc' q hl _ => ?_
    rcases Program.resume_read hl.fits.1 with
      ⟨answer, sc₁, hidle, hresume⟩ | ⟨n, sc₁, hresume, -⟩
    · exact (ih answer .nothing).of_resume_eq hl hidle hresume
    · obtain ⟨rfl, -⟩ := hl.of_waiting hresume
      exact hcalled n
  | relay render seen k' ih => exact wanes_relay (fun seen stop => ih seen stop .nothing) wait seen
  | file text k' ih =>
    exact .of_moves fun sc sc' q hl _ =>
      (ih _ .nothing).of_resume_eq hl (hl.fits.1.idle rfl) rfl
  | save file text k' ih =>
    refine .of_moves fun sc sc' q hl _ => ?_
    have hidle : { sc with world := sc.world.save file text }.stdin.Awaited none :=
      hl.fits.1.idle rfl
    exact (ih () .nothing).of_resume_eq hl hidle rfl
  | pause k' ih =>
    have hpaused : (command name ⟨.paused, .pause k'⟩ k).Wanes host :=
      .of_moves fun sc sc' q hl _ => (ih () .nothing).of_resume_eq hl (hl.fits.1.idle rfl) rfl
    refine .of_moves fun sc sc' q hl _ => ?_
    by_cases hwait : wait = .paused
    · subst hwait
      exact hpaused.leaves hl
    · have hresume : (Program.pause k').resume wait sc = (sc, .waiting ⟨.paused, .pause k'⟩) := by
        rw [Program.resume, if_neg hwait]
      obtain ⟨rfl, -⟩ := hl.of_waiting hresume
      exact hpaused
  | cancel k' ih =>
    refine .of_moves fun sc sc' q hl _ => ?_
    have hidle : { sc with world := sc.world.cancel }.stdin.Awaited none := hl.fits.1.idle rfl
    exact (ih () .nothing).of_resume_eq hl hidle rfl

end

/-! ## Frames and pipes with one side left -/

/-- A job around another one that moves with it. `amount` is how much there is to read inside. -/
theorem Wanes.around {β : Type} (wrap : β → Job → Job) (amount : β → Nat → Nat)
    (hstep : ∀ b p sc sc' q, (wrap b p).Leaves host sc sc' q →
      q.Wanes host ∨ ∃ b' inner inner' p', p.Leaves host inner inner' p' ∧ q = wrap b' p' ∧
        inner.stdin.text.length = amount b sc.stdin.text.length ∧
        inner'.stdin.text.length = amount b' sc'.stdin.text.length ∧
        p.idle inner.stdin inner.fired = (wrap b p).idle sc.stdin sc.fired)
    {p : Job} (h : p.Wanes host) (b : β) : (wrap b p).Wanes host := by
  have hacc (x : Job × Nat) (hx : Acc (Below host) x) :
      x.1.Wanes host → ∀ b n, amount b n = x.2 → Acc (Below host) (wrap b x.1, n) := by
    induction hx with
    | intro x _ ih =>
      obtain ⟨p, m⟩ := x
      intro hp b n hn
      refine acc_of_moves fun sc sc' q hl hmoves hlength => ?_
      rcases hstep b p sc sc' q hl with
        hq | ⟨b', inner, inner', p', hl', rfl, hbefore, hafter, hidle⟩
      · exact hq.acc _
      · have hbelow : Below host (p', inner'.stdin.text.length) (p, inner.stdin.text.length) :=
          ⟨hl', hidle.trans hmoves⟩
        rw [hbefore, hlength, hn] at hbelow
        exact ih _ hbelow (hp.leaves hl') b' _ hafter.symm
  refine .of_closed (S := fun q => (∃ b p, q = wrap b p ∧ p.Wanes host) ∨ q.Wanes host) ?_ ?_
    (.inl ⟨b, p, rfl, h⟩)
  · rintro _ sc sc' q (⟨b, p, rfl, hp⟩ | hq) hl
    · rcases hstep b p sc sc' q hl with hq | ⟨b', inner, inner', p', hl', rfl, -⟩
      · exact .inr hq
      · exact .inl ⟨b', p', rfl, hp.leaves hl'⟩
    · exact .inr (hq.leaves hl)
  · rintro _ (⟨b, p, rfl, hp⟩ | hq) n
    · exact hacc (p, amount b n) (hp.acc _) hp b n rfl
    · exact hq.acc n

theorem wanes_within {frame : Frame} {inner : Job} {k : Frame → Int → Job}
    (h : inner.Wanes host) (hk : ∀ frame status, (k frame status).Wanes host) :
    (within frame inner k).Wanes host := by
  refine .around (fun frame p => within frame p k) Frame.amount ?_ h frame
  intro frame p outer sc' q hl
  rcases hpoll : p.poll host (frame.enter outer) with ⟨inner, out⟩
  rcases hleave : frame.leave outer inner with ⟨frame', sc⟩
  obtain ⟨hframe, hout⟩ := fits_within hpoll hleave hl.fits (p.fits_poll host _)
  have hfits : p.Fits (frame.enter outer).stdin := by
    rw [frame.stdin_enter]
    exact hl.fits.2.1
  have hbefore : (frame.enter outer).stdin.text.length =
      frame.amount outer.stdin.text.length := by cases frame <;> rfl
  have hafter : inner.stdin.text.length = frame'.amount sc.stdin.text.length := by
    cases frame <;> cases hleave <;> rfl
  have hidle : p.idle (frame.enter outer).stdin (frame.enter outer).fired =
      (within frame p k).idle outer.stdin outer.fired := by cases frame <;> rfl
  cases out with
  | finished status =>
    obtain ⟨hstream, hstdin⟩ := hframe.idle hout
    refine .inl ((hk frame' status).leaves (hl.of_poll_eq ?_ (hl.fits.2.2 _ _ _ hstream hstdin)))
    simp only [poll, hpoll, hleave]
  | waiting p' =>
    have hq : (within frame p k).poll host outer = (sc, .waiting (within frame' p' k)) := by
      simp only [poll, hpoll, hleave]
    obtain ⟨rfl, rfl⟩ := hl.of_eq (.inl hq)
    exact .inr ⟨frame', _, inner, p', ⟨hfits, .inl hpoll⟩, rfl, hbefore, hafter, hidle⟩
  | interrupted p' =>
    have hq : (within frame p k).poll host outer = (sc, .interrupted (within frame' p' k)) := by
      simp only [poll, hpoll, hleave]
    obtain ⟨rfl, rfl⟩ := hl.of_eq (.inr hq)
    exact .inr ⟨frame', _, inner, p', ⟨hfits, .inr hpoll⟩, rfl, hbefore, hafter, hidle⟩

theorem wanes_settle {side : Side} {status : Int} {buffer : Stream} {rest : Job} {k : Int → Job}
    (h : rest.Wanes host) (hk : ∀ status, (k status).Wanes host) :
    (settle side status buffer rest k).Wanes host := by
  refine .around (fun buffer p => settle side status buffer p k) side.amount ?_ h buffer
  intro buffer p outer sc' q hl
  rcases hpoll : p.poll host (sideScene outer buffer side) with ⟨inner, out⟩
  rcases hleave : leaveSide outer inner side with ⟨buffer', sc⟩
  obtain ⟨hside, hout⟩ := fits_settle hpoll hleave hl.fits.1 hl.fits.2.1 (p.fits_poll host _)
  have hfits : p.Fits (sideScene outer buffer side).stdin := by
    rw [side.stdin_sideScene]
    exact hl.fits.2.1
  have hbefore : (sideScene outer buffer side).stdin.text.length =
      side.amount buffer outer.stdin.text.length := by cases side <;> rfl
  have hafter : inner.stdin.text.length = side.amount buffer' sc.stdin.text.length := by
    cases side <;> cases hleave <;> rfl
  have hidle : p.idle (sideScene outer buffer side).stdin (sideScene outer buffer side).fired =
      (settle side status buffer p k).idle outer.stdin outer.fired := by cases side <;> rfl
  cases out with
  | finished status' =>
    refine .inl ((hk status).leaves (hl.of_poll_eq ?_ (hl.fits.2.2 _ _ (hside.idle hout))))
    simp only [poll, hpoll, hleave]
  | waiting p' =>
    have hq : (settle side status buffer p k).poll host outer =
        (sc, .waiting (settle side status buffer' p' k)) := by
      simp only [poll, hpoll, hleave]
    obtain ⟨rfl, rfl⟩ := hl.of_eq (.inl hq)
    exact .inr ⟨buffer', _, inner, p', ⟨hfits, .inl hpoll⟩, rfl, hbefore, hafter, hidle⟩
  | interrupted p' =>
    have hq : (settle side status buffer p k).poll host outer =
        (sc, .interrupted (settle side status buffer' p' k)) := by
      simp only [poll, hpoll, hleave]
    obtain ⟨rfl, rfl⟩ := hl.of_eq (.inr hq)
    exact .inr ⟨buffer', _, inner, p', ⟨hfits, .inr hpoll⟩, rfl, hbefore, hafter, hidle⟩

/-! ## Pipes -/

section

variable {k : Int → Job} {buffer : Stream} {left right q : Job} {turn : Side} {outer sc sc' : Scene}

/-- What is left after the right side has been polled while the left side waits. -/
theorem Leaves.right_cases (h : (pipe .right buffer left right k).Leaves host outer sc' q)
    (hleft : left.Wanes host) (hk : ∀ status, (k status).Wanes host) :
    sc'.stdin = outer.stdin ∧ (q.Wanes host ∨ ∃ turn inner right',
      right.Leaves host (sideScene outer buffer .right) inner right' ∧
      q = pipe turn inner.stdin left right' k ∧
      (right.idle buffer outer.fired = true →
        turn = .left ∧ inner.stdin = buffer ∧ right' = right)) := by
  have hfits : right.Fits buffer := h.fits.2.1
  have hpolled := h.polled
  have hidle (hi : right.idle buffer outer.fired = true) :
      right.poll host (sideScene outer buffer .right) =
        (sideScene outer buffer .right, .waiting right) :=
    poll_of_idle host hfits hi
  rcases hpoll : right.poll host (sideScene outer buffer .right) with ⟨inner, out⟩
  simp only [poll, hpoll] at hpolled
  rw [hpoll] at hidle
  cases out with
  | finished status =>
    rcases hpolled with hq | hq <;> cases hq
    exact ⟨rfl, .inl (wanes_settle hleft hk)⟩
  | waiting right' =>
    rcases hpolled with hq | hq <;> cases hq
    refine ⟨rfl, .inr ⟨.left, inner, right', ⟨hfits, .inl hpoll⟩, rfl, fun hi => ?_⟩⟩
    cases hidle hi
    exact ⟨rfl, rfl, rfl⟩
  | interrupted right' =>
    rcases hpolled with hq | hq <;> cases hq
    refine ⟨rfl, .inr ⟨.right, inner, right', ⟨hfits, .inr hpoll⟩, rfl, fun hi => ?_⟩⟩
    cases hidle hi

/-- What a poll of a pipe moves, with the amount of input before and after it: the pipe comes to its
end, or its left side moves, or only its right side does, or it is the left side's turn again. -/
inductive PipeMoves (host : Host) (k : Int → Job) (n m : Nat) :
    Side → Stream → Job → Job → Job → Prop where
  | ends {turn : Side} {buffer : Stream} {left right q : Job} (h : q.Wanes host) :
    PipeMoves host k n m turn buffer left right q
  | left {turn turn' : Side} {buffer buffer' : Stream} {left left' right right' : Job}
    (h : Below host (left', m) (left, n)) (hleft : left'.Wanes host) (hright : right'.Wanes host) :
    PipeMoves host k n m turn buffer left right (pipe turn' buffer' left' right' k)
  | right {turn turn' : Side} {buffer buffer' : Stream} {left right right' : Job}
    (h : Below host (right', buffer'.text.length) (right, buffer.text.length)) (hsame : m = n)
    (hright : right'.Wanes host) :
    PipeMoves host k n m turn buffer left right (pipe turn' buffer' left right' k)
  | turned {buffer : Stream} {left right : Job} (hsame : m = n) :
    PipeMoves host k n m .right buffer left right (pipe .left buffer left right k)

theorem Leaves.pipeMoves (h : (pipe turn buffer left right k).Leaves host outer sc' q)
    (hleft : left.Wanes host) (hright : right.Wanes host) (hk : ∀ status, (k status).Wanes host)
    (hmoves : (pipe turn buffer left right k).idle outer.stdin outer.fired = false) :
    PipeMoves host k outer.stdin.text.length sc'.stdin.text.length turn buffer left right q := by
  cases turn with
  | right =>
    obtain ⟨hstdin, hq | ⟨turn, inner, right', hl, rfl, hidle⟩⟩ := h.right_cases hleft hk
    · exact .ends hq
    · rw [hstdin]
      cases hi : right.idle buffer outer.fired with
      | true =>
        obtain ⟨rfl, hsame, rfl⟩ := hidle hi
        rw [hsame]
        exact .turned rfl
      | false => exact .right ⟨hl, hi⟩ rfl (hright.leaves hl)
  | left =>
    rcases hpoll : left.poll host (sideScene outer buffer .left) with ⟨inner, out⟩
    rcases hleave : leaveSide outer inner .left with ⟨filled, sc⟩
    obtain ⟨hout, hfits⟩ := fits_left hpoll hleave h.fits.1 h.fits.2.1 (left.fits_poll host _)
    have hstdin : sc.stdin = inner.stdin := by
      cases hleave
      rfl
    have hidle (hi : left.idle outer.stdin outer.fired = true) :
        (inner, out) = (sideScene outer buffer .left, .waiting left) :=
      hpoll.symm.trans (poll_of_idle host h.fits.1 hi)
    cases out with
    | finished status =>
      have hshut : right.Fits filled.shut := hfits.of_awaited fun _ hawaited => hawaited.shut
      have hrest := h.of_poll_eq (poll_pipe_of_finished hpoll hleave)
        ⟨⟨hout, filled.closed_shut⟩, hshut, h.fits.2.2⟩
      exact .ends ((wanes_settle hright hk).leaves hrest)
    | interrupted left' =>
      have hl : left.Leaves host (sideScene outer buffer .left) inner left' :=
        ⟨h.fits.1, .inr hpoll⟩
      have hi : left.idle outer.stdin outer.fired = false := by
        rw [Bool.eq_false_iff]
        intro hi
        cases hidle hi
      have hbelow : Below host (left', inner.stdin.text.length)
          (left, (sideScene outer buffer .left).stdin.text.length) := .intro hl hi
      obtain ⟨rfl, rfl⟩ := h.of_eq (.inr (poll_pipe_of_interrupted hpoll hleave))
      rw [hstdin]
      exact .left hbelow (hleft.leaves hl) hright
    | waiting left' =>
      have hl : left.Leaves host (sideScene outer buffer .left) inner left' :=
        ⟨h.fits.1, .inl hpoll⟩
      have hrest := h.of_poll_eq (poll_pipe_of_waiting hpoll hleave) ⟨hout, hfits, h.fits.2.2⟩
      obtain ⟨hsame, hq | ⟨turn, inner', right', hr, rfl, -⟩⟩ :=
        hrest.right_cases (hleft.leaves hl) hk
      · exact .ends hq
      · rw [hsame, hstdin]
        cases hi : left.idle outer.stdin outer.fired with
        | false =>
          have hbelow : Below host (left', inner.stdin.text.length)
              (left, (sideScene outer buffer .left).stdin.text.length) := .intro hl hi
          exact .left hbelow (hleft.leaves hl) (hright.leaves hr)
        | true =>
          -- nothing has happened on the left, so it is the right side that moves
          cases hidle hi
          cases hleave
          rw [idle, hi, Bool.true_and] at hmoves
          exact .right ⟨hr, hmoves⟩ rfl (hright.leaves hr)

end

/-- The outer induction is on the left side. Whenever it moves, the right side may have more to read,
and begins anew. -/
theorem acc_pipe {k : Int → Job} (hk : ∀ status, (k status).Wanes host) {x : Job × Nat}
    (hx : Acc (Below host) x) : x.1.Wanes host → ∀ right turn buffer, right.Wanes host →
      Acc (Below host) (pipe turn buffer x.1 right k, x.2) := by
  induction hx with
  | intro x _ ihleft =>
    obtain ⟨left, n⟩ := x
    intro hleft right turn buffer hright
    have hinner (y : Job × Nat) (hy : Acc (Below host) y) : y.1.Wanes host → ∀ turn buffer,
        buffer.text.length = y.2 → Acc (Below host) (pipe turn buffer left y.1 k, n) := by
      induction hy with
      | intro y _ ihright =>
        obtain ⟨right, m⟩ := y
        rintro hright turn buffer rfl
        have hmove (turn : Side) (hturn : turn = .right →
            Acc (Below host) (pipe .left buffer left right k, n)) :
            Acc (Below host) (pipe turn buffer left right k, n) := by
          refine acc_of_moves fun sc sc' q hl hmoves hn => ?_
          subst hn
          cases hl.pipeMoves hleft hright hk hmoves with
          | ends hq => exact hq.acc _
          | left hb hl' hr' => exact ihleft _ hb hl' _ _ _ hr'
          | right hb hsame hr' =>
            rw [hsame]
            exact ihright _ hb hr' _ _ rfl
          | turned hsame =>
            rw [hsame]
            exact hturn rfl
        have hfirst := hmove .left (by simp)
        cases turn with
        | left => exact hfirst
        | right => exact hmove .right fun _ => hfirst
    exact hinner (right, buffer.text.length) (hright.acc _) hright turn buffer rfl

theorem wanes_pipe {turn : Side} {buffer : Stream} {left right : Job} {k : Int → Job}
    (hleft : left.Wanes host) (hright : right.Wanes host) (hk : ∀ status, (k status).Wanes host) :
    (pipe turn buffer left right k).Wanes host := by
  refine .of_closed (S := fun q => (∃ turn buffer left right, q = pipe turn buffer left right k ∧
    left.Wanes host ∧ right.Wanes host) ∨ q.Wanes host) ?_ ?_
    (.inl ⟨turn, buffer, left, right, rfl, hleft, hright⟩)
  · rintro _ sc sc' q (⟨turn, buffer, left, right, rfl, hleft, hright⟩ | hq) hl
    · cases hidle : (pipe turn buffer left right k).idle sc.stdin sc.fired with
      | true =>
        rw [hl.eq_of_idle hidle]
        exact .inl ⟨turn, buffer, left, right, rfl, hleft, hright⟩
      | false =>
        cases hl.pipeMoves hleft hright hk hidle with
        | ends hq => exact .inr hq
        | left _ hl' hr' => exact .inl ⟨_, _, _, _, rfl, hl', hr'⟩
        | right _ _ hr' => exact .inl ⟨_, _, _, _, rfl, hleft, hr'⟩
        | turned => exact .inl ⟨_, _, _, _, rfl, hleft, hright⟩
    · exact .inr (hq.leaves hl)
  · rintro _ (⟨turn, buffer, left, right, rfl, hleft, hright⟩ | hq) n
    · exact acc_pipe hk (hleft.acc n) hleft right turn buffer hright
    · exact hq.acc n

/-! ## All jobs -/

/-- Every job wanes. -/
theorem wanes (host : Host) (p : Job) : p.Wanes host := by
  induction p with
  | exit status =>
    refine .of_moves fun sc sc' q hl _ => ?_
    rcases hl.polled with hq | hq <;> cases hq
  | emit text k ih =>
    refine .of_moves fun sc sc' q hl _ => ih.leaves (hl.of_poll_eq rfl ?_)
    rw [Scene.stdin_write]
    exact hl.fits
  | lookup name k ih =>
    exact .of_moves fun sc sc' q hl _ => (ih _).leaves (hl.of_poll_eq rfl (hl.fits _))
  | openFile name overwrite k ih =>
    refine .of_moves fun sc sc' q hl _ => ?_
    obtain ⟨hstdin, hidle⟩ := awaited_handOut host sc name overwrite
    rcases hfile : handOut host sc name overwrite with ⟨sc₁, file⟩
    rw [hfile] at hstdin hidle
    refine (ih file).leaves (hl.of_poll_eq ?_ (hstdin ▸ hl.fits file hidle))
    simp only [poll, hfile]
  | exec cancellable argv k ih =>
    refine .of_moves fun sc sc' q hl _ => ?_
    by_cases hfired : (cancellable && sc.fired) = true
    · refine (ih cancelledStatus).leaves (hl.of_poll_eq ?_ (hl.fits.2 _ _ hl.fits.1))
      rw [poll, if_pos hfired]
    · -- a command that is started is one that has been started, before it has done anything
      have hpoll : (exec cancellable argv k).poll host sc =
          (command (argv.headD "") ⟨.nothing, host.exec argv⟩ k).poll host
            (sc.record (.exec argv)) := by
        rw [poll, if_neg hfired, poll]
        rfl
      exact (wanes_command ih (host.exec argv) .nothing).leaves
        (hl.of_poll_eq hpoll ⟨.of_nothing hl.fits.1, hl.fits.2⟩)
  | command name state k ih => exact wanes_command ih state.program state.wait
  | within frame inner k ih ihk => exact wanes_within ih ihk
  | pipe turn buffer left right k ihl ihr ihk => exact wanes_pipe ihl ihr ihk
  | settle side status buffer rest k ih ihk => exact wanes_settle ih ihk

end

end Job

end PocketShell
