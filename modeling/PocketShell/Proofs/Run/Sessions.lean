import PocketShell.Proofs.Delivery
import PocketShell.Proofs.Run.Building
import PocketShell.Proofs.Run.Termination
import PocketShell.Run.Probe
import PocketShell.Run.Session
import PocketShell.Script.Parsing

/-!
# Sessions come to their end

A session polls its job while it gets on and lets the next event happen when it does not.

* `Session.watch` : a session together with its pauses, that is the states in which it waits for an
  event (`fst_watch` : it is the same session);
* `Session.Turn` : what one poll of a session comes to;
* `Session.waitsFor_of_mem_watch` : in every pause a command is parked on standard input;
* `Session.exists_job_eq` : a session that is long enough is not cut off;
* `Session.Due` : standard input has ended or been cancelled, or will be by an event that is to
  come. Such a session does not end in a pause.
-/

namespace PocketShell

namespace Session

variable {host : Host}

/-! ## Sessions and their pauses -/

/-- Runs a job, and notes the job and the scene whenever an event is waited for. -/
def watch (host : Host) :
    Nat → Job → Scene → List Event → (Scene × List Event × Ending Int) × List (Job × Scene)
  | 0, _, sc, events => ((sc, events, .exhausted), [])
  | n + 1, p, sc, events =>
    match p.poll host sc with
    | (sc, .finished status) => ((sc, events, .finished status), [])
    | (sc, .interrupted p) => watch host n p sc events
    | (sc, .waiting p) =>
      if p.ready sc.stdin sc.fired then watch host n p sc events
      else
        match events with
        | [] => ((sc, [], .blocked), [(p, sc)])
        | e :: events =>
          let (result, pauses) := watch host n p (applyEvent e sc) events
          (result, (p, sc) :: pauses)

theorem fst_watch (n : Nat) (p : Job) (sc : Scene) (events : List Event) :
    (watch host n p sc events).1 = job host n p sc events := by
  induction n generalizing p sc events with
  | zero => rfl
  | succ n ih =>
    unfold job drive watch
    rcases p.poll host sc with ⟨sc', progress⟩
    cases progress with
    | finished status => rfl
    | interrupted q => exact ih q sc' events
    | waiting q =>
      dsimp only
      split
      · exact ih q sc' events
      · cases events with
        | nil => rfl
        | cons e events => exact ih q (applyEvent e sc') events

/-- The pauses of jobs that are run one after the other. -/
def pauses (host : Host) (n : Nat) : List Job → Scene → List Event → List (Job × Scene)
  | [], _, _ => []
  | p :: ps, sc, events =>
    (watch host n p sc events).2 ++
      match job host n p sc events with
      | (sc, events, .finished _) => pauses host n ps sc events
      | _ => []

/-- What one poll of a session comes to. -/
inductive Turn (host : Host) (p : Job) (sc : Scene) (events : List Event) : Prop where
  | finished {sc' : Scene} {status : Int} (hpoll : p.poll host sc = (sc', .finished status))
    (hwatch : ∀ n, watch host (n + 1) p sc events = ((sc', events, .finished status), []))
  | goesOn {q : Job} {sc' : Scene}
    (hpoll : p.poll host sc = (sc', .waiting q) ∧ q.ready sc'.stdin sc'.fired = true ∨
      p.poll host sc = (sc', .interrupted q))
    (hwatch : ∀ n, watch host (n + 1) p sc events = watch host n q sc' events)
  | blocked {q : Job} {sc' : Scene} (hpoll : p.poll host sc = (sc', .waiting q))
    (hready : q.ready sc'.stdin sc'.fired = false) (hevents : events = [])
    (hwatch : ∀ n, watch host (n + 1) p sc events = ((sc', [], .blocked), [(q, sc')]))
  | event {q : Job} {sc' : Scene} {e : Event} {rest : List Event}
    (hpoll : p.poll host sc = (sc', .waiting q)) (hready : q.ready sc'.stdin sc'.fired = false)
    (hevents : events = e :: rest)
    (hwatch : ∀ n, watch host (n + 1) p sc events =
      ((watch host n q (applyEvent e sc') rest).1,
        (q, sc') :: (watch host n q (applyEvent e sc') rest).2))

theorem turn (host : Host) (p : Job) (sc : Scene) (events : List Event) :
    Turn host p sc events := by
  rcases hpoll : p.poll host sc with ⟨sc', progress⟩
  cases progress with
  | finished status => exact .finished hpoll fun n => by simp only [watch, hpoll]
  | interrupted q => exact .goesOn (.inr hpoll) fun n => by simp only [watch, hpoll]
  | waiting q =>
    cases hready : q.ready sc'.stdin sc'.fired with
    | true =>
      exact .goesOn (.inl ⟨hpoll, hready⟩) fun n => by simp only [watch, hpoll, hready, if_true]
    | false =>
      cases events with
      | nil =>
        exact .blocked hpoll hready rfl fun n => by
          simp only [watch, hpoll, hready, Bool.false_eq_true, if_false]
      | cons e rest =>
        exact .event hpoll hready rfl fun n => by
          simp only [watch, hpoll, hready, Bool.false_eq_true, if_false]

/-! ## Who waits during a session -/

theorem fits_applyEvent {p : Job} {sc : Scene} (h : p.Fits sc.stdin) (e : Event) :
    p.Fits (applyEvent e sc).stdin := h.of_awaited fun _ hawaited => e.awaited_apply hawaited _

section

variable {p q : Job} {sc sc' : Scene}

theorem awaited_of_finished {status : Int} (h : p.Fits sc.stdin)
    (hpoll : p.poll host sc = (sc', .finished status)) : sc'.stdin.Awaited none := by
  have hfits := p.fits_poll host sc h
  rw [hpoll] at hfits
  exact hfits

theorem fits_of_waiting (h : p.Fits sc.stdin) (hpoll : p.poll host sc = (sc', .waiting q)) :
    q.Fits sc'.stdin := by
  have hfits := p.fits_poll host sc h
  rw [hpoll] at hfits
  exact hfits

theorem fits_of_interrupted (h : p.Fits sc.stdin)
    (hpoll : p.poll host sc = (sc', .interrupted q)) : q.Fits sc'.stdin := by
  have hfits := p.fits_poll host sc h
  rw [hpoll] at hfits
  exact hfits

theorem fits_of_goesOn {b : Prop} (h : p.Fits sc.stdin)
    (hpoll : p.poll host sc = (sc', .waiting q) ∧ b ∨ p.poll host sc = (sc', .interrupted q)) :
    q.Fits sc'.stdin := by
  rcases hpoll with ⟨hpoll, -⟩ | hpoll
  · exact fits_of_waiting h hpoll
  · exact fits_of_interrupted h hpoll

end

/-- In every pause a command is parked on standard input. -/
theorem waitsFor_of_mem_watch (n : Nat) {p : Job} {sc : Scene} (events : List Event)
    (h : p.Fits sc.stdin) : ∀ x ∈ (watch host n p sc events).2, x.1.WaitsFor x.2.stdin := by
  induction n generalizing p sc events with
  | zero => intro x hx; cases hx
  | succ n ih =>
    cases turn host p sc events with
    | finished hpoll hwatch =>
      rw [hwatch]
      intro x hx
      cases hx
    | goesOn hpoll hwatch =>
      rw [hwatch]
      exact ih events (fits_of_goesOn h hpoll)
    | blocked hpoll hready hevents hwatch =>
      rw [hwatch]
      intro x hx
      rw [List.mem_singleton] at hx
      subst hx
      exact ((fits_of_waiting h hpoll).waitsFor hready).1
    | event hpoll hready hevents hwatch =>
      have hfits := fits_of_waiting h hpoll
      rw [hwatch]
      intro x hx
      rcases List.mem_cons.1 hx with rfl | hx
      · exact (hfits.waitsFor hready).1
      · exact ih _ (fits_applyEvent hfits _) x hx

/-- After a session nobody waits. -/
theorem awaited_of_job_finished {n : Nat} {p : Job} {sc sc' : Scene} {events rest : List Event}
    {status : Int} (h : p.Fits sc.stdin)
    (hjob : job host n p sc events = (sc', rest, .finished status)) : sc'.stdin.Awaited none := by
  rw [← fst_watch] at hjob
  induction n generalizing p sc events with
  | zero => cases hjob
  | succ n ih =>
    cases turn host p sc events with
    | finished hpoll hwatch =>
      rw [hwatch] at hjob
      cases hjob
      exact awaited_of_finished h hpoll
    | goesOn hpoll hwatch =>
      rw [hwatch] at hjob
      exact ih (fits_of_goesOn h hpoll) hjob
    | blocked hpoll hready hevents hwatch =>
      rw [hwatch] at hjob
      cases hjob
    | event hpoll hready hevents hwatch =>
      rw [hwatch] at hjob
      exact ih (fits_applyEvent (fits_of_waiting h hpoll) _) hjob

/-! ## Sessions that are long enough -/

/-- The session ends in some way other than being cut off, and stays as it is when it may be
longer. -/
def Settles (host : Host) (p : Job) (sc : Scene) (events : List Event) : Prop :=
  ∃ N sc' rest ending, ending ≠ .exhausted ∧
    ∀ n, N ≤ n → job host n p sc events = (sc', rest, ending)

section

variable {p q : Job} {sc sc' : Scene} {events rest : List Event}

theorem Settles.of_eq {ending : Ending Int}
    (h : ∀ n, (watch host (n + 1) p sc events).1 = (sc', rest, ending))
    (hending : ending ≠ .exhausted) : Settles host p sc events := by
  refine ⟨1, sc', rest, ending, hending, fun n hn => ?_⟩
  obtain ⟨n, rfl⟩ := Nat.exists_eq_add_of_le' hn
  rw [← fst_watch]
  exact h n

theorem Settles.of_next (h : Settles host q sc' rest)
    (hnext : ∀ n, (watch host (n + 1) p sc events).1 = (watch host n q sc' rest).1) :
    Settles host p sc events := by
  obtain ⟨N, sc'', left, ending, hending, heq⟩ := h
  refine ⟨N + 1, sc'', left, ending, hending, fun n hn => ?_⟩
  obtain ⟨n, rfl⟩ : ∃ m, n = m + 1 := ⟨n - 1, by omega⟩
  rw [← fst_watch, hnext, fst_watch]
  exact heq n (by omega)

/-- Between two events a session polls finitely often, since its job wanes. -/
theorem settles_of_acc (hlater : ∀ e rest, events = e :: rest → ∀ p sc, p.Fits sc.stdin →
    Settles host p sc rest) {x : Job × Nat} (hx : Acc (Job.Below host) x) :
    ∀ sc : Scene, x.1.Fits sc.stdin → sc.stdin.text.length = x.2 →
      Settles host x.1 sc events := by
  induction hx with
  | intro x _ ih =>
    obtain ⟨p, m⟩ := x
    rintro sc hfits rfl
    cases turn host p sc events with
    | finished hpoll hwatch
    | blocked hpoll hready hevents hwatch =>
      exact .of_eq (fun n => congrArg Prod.fst (hwatch n)) (by simp)
    | event hpoll hready hevents hwatch =>
      exact .of_next (hlater _ _ hevents _ _ (fits_applyEvent (fits_of_waiting hfits hpoll) _))
        fun n => by rw [hwatch]
    | goesOn hpoll hwatch =>
      have hmoves : p.idle sc.stdin sc.fired = false := by
        rw [Bool.eq_false_iff]
        intro hidle
        rw [Job.poll_of_idle host hfits hidle] at hpoll
        rcases hpoll with ⟨hpoll, hready⟩ | hpoll
        · cases hpoll
          rw [Job.not_ready_of_idle hidle] at hready
          cases hready
        · cases hpoll
      have hbelow := Job.Below.intro ⟨hfits, hpoll.imp_left And.left⟩ hmoves
      exact .of_next (ih _ hbelow _ (fits_of_goesOn hfits hpoll) rfl) fun n => by rw [hwatch]

/-- Every session settles. -/
theorem settles (host : Host) (events : List Event) (p : Job) (sc : Scene) (h : p.Fits sc.stdin) :
    Settles host p sc events := by
  induction events generalizing p sc with
  | nil =>
    refine settles_of_acc ?_ ((p.wanes host).acc _) sc h rfl
    intro e rest hnil
    cases hnil
  | cons e events ih =>
    refine settles_of_acc ?_ ((p.wanes host).acc _) sc h rfl
    rintro _ _ ⟨⟩ p sc hfits
    exact ih p sc hfits

end

/-! ## Sessions whose input ends -/

/-- Standard input has ended or been cancelled, or will be. -/
def Due (sc : Scene) (events : List Event) : Prop :=
  (sc.stdin.closed = true ∨ .close ∈ events.flatMap Event.parts) ∨
    sc.stdin.cancellable = true ∧ (sc.fired = true ∨ .cancel ∈ events.flatMap Event.parts)

section

variable {p : Job} {sc sc' : Scene} {events rest : List Event}

theorem Due.poll {out : Progress Job Int} (h : Due sc events)
    (hpoll : p.poll host sc = (sc', out)) : Due sc' events := by
  have hdid := p.did_poll host sc
  rw [hpoll] at hdid
  rcases h with (hclosed | hclose) | ⟨hminds, hfired | hcancel⟩
  · exact .inl (.inl (hdid.input.closed.trans hclosed))
  · exact .inl (.inr hclose)
  · exact .inr ⟨hdid.input.cancellable.trans hminds, .inl (hdid.fired hfired)⟩
  · exact .inr ⟨hdid.input.cancellable.trans hminds, .inr hcancel⟩

theorem Due.kept (h : Due sc events) (e : Event) : Due (applyEvent e sc) events := by
  have hminds (hminds : sc.stdin.cancellable = true) : (applyEvent e sc).stdin.cancellable = true :=
    (e.cancellable_apply sc.stdin sc.world.cancellation).trans hminds
  rcases h with (hclosed | hclose) | ⟨hcancellable, hfired | hcancel⟩
  · exact .inl (.inl (e.closed_apply hclosed _))
  · exact .inl (.inr hclose)
  · exact .inr ⟨hminds hcancellable, .inl (e.fired_apply _ hfired)⟩
  · exact .inr ⟨hminds hcancellable, .inr hcancel⟩

theorem Due.applyEvent {e : Event} (h : Due sc (e :: events)) :
    Due (applyEvent e sc) events := by
  rcases h with (hclosed | hclose) | ⟨hminds, hfired | hcancel⟩
  · exact Due.kept (.inl (.inl hclosed)) e
  · rw [List.flatMap_cons, List.mem_append] at hclose
    rcases hclose with hnow | hlater
    · exact .inl (.inl (Event.closed_of_mem_parts hnow _ _))
    · exact Due.kept (.inl (.inr hlater)) e
  · exact Due.kept (.inr ⟨hminds, .inl hfired⟩) e
  · rw [List.flatMap_cons, List.mem_append] at hcancel
    rcases hcancel with hnow | hlater
    · exact .inr ⟨(e.cancellable_apply sc.stdin sc.world.cancellation).trans hminds,
        .inl (Event.fired_of_mem_parts hnow _ _)⟩
    · exact Due.kept (.inr ⟨hminds, .inr hlater⟩) e

/-- Where the end of the input is due, it is never waited for in vain. -/
theorem Due.not_nil (h : Due sc []) (hfits : p.Fits sc.stdin)
    (hready : p.ready sc.stdin sc.fired = false) : False := by
  obtain ⟨hwaits, hquiet⟩ := hfits.waitsFor hready
  rcases h with (hclosed | hclose) | ⟨hminds, hfired | hcancel⟩
  · exact absurd hclosed (Bool.eq_false_iff.1 hwaits.isOpen)
  · cases hclose
  · rw [hminds, hfired] at hquiet
    cases hquiet
  · cases hcancel

/-- A session whose end of input is due does not end in a pause. -/
theorem Due.job {n : Nat} {ending : Ending Int} (h : Due sc events) (hfits : p.Fits sc.stdin)
    (hjob : job host n p sc events = (sc', rest, ending)) : ending ≠ .blocked ∧ Due sc' rest := by
  rw [← fst_watch] at hjob
  induction n generalizing p sc events with
  | zero =>
    cases hjob
    exact ⟨by simp, h⟩
  | succ n ih =>
    cases turn host p sc events with
    | finished hpoll hwatch =>
      rw [hwatch] at hjob
      cases hjob
      exact ⟨by simp, h.poll hpoll⟩
    | goesOn hpoll hwatch =>
      rw [hwatch] at hjob
      refine ih ?_ (fits_of_goesOn hfits hpoll) hjob
      rcases hpoll with ⟨hpoll, -⟩ | hpoll
      · exact h.poll hpoll
      · exact h.poll hpoll
    | blocked hpoll hready hevents hwatch =>
      subst hevents
      exact ((h.poll hpoll).not_nil (fits_of_waiting hfits hpoll) hready).elim
    | event hpoll hready hevents hwatch =>
      subst hevents
      rw [hwatch] at hjob
      exact ih (h.poll hpoll).applyEvent (fits_applyEvent (fits_of_waiting hfits hpoll) _) hjob

end

/-! ## Jobs one after the other -/

theorem waitsFor_of_mem_pauses (n : Nat) {ps : List Job} {sc : Scene} (events : List Event)
    (hps : ∀ p ∈ ps, p.Starts) (h : sc.stdin.Awaited none) :
    ∀ x ∈ pauses host n ps sc events, x.1.WaitsFor x.2.stdin := by
  induction ps generalizing sc events with
  | nil => intro x hx; cases hx
  | cons p ps ih =>
    have hfits := hps p List.mem_cons_self sc.stdin h
    intro x hx
    rcases List.mem_append.1 hx with hx | hx
    · exact waitsFor_of_mem_watch n events hfits x hx
    · rcases hjob : job host n p sc events with ⟨sc', rest, ending⟩
      rw [hjob] at hx
      cases ending with
      | finished status =>
        exact ih rest (fun p hp => hps p (List.mem_cons_of_mem _ hp))
          (awaited_of_job_finished hfits hjob) x hx
      | blocked => cases hx
      | exhausted => cases hx

theorem exists_jobs_eq {ps : List Job} {sc : Scene} {events : List Event}
    (hps : ∀ p ∈ ps, p.Starts) (h : sc.stdin.Awaited none) (hdue : Due sc events) :
    ∃ N sc' rest statuses, ∀ n, N ≤ n →
      jobs host n ps sc events = (sc', rest, .finished statuses) := by
  induction ps generalizing sc events with
  | nil => exact ⟨0, sc, events, [], fun n _ => rfl⟩
  | cons p ps ih =>
    have hfits := hps p List.mem_cons_self sc.stdin h
    obtain ⟨N, sc₁, rest₁, ending, hending, hjob⟩ := settles host events p sc hfits
    obtain ⟨hpaused, hdue'⟩ := hdue.job hfits (hjob N (Nat.le_refl N))
    cases ending with
    | exhausted => exact absurd rfl hending
    | blocked => exact absurd rfl hpaused
    | finished status =>
      have hidle := awaited_of_job_finished hfits (hjob N (Nat.le_refl N))
      obtain ⟨M, sc₂, rest₂, statuses, hjobs⟩ :=
        ih (fun p hp => hps p (List.mem_cons_of_mem _ hp)) hidle hdue'
      refine ⟨max N M, sc₂, rest₂, status :: statuses, fun n hn => ?_⟩
      simp only [jobs, hjob n (by omega), hjobs n (by omega)]

end Session

/-! ## Scripts -/

/-- How a script is run: as a whole with its status, as a whole without, or statement by
statement. -/
inductive Entry where
  | all (cancellable : Bool)
  | run (cancellable : Bool)
  | each (cancellable : Bool)
deriving DecidableEq, Repr

def Entry.jobs (statements : List Tree) : Entry → List Job
  | all cancellable => [Tree.statements cancellable statements 0 .exit]
  | run cancellable => [Tree.statements cancellable statements 0 fun _ => .exit 0]
  | each cancellable => statements.map fun t => t.job cancellable .exit

/-- Whether a script that is run so hears of its cancellation. -/
def Entry.cancellable : Entry → Bool
  | all cancellable | run cancellable | each cancellable => cancellable

theorem Entry.builds_of_mem_jobs {entry : Entry} {S : Stream → Prop} {P : Job → Prop}
    (h : Tree.Builds entry.cancellable S P) (statements : List Tree) :
    ∀ p ∈ entry.jobs statements, P p := by
  cases entry with
  | all cancellable =>
    intro p hp
    rw [jobs, List.mem_singleton] at hp
    subst hp
    exact Tree.builds_statements h statements 0 _ h.exit
  | run cancellable =>
    intro p hp
    rw [jobs, List.mem_singleton] at hp
    subst hp
    exact Tree.builds_statements h statements 0 _ fun _ => h.exit 0
  | each cancellable =>
    intro p hp
    rw [jobs, List.mem_map] at hp
    obtain ⟨t, -, rfl⟩ := hp
    exact Tree.builds_job h t _ h.exit

/-- Scripts do not wait for themselves. Whenever a run does not get on, a command that runs is parked
on the standard input it was given, which is open and empty. So a run that is told of the end of its
input, or cancelled, comes to its end, whatever else happens, at the same time or at another, and
however the coin falls. -/
theorem Entry.waits_only_for_input (host : Host) (f : Forest) (entry : Entry) (sc : Scene)
    (hwaiters : sc.stdin.waiters = []) (hwoken : sc.stdin.woken = []) (events : List Event) :
    (∀ n, ∀ x ∈ Session.pauses host n (entry.jobs f.statements) sc events,
        x.1.WaitsFor x.2.stdin) ∧
      (.close ∈ events.flatMap Event.parts ∨
          .cancel ∈ events.flatMap Event.parts ∧ sc.stdin.cancellable = true →
        ∃ N sc' rest statuses, ∀ n, N ≤ n →
          Session.jobs host n (entry.jobs f.statements) sc events =
            (sc', rest, .finished statuses)) := by
  have hstarts := Entry.builds_of_mem_jobs (Tree.builds_starts entry.cancellable) f.statements
  have hidle : sc.stdin.Awaited none := .of_fresh hwaiters hwoken
  refine ⟨fun n => Session.waitsFor_of_mem_pauses n events hstarts hidle, fun hends => ?_⟩
  have hdue : Session.Due sc events := by
    rcases hends with hclose | ⟨hcancel, hminds⟩
    · exact .inl (.inr hclose)
    · exact .inr ⟨hminds, .inr hcancel⟩
  exact Session.exists_jobs_eq hstarts hidle hdue

/-- A pipe whose right side ends first, and a command that reads after it. -/
def relayScript : String := "cat | getc; getc"

/-- Something to copy, and then more, together with the cancellation. -/
def relayEvents : List Event := [.write "ab", .both (.write "c") .cancel]

/-- The pipe waits twice: for something to copy, and for more when nobody reads on. -/
theorem Entry.waits_only_for_input_relay : ∃ f, Forest.parse (Source.ofText relayScript) = .ok f ∧
    (Session.pauses (Probe.host {}) 9 (Entry.jobs f.statements (.all true))
        { stdin := { cancellable := true } } relayEvents).length = 2 ∧
      (∀ x ∈ Session.pauses (Probe.host {}) 9 (Entry.jobs f.statements (.all true))
          { stdin := { cancellable := true } } relayEvents, x.1.WaitsFor x.2.stdin) ∧
      ∃ N sc' rest statuses, ∀ n, N ≤ n →
        Session.jobs (Probe.host {}) n (Entry.jobs f.statements (.all true))
            { stdin := { cancellable := true } } relayEvents =
          (sc', rest, .finished statuses) := by
  have hlength : ((Forest.parse (Source.ofText relayScript)).toOption.map fun f =>
      (Session.pauses (Probe.host {}) 9 (Entry.jobs f.statements (.all true))
        { stdin := { cancellable := true } } relayEvents).length) = some 2 := by
    decide +kernel
  cases hparse : Forest.parse (Source.ofText relayScript) with
  | error cause =>
    rw [hparse] at hlength
    cases hlength
  | ok f =>
    rw [hparse] at hlength
    have hwaits := waits_only_for_input (Probe.host {}) f (.all true)
      { stdin := { cancellable := true } } rfl rfl relayEvents
    exact ⟨f, rfl, Option.some.inj hlength, hwaits.1 9,
      hwaits.2 (.inr ⟨by simp [relayEvents, Event.parts], rfl⟩)⟩

end PocketShell
