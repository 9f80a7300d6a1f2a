import PocketShell.Proofs.Run.Sessions

/-!
# Cancelled runs

A script that minds its cancellation starts no command after it, wherever in the script and however
often it is polled until then.

* `Job.visits` : the jobs that one poll comes to, in order, each with the scene that it finds;
* `World.Calm` : between two moments no cancellation is taken back, and no command is started if the
  run was cancelled at the first of them;
* `Heeds` : this is true of any two moments of a run, and a command that is come to after the
  cancellation gives `cancelledStatus` at once;
* `Job.Minds` : every command of a job asks for the cancellation before it starts;
* `Job.heeds_poll` : a poll of such a job heeds the cancellation;
* `Session.Runs` : jobs are polled again and again, and anything may happen in between;
* `Session.Runs.heeds` : so a run of such jobs heeds the cancellation as a whole.
-/

namespace PocketShell

/-! ## Visits -/

/-- Everything that is polled during a poll of a job, the job itself first. -/
def Job.visits (host : Host) (p : Job) (sc : Scene) : List (Job × Scene) :=
  (p, sc) ::
    match p with
    | exit _ => []
    | emit text k => visits host k (sc.write text).1
    | lookup name k => visits host (k (host.env name)) (sc.record (.env name))
    | openFile name overwrite k =>
      let (sc, file) := handOut host sc name overwrite
      visits host (k file) sc
    | exec cancellable argv k =>
      if cancellable && sc.fired then visits host (k cancelledStatus) sc
      else
        match (host.exec argv).resume .nothing (sc.record (.exec argv)) with
        | (sc, .finished status) =>
          visits host (k status) (sc.record (.exit (argv.headD "") status))
        | _ => []
    | command name state k =>
      match state.resume sc with
      | (sc, .finished status) => visits host (k status) (sc.record (.exit name status))
      | _ => []
    | within frame inner k =>
      let (after, progress) := poll host inner (frame.enter sc)
      let (left, after) := frame.leave sc after
      visits host inner (frame.enter sc) ++
        match progress with
        | .finished status => visits host (k left status) after
        | _ => []
    | pipe .left buffer left right k =>
      let (after, progress) := poll host left (sideScene sc buffer .left)
      let (filled, after) := leaveSide sc after .left
      visits host left (sideScene sc buffer .left) ++
        match progress with
        | .finished status =>
          let (inner, progress) := poll host right (sideScene after filled.shut .right)
          visits host right (sideScene after filled.shut .right) ++
            match progress with
            | .finished _ => visits host (k status) (leaveSide after inner .right).2
            | _ => []
        | .waiting _ => visits host right (sideScene after filled .right)
        | .interrupted _ => []
    | pipe .right buffer _ right _ => visits host right (sideScene sc buffer .right)
    | settle side status buffer rest k =>
      let (inner, progress) := poll host rest (sideScene sc buffer side)
      visits host rest (sideScene sc buffer side) ++
        match progress with
        | .finished _ => visits host (k status) (leaveSide sc inner side).2
        | _ => []

theorem Job.head?_visits (host : Host) (p : Job) (sc : Scene) :
    (p.visits host sc).head? = some (p, sc) := by
  unfold visits
  rfl

/-! ## Calm -/

/-- From `w` to `w'` a cancellation is not taken back, and if `w` is cancelled no command is started. -/
structure World.Calm (w w' : World) : Prop where
  fired : w.cancellation.fired = true → w'.cancellation.fired = true
  calls : w.cancellation.fired = true →
    ∃ new, w'.calls = new ++ w.calls ∧ ∀ argv, .exec argv ∉ new

namespace World.Calm

variable {w w' w'' : World}

theorem of_calls_eq (hfired : w.cancellation.fired = true → w'.cancellation.fired = true)
    (hcalls : w'.calls = w.calls) : Calm w w' := ⟨hfired, fun _ => ⟨[], hcalls, by simp⟩⟩

theorem refl (w : World) : Calm w w := of_calls_eq id rfl

theorem trans (h : Calm w w') (h' : Calm w' w'') : Calm w w'' := by
  refine ⟨fun hw => h'.fired (h.fired hw), fun hw => ?_⟩
  obtain ⟨new, hnew, hexec⟩ := h.calls hw
  obtain ⟨newer, hnewer, hexec'⟩ := h'.calls (h.fired hw)
  refine ⟨newer ++ new, ?_, fun argv hmem => ?_⟩
  · rw [hnewer, hnew, List.append_assoc]
  · rcases List.mem_append.1 hmem with hmem | hmem
    · exact hexec' argv hmem
    · exact hexec argv hmem

/-- As long as there is no cancellation, nothing is forbidden. -/
theorem of_not_fired (h : w.cancellation.fired = false) : Calm w w' :=
  ⟨fun hw => absurd hw (by simp [h]), fun hw => absurd hw (by simp [h])⟩

theorem record {call : Call} (hcall : ∀ argv, call ≠ .exec argv) : Calm w (w.record call) :=
  ⟨id, fun _ => ⟨[call], rfl, fun argv hmem => hcall argv (List.mem_singleton.1 hmem).symm⟩⟩

theorem write (sc : Scene) (text : String) : Calm sc.world (sc.write text).1.world :=
  of_calls_eq (fun h => (sc.fired_write text).trans h) (sc.calls_write text)

theorem resume {α : Type} (p : Program α) (wait : Wait) (sc : Scene) :
    Calm sc.world (p.resume wait sc).1.world :=
  of_calls_eq (p.did_resume wait sc).fired (p.calls_resume wait sc)

theorem handOut (host : Host) (sc : Scene) (name : String) (overwrite : Bool) :
    Calm sc.world (Job.handOut host sc name overwrite).1.world := by
  have hrecord : Calm sc.world (sc.record (.getFile name)).world := record (by simp)
  refine hrecord.trans ?_
  unfold Job.handOut
  dsimp only
  split
  · split
    · exact of_calls_eq id rfl
    · exact refl _
  · exact refl _

end World.Calm

/-! ## Heeding the cancellation -/

/-- A part of a run that begins with `w` and ends with `w'`. Of two moments the later one is calm
after the earlier one, and a command that is come to after the cancellation is passed over. -/
structure Heeds (w : World) (visits : List (Job × Scene)) (w' : World) : Prop where
  calm : (w :: (visits.map (·.2.world) ++ [w'])).Pairwise World.Calm
  refused : ∀ i cancellable argv k sc, visits[i]? = some (.exec cancellable argv k, sc) →
    sc.fired = true → visits[i + 1]? = some (k cancelledStatus, sc)

namespace Heeds

variable {w w' w'' : World} {l l' : List (Job × Scene)} {p : Job} {sc : Scene}

theorem of_calm (h : w.Calm w') : Heeds w [] w' := ⟨by simpa using h, by simp⟩

theorem append (h : Heeds w l w') (h' : Heeds w' l' w'') : Heeds w (l ++ l') w'' := by
  refine ⟨?_, fun i cancellable argv k sc hi hfired => ?_⟩
  · obtain ⟨hbefore, -, hlast⟩ := List.pairwise_append.1
      (show (w :: l.map (·.2.world) ++ [w']).Pairwise World.Calm from h.calm)
    obtain ⟨hfirst, hafter⟩ := List.pairwise_cons.1 h'.calm
    have hall : (w :: l.map (·.2.world) ++ (l'.map (·.2.world) ++ [w''])).Pairwise World.Calm :=
      List.pairwise_append.2 ⟨hbefore, hafter, fun x hx y hy =>
        (hlast x hx w' (List.mem_singleton_self w')).trans (hfirst y hy)⟩
    simpa only [List.map_append, List.append_assoc, List.cons_append] using hall
  · by_cases hlt : i < l.length
    · rw [List.getElem?_append_left hlt] at hi
      have hnext := h.refused i cancellable argv k sc hi hfired
      obtain ⟨hlt', -⟩ := List.getElem?_eq_some_iff.1 hnext
      rw [List.getElem?_append_left hlt', hnext]
    · rw [List.getElem?_append_right (by omega)] at hi
      rw [List.getElem?_append_right (by omega), show i + 1 - l.length = i - l.length + 1 by omega]
      exact h'.refused _ cancellable argv k sc hi hfired

theorem after (h : Heeds w' l w'') (hcalm : w.Calm w') : Heeds w l w'' := (of_calm hcalm).append h

/-- One more visit, which is followed by the right one if it is to a command that is passed over. -/
theorem cons (h : Heeds sc.world l w) (hp : ∀ cancellable argv k, p = .exec cancellable argv k →
    sc.fired = true → l.head? = some (k cancelledStatus, sc)) :
    Heeds sc.world ((p, sc) :: l) w := by
  refine ⟨?_, fun i cancellable argv k sc' hi hfired => ?_⟩
  · obtain ⟨hfirst, -⟩ := List.pairwise_cons.1 h.calm
    refine List.pairwise_cons.2 ⟨fun x hx => ?_, h.calm⟩
    rcases List.mem_cons.1 hx with rfl | hx
    · exact .refl _
    · exact hfirst x hx
  · cases i with
    | zero =>
      cases Option.some.inj hi
      rw [List.getElem?_cons_succ, ← List.head?_eq_getElem?]
      exact hp cancellable argv k rfl hfired
    | succ i => exact h.refused i cancellable argv k sc' hi hfired

/-- What happens inside a frame, as seen from outside. -/
theorem frame {frame frame' : Frame} {outer inner : Scene}
    (h : Heeds (frame.enter outer).world l inner.world)
    (hleave : frame.leave outer inner = (frame', sc)) : Heeds outer.world l sc.world := by
  cases frame with
  | output sink =>
    cases hleave
    exact h
  | input source =>
    cases hleave
    exact h

/-- What happens on one side of a pipe, as seen from outside the pipe. -/
theorem side {side : Side} {buffer buffer' : Stream} {outer inner : Scene}
    (h : Heeds (Job.sideScene outer buffer side).world l inner.world)
    (hleave : Job.leaveSide outer inner side = (buffer', sc)) : Heeds outer.world l sc.world := by
  cases side with
  | left =>
    cases hleave
    exact h
  | right =>
    cases hleave
    exact h

end Heeds

/-! ## Jobs -/

/-- What is true of everything that is not finished. -/
def Progress.Leaves {σ α : Type} (P : σ → Prop) : Progress σ α → Prop
  | finished _ => True
  | waiting state => P state
  | interrupted state => P state

namespace Job

/-- Every command of a job minds the cancellation. -/
def Minds : Job → Prop
  | exit _ => True
  | emit _ k => k.Minds
  | lookup _ k => ∀ text, (k text).Minds
  | openFile _ _ k => ∀ file, (k file).Minds
  | exec cancellable _ k => cancellable = true ∧ ∀ status, (k status).Minds
  | command _ _ k => ∀ status, (k status).Minds
  | within _ inner k => inner.Minds ∧ ∀ frame status, (k frame status).Minds
  | pipe _ _ left right k => left.Minds ∧ right.Minds ∧ ∀ status, (k status).Minds
  | settle _ _ _ rest k => rest.Minds ∧ ∀ status, (k status).Minds

theorem minds_afterRight {outer : Scene} {left : Job} {k : Int → Job}
    {r : Scene × Progress Job Int} (hleft : left.Minds) (hk : ∀ status, (k status).Minds)
    (h : r.2.Leaves Minds) : (afterRight outer left k r).2.Leaves Minds := by
  obtain ⟨inner, progress⟩ := r
  cases progress with
  | finished status => exact ⟨hleft, hk⟩
  | waiting right => exact ⟨hleft, h, hk⟩
  | interrupted right => exact ⟨hleft, h, hk⟩

/-- What is left of a job that minds the cancellation minds it as well. -/
theorem minds_poll (host : Host) (p : Job) (sc : Scene) (h : p.Minds) :
    (p.poll host sc).2.Leaves Minds := by
  fun_induction Job.poll host p sc with
  | case1 status sc => exact trivial
  | case2 text k sc ih => exact ih h
  | case3 name k sc ih => exact ih (h _)
  | case4 name overwrite k sc sc' file hfile ih => exact ih (h _)
  | case5 cancellable argv k sc hfired ih => exact ih (h.2 _)
  | case6 cancellable argv k sc hfired name sc' status hresume ih => exact ih (h.2 _)
  | case7 cancellable argv k sc hfired name sc' state hresume
  | case8 cancellable argv k sc hfired name sc' state hresume => exact h.2
  | case9 name state k sc sc' status hresume ih => exact ih (h _)
  | case10 name state k sc sc' state' hresume
  | case11 name state k sc sc' state' hresume => exact h
  | case12 frame inner k outer sc frame' sc' hleave status hpoll ihi ihk => exact ihk (h.2 _ _)
  | case13 frame inner k outer sc frame' sc' hleave inner' hpoll ihi
  | case14 frame inner k outer sc frame' sc' hleave inner' hpoll ihi =>
    rw [hpoll] at ihi
    exact ⟨ihi h.1, h.2⟩
  | case15 buffer left right k outer inner filled sc hleave status inner' buffer' sc' hleave' status'
      hpoll hpoll' ihl ihr ihk => exact ihk (h.2.2 _)
  | case16 buffer left right k outer inner filled sc hleave status inner' buffer' sc' hleave' right'
      hpoll hpoll' ihl ihr
  | case17 buffer left right k outer inner filled sc hleave status inner' buffer' sc' hleave' right'
      hpoll hpoll' ihl ihr =>
    rw [hpoll'] at ihr
    exact ⟨ihr h.2.1, h.2.2⟩
  | case18 buffer left right k outer inner filled sc hleave left' hpoll ihl ihr =>
    rw [hpoll] at ihl
    exact minds_afterRight (ihl h.1) h.2.2 (ihr h.2.1)
  | case19 buffer left right k outer inner filled sc hleave left' hpoll ihl =>
    rw [hpoll] at ihl
    exact ⟨ihl h.1, h.2⟩
  | case20 buffer left right k sc ihr => exact minds_afterRight h.1 h.2.2 (ihr h.2.1)
  | case21 side status buffer rest k outer inner buffer' sc hleave status' hpoll ih ihk =>
    exact ihk (h.2 _)
  | case22 side status buffer rest k outer inner buffer' sc hleave rest' hpoll ih
  | case23 side status buffer rest k outer inner buffer' sc hleave rest' hpoll ih =>
    rw [hpoll] at ih
    exact ⟨ih h.1, h.2⟩

/-- A poll of a job that minds the cancellation heeds it. -/
theorem heeds_poll (host : Host) (p : Job) (sc : Scene) (h : p.Minds) :
    Heeds sc.world (p.visits host sc) (p.poll host sc).1.world := by
  have hcommand (state : Suspended Int) (sc : Scene) :
      sc.world.Calm (state.resume sc).1.world := .resume state.program state.wait sc
  have hcancelled {cancellable : Bool} {argv : List String} {k : Int → Job} {sc : Scene}
      (h : (exec cancellable argv k).Minds) (hstarts : ¬(cancellable && sc.fired) = true) :
      sc.fired = false := by simpa [h.1] using hstarts
  fun_induction Job.poll host p sc with
  | case1 status sc => exact (Heeds.of_calm (.refl _)).cons (by simp)
  | case2 text k sc ih => exact ((ih h).after (.write sc text)).cons (by simp)
  | case3 name k sc ih => exact ((ih (h _)).after (.record (by simp))).cons (by simp)
  | case4 name overwrite k sc sc' file hfile ih =>
    have hcalm := World.Calm.handOut host sc name overwrite
    rw [hfile] at hcalm
    simp only [visits, hfile]
    exact ((ih (h _)).after hcalm).cons (by simp)
  | case5 cancellable argv k sc hfired ih =>
    rw [visits, if_pos hfired]
    refine (ih (h.2 _)).cons fun cancellable' argv' k' hp _ => ?_
    cases hp
    exact head?_visits host _ sc
  | case6 cancellable argv k sc hstarts name sc' status hresume ih =>
    have hfired := hcancelled h hstarts
    rw [visits, if_neg hstarts]
    simp only [hresume]
    exact ((ih (h.2 _)).after (.of_not_fired hfired)).cons (by simp [hfired])
  | case7 cancellable argv k sc hstarts name sc' state hresume
  | case8 cancellable argv k sc hstarts name sc' state hresume =>
    have hfired := hcancelled h hstarts
    rw [visits, if_neg hstarts]
    simp only [hresume]
    exact (Heeds.of_calm (.of_not_fired hfired)).cons (by simp [hfired])
  | case9 name state k sc sc' status hresume ih =>
    have hcalm := hcommand state sc
    rw [hresume] at hcalm
    simp only [visits, hresume]
    exact ((ih (h _)).after (hcalm.trans (.record (by simp)))).cons (by simp)
  | case10 name state k sc sc' state' hresume
  | case11 name state k sc sc' state' hresume =>
    have hcalm := hcommand state sc
    rw [hresume] at hcalm
    simp only [visits, hresume]
    exact (Heeds.of_calm hcalm).cons (by simp)
  | case12 frame inner k outer sc frame' sc' hleave status hpoll ihi ihk =>
    rw [hpoll] at ihi
    simp only [visits, hpoll, hleave]
    exact (((ihi h.1).frame hleave).append (ihk (h.2 _ _))).cons (by simp)
  | case13 frame inner k outer sc frame' sc' hleave inner' hpoll ihi
  | case14 frame inner k outer sc frame' sc' hleave inner' hpoll ihi =>
    rw [hpoll] at ihi
    simp only [visits, hpoll, List.append_nil]
    exact ((ihi h.1).frame hleave).cons (by simp)
  | case15 buffer left right k outer inner filled sc hleave status inner' buffer' sc' hleave' status'
      hpoll hpoll' ihl ihr ihk =>
    rw [hpoll] at ihl
    rw [hpoll'] at ihr
    simp only [visits, hpoll, hleave, hpoll', hleave']
    exact (((ihl h.1).side hleave).append
      (((ihr h.2.1).side hleave').append (ihk (h.2.2 _)))).cons (by simp)
  | case16 buffer left right k outer inner filled sc hleave status inner' buffer' sc' hleave' right'
      hpoll hpoll' ihl ihr
  | case17 buffer left right k outer inner filled sc hleave status inner' buffer' sc' hleave' right'
      hpoll hpoll' ihl ihr =>
    rw [hpoll] at ihl
    rw [hpoll'] at ihr
    simp only [visits, hpoll, hleave, hpoll', List.append_nil]
    exact (((ihl h.1).side hleave).append ((ihr h.2.1).side hleave')).cons (by simp)
  | case18 buffer left right k outer inner filled sc hleave left' hpoll ihl ihr =>
    rw [hpoll] at ihl
    simp only [visits, hpoll, hleave, fst_afterRight]
    exact (((ihl h.1).side hleave).append ((ihr h.2.1).side rfl)).cons (by simp)
  | case19 buffer left right k outer inner filled sc hleave left' hpoll ihl =>
    rw [hpoll] at ihl
    simp only [visits, hpoll, List.append_nil]
    exact ((ihl h.1).side hleave).cons (by simp)
  | case20 buffer left right k sc ihr =>
    rw [visits, fst_afterRight]
    exact ((ihr h.2.1).side rfl).cons (by simp)
  | case21 side status buffer rest k outer inner buffer' sc hleave status' hpoll ih ihk =>
    rw [hpoll] at ih
    simp only [visits, hpoll, hleave]
    exact (((ih h.1).side hleave).append (ihk (h.2 _))).cons (by simp)
  | case22 side status buffer rest k outer inner buffer' sc hleave rest' hpoll ih
  | case23 side status buffer rest k outer inner buffer' sc hleave rest' hpoll ih =>
    rw [hpoll] at ih
    simp only [visits, hpoll, List.append_nil]
    exact ((ih h.1).side hleave).cons (by simp)

/-- Every part of a script that is told of its cancellation minds it. -/
theorem builds_minds : Tree.Builds true (fun _ => True) Minds where
  exit _ := trivial
  emit _ _ hk := hk
  lookup _ _ hk := hk
  openFile _ _ _ hk := fun file => hk file trivial
  exec _ _ hk := ⟨rfl, hk⟩
  pipe _ _ _ hleft hright hk := ⟨hleft, hright, hk⟩
  buffered _ _ hinner hk := ⟨hinner, fun frame status => hk frame status trivial⟩
  diverted _ _ _ _ hinner hk := ⟨hinner, hk⟩
  fed _ _ _ _ hinner hk := ⟨hinner, fun _ => hk⟩

end Job

/-! ## Runs -/

/-- What may happen to a scene between two polls: anything, but a cancellation is not taken back, and
nobody else makes calls to the host. -/
structure Scene.Interlude (sc sc' : Scene) : Prop where
  fired : sc.fired = true → sc'.fired = true
  calls : sc'.world.calls = sc.world.calls

namespace Session

variable {host : Host}

/-- A run of jobs one after the other, up to any moment. What is not finished is polled again,
whenever that may be. -/
inductive Runs (host : Host) : List Job → Scene → List (Job × Scene) → Scene → Prop where
  | stop (ps : List Job) (sc : Scene) : Runs host ps sc [] sc
  | interlude {ps : List Job} {sc sc₁ sc' : Scene} {l : List (Job × Scene)}
    (h : sc.Interlude sc₁) (rest : Runs host ps sc₁ l sc') : Runs host ps sc l sc'
  | finished {p : Job} {ps : List Job} {sc sc₁ sc' : Scene} {l : List (Job × Scene)} {status : Int}
    (h : p.poll host sc = (sc₁, .finished status)) (rest : Runs host ps sc₁ l sc') :
    Runs host (p :: ps) sc (p.visits host sc ++ l) sc'
  | waiting {p q : Job} {ps : List Job} {sc sc₁ sc' : Scene} {l : List (Job × Scene)}
    (h : p.poll host sc = (sc₁, .waiting q)) (rest : Runs host (q :: ps) sc₁ l sc') :
    Runs host (p :: ps) sc (p.visits host sc ++ l) sc'
  | interrupted {p q : Job} {ps : List Job} {sc sc₁ sc' : Scene} {l : List (Job × Scene)}
    (h : p.poll host sc = (sc₁, .interrupted q)) (rest : Runs host (q :: ps) sc₁ l sc') :
    Runs host (p :: ps) sc (p.visits host sc ++ l) sc'

/-- Jobs that mind the cancellation heed it all the time. -/
theorem Runs.heeds {ps : List Job} {sc sc' : Scene} {l : List (Job × Scene)}
    (h : Runs host ps sc l sc') (hps : ∀ p ∈ ps, p.Minds) : Heeds sc.world l sc'.world := by
  induction h with
  | stop ps sc => exact .of_calm (.refl _)
  | interlude h rest ih => exact (ih hps).after (.of_calls_eq h.fired h.calls)
  | @finished p ps sc sc₁ sc' l status h rest ih =>
    obtain ⟨hp, hps⟩ := List.forall_mem_cons.1 hps
    have hpoll := p.heeds_poll host sc hp
    rw [h] at hpoll
    exact hpoll.append (ih hps)
  | @waiting p q ps sc sc₁ sc' l h rest ih
  | @interrupted p q ps sc sc₁ sc' l h rest ih =>
    obtain ⟨hp, hps⟩ := List.forall_mem_cons.1 hps
    have hpoll := p.heeds_poll host sc hp
    have hq := p.minds_poll host sc hp
    rw [h] at hpoll hq
    exact hpoll.append (ih (List.forall_mem_cons.2 ⟨hq, hps⟩))

theorem interlude_applyEvent (e : Event) (sc : Scene) : sc.Interlude (applyEvent e sc) :=
  ⟨fun hfired => e.fired_apply sc.stdin hfired, rfl⟩

/-- A session of a job is the beginning of a run; `left` is to be run after it. -/
theorem exists_left (n : Nat) {p : Job} (ps : List Job) {sc sc' : Scene} {events rest : List Event}
    {ending : Ending Int} (h : job host n p sc events = (sc', rest, ending)) :
    ∃ left, (∀ status, ending = .finished status → left = ps) ∧
      ∀ l sc'', Runs host left sc' l sc'' → ∃ l', Runs host (p :: ps) sc l' sc'' := by
  rw [← fst_watch] at h
  induction n generalizing p sc events with
  | zero =>
    cases h
    exact ⟨p :: ps, by simp, fun l sc'' hruns => ⟨l, hruns⟩⟩
  | succ n ih =>
    cases turn host p sc events with
    | finished hpoll hwatch =>
      rw [hwatch] at h
      cases h
      exact ⟨ps, fun _ _ => rfl, fun l sc'' hruns => ⟨_, .finished hpoll hruns⟩⟩
    | goesOn hpoll hwatch =>
      rw [hwatch] at h
      obtain ⟨left, hleft, hruns⟩ := ih h
      refine ⟨left, hleft, fun l sc'' hrest => ?_⟩
      obtain ⟨l', hl'⟩ := hruns l sc'' hrest
      rcases hpoll with ⟨hpoll, -⟩ | hpoll
      · exact ⟨_, .waiting hpoll hl'⟩
      · exact ⟨_, .interrupted hpoll hl'⟩
    | @blocked q _ hpoll hready hevents hwatch =>
      rw [hwatch] at h
      cases h
      exact ⟨q :: ps, by simp, fun l sc'' hruns => ⟨_, .waiting hpoll hruns⟩⟩
    | event hpoll hready hevents hwatch =>
      rw [hwatch] at h
      obtain ⟨left, hleft, hruns⟩ := ih h
      refine ⟨left, hleft, fun l sc'' hrest => ?_⟩
      obtain ⟨l', hl'⟩ := hruns l sc'' hrest
      exact ⟨_, .waiting hpoll (.interlude (interlude_applyEvent _ _) hl')⟩

/-- Every session is a run. -/
theorem exists_runs_jobs (host : Host) (n : Nat) (ps : List Job) (sc : Scene)
    (events : List Event) : ∃ l, Runs host ps sc l (jobs host n ps sc events).1 := by
  induction ps generalizing sc events with
  | nil => exact ⟨[], .stop [] sc⟩
  | cons p ps ih =>
    rcases hjob : job host n p sc events with ⟨sc₁, rest, ending⟩
    obtain ⟨left, hleft, hruns⟩ := exists_left n ps hjob
    cases ending with
    | finished status =>
      cases hleft status rfl
      obtain ⟨l, hl⟩ := ih sc₁ rest
      obtain ⟨l', hl'⟩ := hruns l _ hl
      refine ⟨l', ?_⟩
      rcases hjobs : jobs host n ps sc₁ rest with ⟨sc₂, rest₂, ending₂⟩
      rw [hjobs] at hl'
      simp only [jobs, hjob, hjobs]
      cases ending₂ with
      | finished statuses => exact hl'
      | blocked => exact hl'
      | exhausted => exact hl'
    | blocked
    | exhausted =>
      obtain ⟨l', hl'⟩ := hruns [] sc₁ (.stop left sc₁)
      exact ⟨l', by simpa only [jobs, hjob] using hl'⟩

end Session

/-- Cancellation is final. In a run of a script that is told of its cancellation, by whomever and
whenever it is cancelled and whatever happens between two polls, no command is started at any later
moment, and every command that the run comes to from then on gives `cancelledStatus` at once. -/
theorem Entry.cancellation_is_final (host : Host) (f : Forest) (entry : Entry)
    (hentry : entry.cancellable = true) {sc sc' : Scene} {visits : List (Job × Scene)}
    (h : Session.Runs host (entry.jobs f.statements) sc visits sc') :
    (sc.world :: (visits.map (·.2.world) ++ [sc'.world])).Pairwise World.Calm ∧
      ∀ i cancellable argv k s, visits[i]? = some (.exec cancellable argv k, s) →
        s.fired = true → visits[i + 1]? = some (k cancelledStatus, s) := by
  have hbuilds : Tree.Builds entry.cancellable (fun _ => True) Job.Minds := by
    rw [hentry]
    exact Job.builds_minds
  have hheeds := h.heeds (builds_of_mem_jobs hbuilds f.statements)
  exact ⟨hheeds.calm, hheeds.refused⟩

/-- The right side of a pipe cancels the run while the left side waits. -/
def stopScript : String := "yield | cancel; echo a $(echo b) || out c > d"

/-- The left side of the pipe comes to its end, and a file is still opened, but nothing is started. -/
theorem Entry.cancellation_is_final_stop :
    ∃ f visits sc', Forest.parse (Source.ofText stopScript) = .ok f ∧
      Session.Runs (Probe.host {}) (Entry.jobs f.statements (.each true)) {} visits sc' ∧
      sc'.world.calls = [.getFile "d", .exit "yield" 0, .exit "cancel" 0, .exec ["cancel"],
        .exec ["yield"]] ∧
      (({} : World) :: (visits.map (·.2.world) ++ [sc'.world])).Pairwise World.Calm ∧
      ∀ i cancellable argv k s, visits[i]? = some (.exec cancellable argv k, s) →
        s.fired = true → visits[i + 1]? = some (k cancelledStatus, s) := by
  have hcalls : ((Forest.parse (Source.ofText stopScript)).toOption.map fun f =>
      (Session.jobs (Probe.host {}) 9 (Entry.jobs f.statements (.each true)) {} []).1.world.calls) =
        some [.getFile "d", .exit "yield" 0, .exit "cancel" 0, .exec ["cancel"], .exec ["yield"]] := by
    decide +kernel
  cases hparse : Forest.parse (Source.ofText stopScript) with
  | error cause =>
    rw [hparse] at hcalls
    cases hcalls
  | ok f =>
    rw [hparse] at hcalls
    obtain ⟨visits, hruns⟩ :=
      Session.exists_runs_jobs (Probe.host {}) 9 (Entry.jobs f.statements (.each true)) {} []
    exact ⟨f, visits, _, rfl, hruns, Option.some.inj hcalls,
      cancellation_is_final (Probe.host {}) f (.each true) rfl hruns⟩

end PocketShell
