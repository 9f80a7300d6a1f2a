import Mathlib.Data.List.Induction
import Mathlib.Data.List.Permutation
import PocketShell.Proofs.Run.Deeds
import PocketShell.Proofs.Run.Sequencing

/-!
# What goes through a pipe

* `Traffic` : the writes and reads of the two sides, and how each poll of a side ended;
* `Job.traffic` : the traffic of one poll of a pipe. `Job.follow` polls a pipe time and again,
  whatever becomes of the scene around it in the meantime;
* `Traffic.Lawful` : what may happen after all that has happened before. A write is taken as long as
  the right side has not ended; what is read has been written; the end is seen when the left side has
  ended and everything has been read;
* `Traffic.Tied` : what the traffic so far says about a pipe. A poll keeps that (`tied_poll`);
* `Job.follow_pipe` : both sides end, and the first to do so gives the status.
-/

namespace PocketShell

def Side.other : Side → Side
  | left => right
  | right => left

/-- Something that happens to a pipe. -/
inductive Traffic where
  | did (deed : Deed)
  /-- A poll of this side has left it waiting. -/
  | rests (side : Side)
  | ends (side : Side) (status : Int)

namespace Traffic

def written : Traffic → List Char
  | did deed => deed.written
  | _ => []

def taken : Traffic → List Char
  | did deed => deed.taken
  | _ => []

def ending? : Traffic → Option (Side × Int)
  | ends side status => some (side, status)
  | _ => none

def isRest (side : Side) : Traffic → Bool
  | rests s => s = side
  | _ => false

end Traffic

/-- The sides that have ended, with their status, in order. -/
def endings (tr : List Traffic) : List (Side × Int) := tr.filterMap Traffic.ending?

/-- How many polls have left a side waiting. -/
def restsOf (side : Side) (tr : List Traffic) : Nat := tr.countP (Traffic.isRest side)

/-! ## Observing a pipe -/

def Progress.traffic (side : Side) : Progress Job Int → List Traffic
  | finished status => [.ends side status]
  | waiting _ => [.rests side]
  | interrupted _ => []

namespace Job

/-- What one poll of a side does to the pipe. -/
def sideTraffic (host : Host) (side : Side) (p : Job) (sc : Scene) : List Traffic :=
  ((p.deeds host sc).filter side.uses).map .did ++ (p.poll host sc).2.traffic side

/-- What one poll of a pipe does to it. -/
def traffic (host : Host) : Job → Scene → List Traffic
  | pipe .left buffer left right _, outer =>
    let (inner, progress) := poll host left (sideScene outer buffer .left)
    let (filled, sc) := leaveSide outer inner .left
    sideTraffic host .left left (sideScene outer buffer .left) ++
      match progress with
      | .finished _ => sideTraffic host .right right (sideScene sc filled.shut .right)
      | .waiting _ => sideTraffic host .right right (sideScene sc filled .right)
      | .interrupted _ => []
  | pipe .right buffer _ right _, sc => sideTraffic host .right right (sideScene sc buffer .right)
  | settle side _ buffer rest _, sc => sideTraffic host side rest (sideScene sc buffer side)
  | _, _ => []

/-- Polls a pipe in one scene after the other, until it ends or there are no more scenes. -/
def follow (host : Host) : Job → List Scene → List Traffic × Progress Job Int
  | p, [] => ([], .waiting p)
  | p, sc :: scs =>
    match (p.poll host sc).2 with
    | .finished status => (p.traffic host sc, .finished status)
    | .waiting next | .interrupted next =>
      let (tr, out) := follow host next scs
      (p.traffic host sc ++ tr, out)

variable {host : Host} {buffer : Stream} {left right : Job} {k : Int → Job} {outer : Scene}
  {status : Int}

/-- A pipe with something else to follow it. -/
def before (k : Int → Job) : Job → Job
  | pipe turn buffer left right _ => pipe turn buffer left right k
  | settle side status buffer rest _ => settle side status buffer rest k
  | p => p

/-- How a job goes on that is followed by another one. -/
def proceed (host : Host) (k : Int → Job) : Scene × Progress Job Int → Scene × Progress Job Int
  | (sc, .finished status) => (k status).poll host sc
  | (sc, .waiting p) => (sc, .waiting (p.before k))
  | (sc, .interrupted p) => (sc, .interrupted (p.before k))

/-- Where `before` puts something behind what is left of a job as `andThen` does. -/
theorem proceed_eq_chain {r : Scene × Progress Job Int}
    (h : ∀ p, r.2 = .waiting p ∨ r.2 = .interrupted p → p.before k = p.andThen k) :
    proceed host k r = chain host k r := by
  obtain ⟨sc, progress⟩ := r
  cases progress with
  | finished status => rfl
  | waiting p => rw [proceed, chain, h p (.inl rfl)]
  | interrupted p => rw [proceed, chain, h p (.inr rfl)]

end Job

/-! ## The law of pipes -/

namespace Traffic

/-- What may happen to a pipe, in view of what has happened before. -/
def Lawful (prior : List Traffic) : Traffic → Prop
  | did (.wrote _ ok) =>
    (∀ status, ends .left status ∉ prior) ∧ (ok = true ↔ ∀ status, ends .right status ∉ prior)
  | did (.got want (.ok answer)) =>
    prior.flatMap taken ++ want.taken answer <+: prior.flatMap written
  | did (.got _ (.error .endOfStream)) =>
    (∃ status, ends .left status ∈ prior) ∧ prior.flatMap taken = prior.flatMap written
  | _ => True

/-- Everything happens lawfully. -/
def AllLawful (tr : List Traffic) : Prop :=
  ∀ prior x rest, tr = prior ++ x :: rest → Lawful prior x

theorem allLawful_nil : AllLawful [] := by
  intro prior x rest h
  simp at h

theorem AllLawful.concat {tr : List Traffic} {x : Traffic} (h : AllLawful tr)
    (hx : Lawful tr x) : AllLawful (tr ++ [x]) := by
  intro prior y rest heq
  rcases List.eq_nil_or_concat rest with rfl | ⟨rest', z, rfl⟩
  · obtain ⟨rfl, hy⟩ := List.append_inj' heq rfl
    obtain rfl : x = y := by simpa using hy
    exact hx
  · have heq' : tr ++ [x] = (prior ++ y :: rest') ++ [z] := by simpa using heq
    exact h prior y rest' (List.append_inj' heq' rfl).1

theorem mem_endings {side : Side} {status : Int} {tr : List Traffic} :
    (side, status) ∈ endings tr ↔ ends side status ∈ tr := by
  rw [endings, List.mem_filterMap]
  constructor
  · rintro ⟨x, hx, heq⟩
    cases x with
    | ends s st =>
      obtain ⟨rfl, rfl⟩ : s = side ∧ st = status := by simpa [ending?] using heq
      exact hx
    | did | rests => cases heq
  · exact fun h => ⟨_, h, rfl⟩

/-! ## What the traffic says about the buffer -/

/-- All has been lawful, and `text` is what has been written and not been read. -/
structure Accounts (tr : List Traffic) (text : List Char) : Prop where
  lawful : AllLawful tr
  text : tr.flatMap written = tr.flatMap taken ++ text

variable {tr : List Traffic} {buffer buffer' : Stream} {ds : List Deed}

theorem Accounts.concat {x : Traffic} {text text' : List Char} (h : Accounts tr text)
    (hx : Lawful tr x) (htext : text ++ x.written = x.taken ++ text') :
    Accounts (tr ++ [x]) text' := by
  refine ⟨h.lawful.concat hx, ?_⟩
  rw [List.flatMap_append, List.flatMap_append, h.text, List.append_assoc, List.append_assoc]
  simpa using htext

/-- The left side writes. -/
theorem Accounts.absorbed (h : Accounts tr buffer.text) (hds : buffer.Absorbed ds buffer')
    (hleft : ∀ status, ends .left status ∉ tr)
    (hright : buffer.closed = false ↔ ∀ status, ends .right status ∉ tr) :
    Accounts (tr ++ (ds.filter Deed.isWrite).map did) buffer'.text := by
  induction ds generalizing tr buffer with
  | nil =>
    rw [hds.eq_foldl]
    simpa using h
  | cons d ds ih =>
    have hanswers := fun text ok hmem => hds.answers text ok (List.mem_cons_of_mem d hmem)
    cases d with
    | got want answer => exact ih h ⟨hds.eq_foldl, hanswers⟩ hleft hright
    | wrote new ok =>
      have hok : ok = !buffer.closed := hds.answers new ok List.mem_cons_self
      have hlawful : Lawful tr (did (.wrote new ok)) := by
        refine ⟨hleft, ?_⟩
        rw [hok, Bool.not_eq_true', hright]
      have hfirst : Accounts (tr ++ [did (.wrote new ok)]) (buffer.put new).text := by
        refine h.concat hlawful ?_
        rw [Stream.text_put, hok]
        cases buffer.closed <;> rfl
      have hput : (buffer.put new).Absorbed ds buffer' :=
        ⟨hds.eq_foldl, by rw [Stream.closed_put]; exact hanswers⟩
      have hnext := ih hfirst hput (by simpa using hleft)
        (by simpa [Stream.closed_put] using hright)
      rwa [List.append_assoc] at hnext

/-- The right side reads. -/
theorem Accounts.drawn {closed : Bool} {text rest : List Char} (h : Accounts tr text)
    (hds : Stream.Draws closed text ds rest)
    (hclosed : closed = true → ∃ status, ends .left status ∈ tr) :
    Accounts (tr ++ (ds.filter Deed.isRead).map did) rest := by
  induction hds generalizing tr with
  | nil text => simpa using h
  | wrote _ ih => exact ih h hclosed
  | @got want answer text rest ds _ ih =>
    have hlawful : Lawful tr (did (.got want (.ok answer))) := by
      refine ⟨text, ?_⟩
      rw [h.text, List.append_assoc]
    have hnext := ih (h.concat hlawful (List.append_nil _)) (by simpa using hclosed)
    rwa [List.append_assoc] at hnext
  | @ended want ds rest hend _ ih =>
    have hlawful : Lawful tr (did (.got want (.error .endOfStream))) := by
      refine ⟨hclosed hend, ?_⟩
      rw [h.text, List.append_nil]
    have hnext := ih (h.concat hlawful rfl) (by simpa using hclosed)
    rwa [List.append_assoc] at hnext
  | @failed want cause text rest ds hcause _ ih =>
    have hlawful : Lawful tr (did (.got want (.error cause))) := by
      cases cause with
      | endOfStream => exact absurd rfl hcause
      | _ => trivial
    have hnext := ih (h.concat hlawful (List.append_nil _)) (by simpa using hclosed)
    rwa [List.append_assoc] at hnext

theorem Accounts.progress {text : List Char} (h : Accounts tr text) (side : Side)
    (out : Progress Job Int) : Accounts (tr ++ out.traffic side) text := by
  cases out with
  | finished status => exact h.concat trivial (List.append_nil _)
  | waiting p => exact h.concat trivial (List.append_nil _)
  | interrupted p => simpa [Progress.traffic] using h

/-! ## One poll of a side -/

variable {host : Host} {p : Job} {outer inner sc : Scene} {out : Progress Job Int}

theorem Accounts.left (h : Accounts tr buffer.text)
    (hpoll : p.poll host (Job.sideScene outer buffer .left) = (inner, out))
    (hleave : Job.leaveSide outer inner .left = (buffer', sc))
    (hleft : ∀ status, ends .left status ∉ tr)
    (hright : buffer.closed = false ↔ ∀ status, ends .right status ∉ tr) :
    Accounts (tr ++ p.sideTraffic host .left (Job.sideScene outer buffer .left)) buffer'.text ∧
      buffer'.closed = buffer.closed := by
  have hdid := p.did_poll host (Job.sideScene outer buffer .left)
  rw [hpoll] at hdid
  obtain ⟨rfl, -⟩ := Prod.mk.inj hleave
  have habsorbed : buffer.Absorbed _ inner.stdout.toStream := hdid.output
  refine ⟨?_, habsorbed.closed⟩
  rw [Job.sideTraffic, hpoll, ← List.append_assoc]
  exact (h.absorbed habsorbed hleft hright).progress .left out

theorem Accounts.right (h : Accounts tr buffer.text)
    (hpoll : p.poll host (Job.sideScene outer buffer .right) = (inner, out))
    (hleave : Job.leaveSide outer inner .right = (buffer', sc))
    (hclosed : buffer.closed = true → ∃ status, ends .left status ∈ tr) :
    Accounts (tr ++ p.sideTraffic host .right (Job.sideScene outer buffer .right)) buffer'.text ∧
      buffer'.closed = buffer.closed := by
  have hdid := p.did_poll host (Job.sideScene outer buffer .right)
  rw [hpoll] at hdid
  obtain ⟨rfl, -⟩ := Prod.mk.inj hleave
  have hdrawn : buffer.Drawn _ inner.stdin := hdid.input
  refine ⟨?_, hdrawn.closed⟩
  rw [Job.sideTraffic, hpoll, ← List.append_assoc]
  exact (h.drawn hdrawn.draws hclosed).progress .right out

theorem endings_sideTraffic (tr : List Traffic) (side : Side) (hpoll : p.poll host sc = (inner, out)) :
    endings (tr ++ p.sideTraffic host side sc) = endings tr ++ endings (out.traffic side) := by
  have hdeeds (ds : List Deed) : endings (ds.map did) = [] := by
    induction ds with
    | nil => rfl
    | cons d ds ih => exact ih
  rw [Job.sideTraffic, hpoll, endings, List.filterMap_append, List.filterMap_append]
  change endings tr ++ (endings (List.map did _) ++ _) = _
  rw [hdeeds]
  rfl

theorem restsOf_sideTraffic (tr : List Traffic) (side other : Side)
    (hpoll : p.poll host sc = (inner, out)) :
    restsOf other (tr ++ p.sideTraffic host side sc) =
      restsOf other tr + restsOf other (out.traffic side) := by
  have hdeeds (ds : List Deed) : restsOf other (ds.map did) = 0 := by
    induction ds with
    | nil => rfl
    | cons d ds ih => exact ih
  rw [Job.sideTraffic, hpoll, restsOf, List.countP_append, List.countP_append]
  change restsOf other tr + (restsOf other (List.map did _) + _) = _
  rw [hdeeds, Nat.zero_add]
  rfl

@[simp] theorem restsOf_finished (side other : Side) (status : Int) :
    restsOf other ((Progress.finished status).traffic side) = 0 := rfl

@[simp] theorem restsOf_waiting (side other : Side) (p : Job) :
    restsOf other ((Progress.waiting p).traffic side) = if side = other then 1 else 0 := by
  cases side <;> cases other <;> rfl

@[simp] theorem restsOf_interrupted (side other : Side) (p : Job) :
    restsOf other ((Progress.interrupted p).traffic side) = 0 := rfl

/-! ## One poll of a pipe -/

/-- What the traffic so far says about a pipe: whether it is open, how much each side has been
polled, and which side has ended first. -/
inductive Tied (tr : List Traffic) : Job → Prop where
  | running {turn : Side} {buffer : Stream} {left right : Job} (accounts : Accounts tr buffer.text)
    (hopen : buffer.closed = false) (hends : endings tr = [])
    (hrests : restsOf .left tr = restsOf .right tr + if turn = .left then 0 else 1) :
    Tied tr (.pipe turn buffer left right .exit)
  | settling {side : Side} {status : Int} {buffer : Stream} {rest : Job}
    (accounts : Accounts tr buffer.text) (hclosed : buffer.closed = true)
    (hends : endings tr = [(side.other, status)])
    (hfirst : side = .right ↔ restsOf .left tr ≤ restsOf .right tr) :
    Tied tr (.settle side status buffer rest .exit)

/-- Both sides have ended, and the first gave the status: the left side, unless it has been left
waiting more often than the right side. -/
structure Ended (tr : List Traffic) (status : Int) : Prop where
  lawful : AllLawful tr
  both : ∃ first other, endings tr = [(first, status), (first.other, other)] ∧
    (first = .left ↔ restsOf .left tr ≤ restsOf .right tr)

def Stays (tr : List Traffic) : Progress Job Int → Prop
  | .finished status => Ended tr status
  | .waiting p => Tied tr p
  | .interrupted p => Tied tr p

theorem stays_settle {side : Side} {status : Int} {rest : Job}
    (h : Tied tr (.settle side status buffer rest .exit)) (outer : Scene) :
    Stays (tr ++ Job.traffic host (.settle side status buffer rest .exit) outer)
      (Job.poll host (.settle side status buffer rest .exit) outer).2 := by
  rcases hpoll : rest.poll host (Job.sideScene outer buffer side) with ⟨inner, out⟩
  rcases hleave : Job.leaveSide outer inner side with ⟨buffer', sc⟩
  simp only [Job.traffic, Job.poll, hpoll, hleave]
  cases h with
  | settling accounts hclosed hends hfirst =>
    have hnext : Accounts (tr ++ rest.sideTraffic host side (Job.sideScene outer buffer side))
        buffer'.text ∧ buffer'.closed = buffer.closed := by
      have hmem : ends side.other status ∈ tr := mem_endings.1 (by simp [hends])
      cases side with
      | left =>
        refine accounts.left hpoll hleave (fun st hst => ?_) ?_
        · simp [← mem_endings, hends, Side.other] at hst
        · simpa [hclosed] using ⟨status, hmem⟩
      | right => exact accounts.right hpoll hleave fun _ => ⟨status, hmem⟩
    have hends' := endings_sideTraffic tr side hpoll
    have hleft := restsOf_sideTraffic tr side .left hpoll
    have hright := restsOf_sideTraffic tr side .right hpoll
    rw [hends] at hends'
    cases out with
    | finished st =>
      refine ⟨hnext.1.lawful, side.other, st, ?_, ?_⟩
      · rw [hends']
        cases side <;> rfl
      · rw [hleft, hright, restsOf_finished, restsOf_finished]
        cases side <;> simpa [Side.other] using hfirst
    | waiting rest' =>
      refine .settling hnext.1 (hnext.2.trans hclosed) hends' ?_
      rw [hleft, hright, restsOf_waiting, restsOf_waiting]
      cases side with
      | left =>
        have hlt : restsOf .right tr < restsOf .left tr := by simpa using hfirst
        simpa using Nat.lt_succ_of_lt hlt
      | right =>
        have hle : restsOf .left tr ≤ restsOf .right tr := by simpa using hfirst
        simpa using Nat.le_succ_of_le hle
    | interrupted rest' =>
      refine .settling hnext.1 (hnext.2.trans hclosed) hends' ?_
      rwa [hleft, hright]

theorem stays_right {left right : Job} (h : Tied tr (.pipe .right buffer left right .exit))
    (outer : Scene) :
    Stays (tr ++ Job.traffic host (.pipe .right buffer left right .exit) outer)
      (Job.poll host (.pipe .right buffer left right .exit) outer).2 := by
  rcases hpoll : right.poll host (Job.sideScene outer buffer .right) with ⟨inner, out⟩
  rcases hleave : Job.leaveSide outer inner .right with ⟨buffer', sc⟩
  simp only [Job.traffic, Job.poll, Job.afterRight, hpoll, hleave]
  cases h with
  | running accounts hopen hends hrests =>
    obtain ⟨hnext, hsame⟩ := accounts.right hpoll hleave (by simp [hopen])
    have hends' := endings_sideTraffic tr .right hpoll
    have hleft := restsOf_sideTraffic tr .right .left hpoll
    have hright := restsOf_sideTraffic tr .right .right hpoll
    rw [hends, List.nil_append] at hends'
    rw [if_neg (by decide)] at hrests
    cases out with
    | finished st =>
      refine .settling (by rwa [Stream.text_shut]) (Stream.closed_shut _) hends' ?_
      rw [hleft, hright, hrests]
      simp
    | waiting right'
    | interrupted right' =>
      refine .running hnext (hsame.trans hopen) hends' ?_
      rw [hleft, hright, hrests]
      simp

/-- Once its left side has been polled, a pipe is one that waits for its right side. -/
theorem stays_left {left right : Job} (h : Tied tr (.pipe .left buffer left right .exit))
    (outer : Scene) :
    Stays (tr ++ Job.traffic host (.pipe .left buffer left right .exit) outer)
      (Job.poll host (.pipe .left buffer left right .exit) outer).2 := by
  rcases hpoll : left.poll host (Job.sideScene outer buffer .left) with ⟨inner, out⟩
  rcases hleave : Job.leaveSide outer inner .left with ⟨filled, sc⟩
  cases h with
  | running accounts hopen hends hrests =>
    have hnone (side : Side) (status : Int) : ends side status ∉ tr := by
      simp [← mem_endings, hends]
    obtain ⟨hnext, hsame⟩ := accounts.left hpoll hleave (hnone .left)
      (by simp only [hopen, true_iff]; exact hnone .right)
    have hends' := endings_sideTraffic tr .left hpoll
    have hleft := restsOf_sideTraffic tr .left .left hpoll
    have hright := restsOf_sideTraffic tr .left .right hpoll
    rw [hends, List.nil_append] at hends'
    rw [if_pos rfl] at hrests
    simp only [Job.traffic, hpoll, hleave, ← List.append_assoc]
    cases out with
    | finished status =>
      rw [Job.poll_pipe_of_finished hpoll hleave]
      refine stays_settle (.settling ?_ (Stream.closed_shut _) hends' ?_) sc
      · rwa [Stream.text_shut]
      · rw [hleft, hright, hrests]
        simp
    | waiting left' =>
      rw [Job.poll_pipe_of_waiting hpoll hleave]
      refine stays_right (.running hnext (hsame.trans hopen) hends' ?_) sc
      rw [hleft, hright, hrests]
      simp
    | interrupted left' =>
      rw [Job.poll_pipe_of_interrupted hpoll hleave, List.append_nil]
      refine .running hnext (hsame.trans hopen) hends' ?_
      rw [hleft, hright, hrests]
      simp

theorem stays_poll (host : Host) (h : Tied tr p) (sc : Scene) :
    Stays (tr ++ p.traffic host sc) (p.poll host sc).2 := by
  cases h with
  | @running turn _ _ _ accounts hopen hends hrests =>
    cases turn with
    | left => exact stays_left (.running accounts hopen hends hrests) sc
    | right => exact stays_right (.running accounts hopen hends hrests) sc
  | settling accounts hclosed hends hfirst =>
    exact stays_settle (.settling accounts hclosed hends hfirst) sc

/-! ## Runs -/

theorem stays_follow (host : Host) (h : Tied tr p) (scs : List Scene) :
    Stays (tr ++ (p.follow host scs).1) (p.follow host scs).2 := by
  induction scs generalizing tr p with
  | nil =>
    rw [Job.follow, List.append_nil]
    exact h
  | cons sc scs ih =>
    have hstep := stays_poll host h sc
    rw [Job.follow]
    cases hout : (p.poll host sc).2 with
    | finished status =>
      rw [hout] at hstep
      exact hstep
    | waiting next
    | interrupted next =>
      rw [hout] at hstep
      simpa only [List.append_assoc] using ih hstep

/-- Everything that is read has been written. -/
theorem AllLawful.taken_isPrefix (h : AllLawful tr) :
    tr.flatMap taken <+: tr.flatMap written := by
  induction tr using List.reverseRecOn with
  | nil => exact List.prefix_rfl
  | append_singleton tr x ih =>
    have hprior : AllLawful tr := fun prior y rest heq => h prior y (rest ++ [x]) (by simp [heq])
    have hx : Lawful tr x := h tr x [] rfl
    rw [List.flatMap_append, List.flatMap_append]
    cases x with
    | did deed =>
      cases deed with
      | wrote text ok =>
        have hnothing : [did (.wrote text ok)].flatMap taken = [] := rfl
        rw [hnothing, List.append_nil]
        exact (ih hprior).trans (List.prefix_append _ _)
      | got want answer =>
        have hnothing : [did (.got want answer)].flatMap written = [] := rfl
        rw [hnothing, List.append_nil]
        cases answer with
        | ok answer =>
          have hread : tr.flatMap taken ++ want.taken answer <+: tr.flatMap written := hx
          simpa [taken, Deed.taken] using hread
        | error cause => simpa [taken, Deed.taken] using ih hprior
    | rests side => simpa [taken, written] using ih hprior
    | ends side status => simpa [taken, written] using ih hprior

/-- A side that has ended writes no more. -/
theorem AllLawful.written_eq_nil {prior rest : List Traffic} {status : Int}
    (h : AllLawful (prior ++ rest)) (hend : ends .left status ∈ prior) :
    rest.flatMap written = [] := by
  rw [List.flatMap_eq_nil_iff]
  intro x hx
  obtain ⟨a, b, rfl⟩ := List.append_of_mem hx
  have hlawful := h (prior ++ a) x b (by simp)
  cases x with
  | did deed =>
    cases deed with
    | wrote text ok => exact absurd (List.mem_append_left a hend) (hlawful.1 status)
    | got want answer => rfl
  | rests side => rfl
  | ends side status => rfl

end Traffic

/-- What the traffic of a pipe is like, and what comes of it. -/
structure PipeProtocol (host : Host) (tr : List Traffic) (out : Progress Job Int) : Prop where
  /-- At all times the right side has read the beginning of what the left side has written. -/
  taken_isPrefix : ∀ prior rest, tr = prior ++ rest →
    prior.flatMap Traffic.taken <+: prior.flatMap Traffic.written
  /-- The right side sees the end when the left side has ended, and it has read everything that is
  ever written. -/
  end_of_stream : ∀ prior want rest, tr = prior ++ .did (.got want (.error .endOfStream)) :: rest →
    (∃ status, .ends .left status ∈ prior) ∧
      prior.flatMap Traffic.taken = tr.flatMap Traffic.written
  write_iff : ∀ prior text ok rest, tr = prior ++ .did (.wrote text ok) :: rest →
    (ok = true ↔ ∀ status, .ends .right status ∉ prior)
  /-- Both sides have ended, and the one that was first gives the status: the left side, unless more
  of its polls have left it waiting. -/
  both_ended : ∀ status, out = .finished status →
    ∃ first other, endings tr = [(first, status), (first.other, other)] ∧
      (first = .left ↔ restsOf .left tr ≤ restsOf .right tr)
  /-- Whatever follows the pipe begins when the pipe has ended, with its status. -/
  next : ∀ p, out = .waiting p ∨ out = .interrupted p →
    ∀ k sc, (p.before k).poll host sc = Job.proceed host k (p.poll host sc)

namespace Traffic

variable {host : Host} {tr : List Traffic}

theorem Tied.before_eq {p : Job} (h : Tied tr p) (k : Int → Job) : p.before k = p.andThen k := by
  cases h <;> rfl

/-- What follows a pipe does not matter to it. -/
theorem Tied.poll_before {p : Job} (h : Tied tr p) (k : Int → Job) (sc : Scene) :
    (p.before k).poll host sc = Job.proceed host k (p.poll host sc) := by
  have hstays := stays_poll host h sc
  rw [h.before_eq, Job.poll_andThen, Job.proceed_eq_chain]
  rintro q (hq | hq)
  all_goals
    rw [hq] at hstays
    exact Tied.before_eq hstays k

theorem Stays.lawful {out : Progress Job Int} (h : Stays tr out) : AllLawful tr := by
  cases out with
  | finished status => exact Ended.lawful h
  | waiting p
  | interrupted p =>
    cases show Tied tr p from h with
    | running accounts => exact accounts.lawful
    | settling accounts => exact accounts.lawful

end Traffic

/-- However often a pipe is polled, and whatever its two sides do. -/
theorem Job.pipeProtocol_follow (host : Host) (cancellable : Bool) (left right : Job)
    (scs : List Scene) (tr : List Traffic) (out : Progress Job Int)
    (h : (pipe .left (Tree.privateStream cancellable) left right .exit).follow host scs = (tr, out)) :
    PipeProtocol host tr out := by
  have hstart : Traffic.Tied [] (pipe .left (Tree.privateStream cancellable) left right .exit) :=
    .running ⟨Traffic.allLawful_nil, rfl⟩ rfl rfl rfl
  have hstays : Traffic.Stays tr out := by
    have hrun := Traffic.stays_follow host hstart scs
    rwa [h, List.nil_append] at hrun
  have hlawful := hstays.lawful
  refine ⟨?_, ?_, ?_, ?_, ?_⟩
  · intro prior rest heq
    refine Traffic.AllLawful.taken_isPrefix fun a x b hprior => hlawful a x (b ++ rest) ?_
    rw [heq, hprior, List.append_assoc, List.cons_append]
  · intro prior want rest heq
    obtain ⟨⟨status, hend⟩, htaken⟩ := hlawful prior _ rest heq
    refine ⟨⟨status, hend⟩, ?_⟩
    rw [heq] at hlawful ⊢
    rw [List.flatMap_append, hlawful.written_eq_nil hend, List.append_nil, htaken]
  · intro prior text ok rest heq
    exact (hlawful prior _ rest heq).2
  · rintro status rfl
    exact Traffic.Ended.both hstays
  · rintro p (rfl | rfl) k sc
    · exact Traffic.Tied.poll_before hstays k sc
    · exact Traffic.Tied.poll_before hstays k sc

/-- A writer that pauses, and a reader that reads one character and ends. -/
def unevenHost : Host where
  exec argv :=
    if argv.isEmpty then
      .write "ab" fun _ => .pause fun _ => .write "c" fun _ => .done 0
    else .read .char fun _ => .done 7
  env _ := ""

def unevenPipe : Job :=
  .pipe .left (Tree.privateStream false) (.exec false [] .exit) (.exec false ["r"] .exit) .exit

/-- The reader ends first, so the second write is refused. -/
def unevenTraffic : List Traffic :=
  [.did (.wrote "ab" true), .rests .left, .did (.got .char (.ok "a")), .ends .right 7,
    .did (.wrote "c" false), .ends .left 0]

theorem Job.pipeProtocol_uneven :
    unevenPipe.follow unevenHost [{}, {}] = (unevenTraffic, .finished 7) ∧
      PipeProtocol unevenHost unevenTraffic (.finished 7) := by
  have hrun : unevenPipe.follow unevenHost [{}, {}] = (unevenTraffic, .finished 7) := by cbv
  exact ⟨hrun, pipeProtocol_follow unevenHost false _ _ [{}, {}] _ _ hrun⟩

end PocketShell
