import PocketShell.Proofs.Streams.Wakeups

/-!
# A stream with many readers, by their names

Tickets only tell readers apart. `Roster` is a bench without them: the text, the names of those who
are queued, oldest first, and of those who have been called. While no cancellation is minded, a bench
does what its roster does.

* `Roster.step` : one operation on a roster;
* `Stream.Lists` : the queue of a stream, for readers who hold these tickets;
* `Bench.Shows` : the roster of a bench;
* `Bench.Shows.step`, `Bench.Shows.after` : a bench and its roster go on alike and answer alike.
-/

namespace PocketShell

/-- What a read is given of a text. -/
def Want.given (text : List Char) : Want → String
  | .chunk => String.ofList text
  | .char | .peek => String.ofList (text.take 1)

/-- What a read leaves of a text. -/
def Want.left (text : List Char) : Want → List Char
  | .chunk => []
  | .char => text.tail
  | .peek => text

@[ext] structure Roster where
  text : List Char
  closed : Bool
  /-- The readers in the queue, oldest first. -/
  line : List String
  /-- Whether a reader has been sent a wake-up and not been polled since. -/
  called : String → Bool
  /-- What the readers want who are there. -/
  wants : String → Option Want

namespace Roster

open Bench (Op Answer)

/-- A wake-up goes to the oldest reader in the queue. -/
def call (v : Roster) : Roster :=
  match v.line with
  | [] => v
  | x :: rest => { v with line := rest, called := fun y => y = x || v.called y }

def callAll (v : Roster) : Roster :=
  { v with line := [], called := fun y => y ∈ v.line || v.called y }

/-- What is left goes on to the next in the queue. -/
def passOn (v : Roster) : Roster := if v.text = [] then v else v.call

def remove (v : Roster) (x : String) : Roster :=
  { v with
    line := v.line.filter (· ≠ x)
    called := fun y => y ≠ x && v.called y
    wants := fun y => if y = x then none else v.wants y }

def enqueue (v : Roster) (x : String) (want : Want) : Roster :=
  { v with
    line := v.line ++ [x]
    wants := fun y => if y = x then some want else v.wants y }

/-- A reader looks for text, and is served, finds the end, or goes into the queue. -/
def attempt (v : Roster) (x : String) (want : Want) : Roster × Answer :=
  if v.text = [] then
    if v.closed then (v, .fault .endOfStream) else (v.enqueue x want, .pending)
  else ({ v with text := want.left v.text }.passOn, .text (want.given v.text))

def step (v : Roster) : Op → Roster × Answer
  | .write text =>
    if v.closed then (v, .fault .closed)
    else if text.toList = [] then (v, .done)
    else ({ v with text := v.text ++ text.toList }.call, .done)
  | .close => if v.closed then (v, .fault .closed) else ({ v with closed := true }.callAll, .done)
  | .isClosed => (v, .flag v.closed)
  | .readNow =>
    if v.text = [] ∧ v.closed = true then (v, .fault .endOfStream)
    else ({ v with text := [] }, .text (String.ofList v.text))
  | .cancel => (v, .done)
  | .start x want => (v.remove x).attempt x want
  | .poll x =>
    match v.wants x with
    | some want => if v.called x then (v.remove x).attempt x want else (v, .pending)
    | none => (v, .nobody)
  | .drop x => (v.remove x, .done)

variable {v : Roster} {x : String} {want : Want}

theorem call_of_nil (h : v.line = []) : v.call = v := by
  rw [call, h]

theorem call_of_cons {rest : List String} (h : v.line = x :: rest) :
    v.call = { v with line := rest, called := fun y => y = x || v.called y } := by
  rw [call, h]

@[simp] theorem text_call (v : Roster) : v.call.text = v.text := by
  unfold call
  split <;> rfl

@[simp] theorem closed_call (v : Roster) : v.call.closed = v.closed := by
  unfold call
  split <;> rfl

@[simp] theorem wants_call (v : Roster) : v.call.wants = v.wants := by
  unfold call
  split <;> rfl

theorem attempt_of_text (h : v.text ≠ []) : v.attempt x want =
    ({ v with text := want.left v.text }.passOn, .text (want.given v.text)) := by
  rw [attempt, if_neg h]

theorem attempt_of_closed (h : v.text = []) (hclosed : v.closed = true) :
    v.attempt x want = (v, .fault .endOfStream) := by
  rw [attempt, if_pos h, if_pos hclosed]

theorem attempt_of_open (h : v.text = []) (hopen : v.closed = false) :
    v.attempt x want = (v.enqueue x want, .pending) := by
  rw [attempt, if_pos h, hopen]
  rfl

/-- Who waits is there. -/
theorem wants_attempt (v : Roster) (x : String) (want : Want) (y : String) :
    (v.attempt x want).1.wants y =
      if y = x ∧ (v.attempt x want).2 = .pending then some want else v.wants y := by
  by_cases h : v.text = []
  · cases hclosed : v.closed with
    | true => simp [attempt_of_closed h hclosed]
    | false => simp [attempt_of_open h hclosed, enqueue]
  · rw [attempt_of_text h, passOn]
    split <;> simp

theorem step_poll_of_called (hwants : v.wants x = some want) (hcalled : v.called x = true) :
    v.step (.poll x) = (v.remove x).attempt x want := by
  simp only [step, hwants, hcalled, if_true]

theorem step_poll_of_asleep (hwants : v.wants x = some want) (hcalled : v.called x = false) :
    v.step (.poll x) = (v, .pending) := by
  simp only [step, hwants, hcalled, Bool.false_eq_true, if_false]

theorem step_poll_of_absent (hwants : v.wants x = none) : v.step (.poll x) = (v, .nobody) := by
  simp only [step, hwants]

end Roster

theorem Want.serve_eq {want : Want} {s t : Stream} {answer : String}
    (h : want.serve s = some (answer, t)) :
    s.text ≠ [] ∧ answer = want.given s.text ∧ t.text = want.left s.text := by
  obtain ⟨ch, rest, htext, ⟨rfl, rfl, rfl⟩ | ⟨rfl, rfl, rfl⟩ | ⟨rfl, rfl, rfl⟩⟩ := serve_eq_some h
  · simp [given, left, htext]
  · simp [given, left, htext, Char.toString]
  · simp [given, left, htext, Char.toString]

/-! ## The queue by names -/

namespace Stream

variable {s t : Stream} {tick : String → Option Nat} {v : Roster} {x : String}

/-- The queue and the wake-ups of a stream, for readers who hold these tickets. -/
structure Lists (s : Stream) (tick : String → Option Nat) (line : List String)
    (called : String → Bool) : Prop where
  line : line.map tick = s.live.map fun w => some w.ticket
  called : ∀ x, called x = true ↔ ∃ n ∈ tick x, n ∈ s.woken

/-- No two readers hold the same ticket. -/
def Distinct (tick : String → Option Nat) : Prop :=
  ∀ x y n, tick x = some n → tick y = some n → x = y

theorem Distinct.remove {tick' : String → Option Nat} (hd : Distinct tick)
    (hothers : ∀ y, y ≠ x → tick' y = tick y) (hx : tick' x = none) : Distinct tick' := by
  have hold {y : String} {n : Nat} (hy : tick' y = some n) : tick y = some n := by
    rw [← hy, hothers y]
    rintro rfl
    rw [hx] at hy
    cases hy
  exact fun y z n hy hz => hd y z n (hold hy) (hold hz)

@[simp] theorem text_without (s : Stream) (ticket : Option Nat) :
    (s.without ticket).text = s.text := by
  cases ticket <;> rfl

@[simp] theorem closed_without (s : Stream) (ticket : Option Nat) :
    (s.without ticket).closed = s.closed := by
  cases ticket <;> rfl

namespace Lists

variable {line : List String} {called : String → Bool}

theorem sameQueue (h : s.Lists tick line called) (hq : SameQueue s t) :
    t.Lists tick line called :=
  ⟨by rw [hq.live]; exact h.line, by rw [hq.woken]; exact h.called⟩

theorem call (h : s.Lists tick v.line v.called) (hd : Distinct tick) (hw : WakesOne s t) :
    t.Lists tick v.call.line v.call.called := by
  have hline := h.line
  cases hv : v.line with
  | nil =>
    rw [hv] at hline
    have hlive : s.live = [] := List.map_eq_nil_iff.1 hline.symm
    rw [Roster.call_of_nil hv]
    refine ⟨?_, ?_⟩
    · simp [hv, hw.live, hlive]
    · simpa [hw.woken, hlive] using h.called
  | cons first rest =>
    rw [hv] at hline
    cases hlive : s.live with
    | nil => simp [hlive] at hline
    | cons w ws =>
      rw [hlive, List.map_cons, List.map_cons, List.cons.injEq] at hline
      rw [Roster.call_of_cons hv]
      refine ⟨by simpa [hw.live, hlive] using hline.2, fun x => ?_⟩
      -- who holds the ticket that is called is the first in the queue
      have hfirst : x = first ↔ tick x = some w.ticket :=
        ⟨fun hx => hx ▸ hline.1, fun hx => hd x first _ hx hline.1⟩
      simp only [Bool.or_eq_true, decide_eq_true_eq, h.called, hw.woken, hlive, List.head?_cons,
        Option.map_some, Option.toList_some, List.singleton_append, List.mem_cons, hfirst]
      constructor
      · rintro (hx | ⟨n, hn, hwoken⟩)
        · exact ⟨_, hx, .inl rfl⟩
        · exact ⟨n, hn, .inr hwoken⟩
      · rintro ⟨n, hn, rfl | hwoken⟩
        · exact .inl hn
        · exact .inr ⟨n, hn, hwoken⟩

theorem mem_line_iff (h : s.Lists tick line called) (hd : Distinct tick) :
    x ∈ line ↔ ∃ n ∈ tick x, { ticket := n } ∈ s.live := by
  constructor
  · intro hx
    have htick : tick x ∈ s.live.map fun w => some w.ticket := h.line ▸ List.mem_map_of_mem hx
    obtain ⟨w, hw, hwx⟩ := List.mem_map.1 htick
    exact ⟨w.ticket, hwx.symm, eq_of_mem_live hw ▸ hw⟩
  · rintro ⟨n, hn, hlive⟩
    have hticket : some n ∈ line.map tick := h.line ▸ List.mem_map_of_mem hlive
    obtain ⟨y, hy, hyn⟩ := List.mem_map.1 hticket
    exact hd x y n hn hyn ▸ hy

theorem callAll (h : s.Lists tick v.line v.called) (hd : Distinct tick) :
    s.wakeAll.Lists tick v.callAll.line v.callAll.called := by
  refine ⟨rfl, fun x => ?_⟩
  have hmap (n : Nat) : n ∈ s.live.map (·.ticket) ↔ { ticket := n } ∈ s.live := by
    rw [List.mem_map]
    exact ⟨fun ⟨w, hw, hn⟩ => hn ▸ eq_of_mem_live hw ▸ hw, fun hn => ⟨_, hn, rfl⟩⟩
  simp only [Roster.callAll, Bool.or_eq_true, decide_eq_true_eq, h.mem_line_iff hd, h.called,
    woken_wakeAll, List.mem_append, hmap]
  constructor
  · rintro (⟨n, hn, hlive⟩ | ⟨n, hn, hwoken⟩)
    · exact ⟨n, hn, .inl hlive⟩
    · exact ⟨n, hn, .inr hwoken⟩
  · rintro ⟨n, hn, hlive | hwoken⟩
    · exact .inl ⟨n, hn, hlive⟩
    · exact .inr ⟨n, hn, hwoken⟩

variable {tick' : String → Option Nat} (hothers : ∀ y, y ≠ x → tick' y = tick y)

include hothers

theorem remove (h : s.Lists tick v.line v.called) (hd : Distinct tick) (hx : tick' x = none) :
    (s.without (tick x)).Lists tick' (v.remove x).line (v.remove x).called := by
  constructor
  · -- those in the queue have tickets, so that `x` is the only one with its ticket
    have hkept (y : String) (hy : y ∈ v.line) : decide (y ≠ x) = decide (tick y ≠ tick x) := by
      obtain ⟨n, hn, -⟩ := (h.mem_line_iff hd).1 hy
      rw [decide_eq_decide, Option.mem_def.1 hn]
      exact not_congr ⟨fun hyx => hyx ▸ hn.symm, fun hn' => hd y x n hn hn'.symm⟩
    have htick (y : String) (hy : y ∈ v.line.filter (· ≠ x)) : tick' y = tick y :=
      hothers y (of_decide_eq_true (List.mem_filter.1 hy).2)
    calc (v.line.filter (· ≠ x)).map tick'
        = (v.line.filter fun y => tick y ≠ tick x).map tick := by
          rw [List.map_congr_left htick, List.filter_congr hkept]
      _ = (v.line.map tick).filter (· ≠ tick x) := by
          rw [List.filter_map]
          rfl
      _ = (s.live.filter fun w => some w.ticket ≠ tick x).map fun w => some w.ticket := by
          rw [h.line, List.filter_map]
          rfl
      _ = _ := by rw [live_without]
  · intro y
    by_cases hy : y = x
    · simp [Roster.remove, hy, hx]
    · have hleft (n : Nat) (hn : tick y = some n) :
          n ∈ (s.without (tick x)).woken ↔ n ∈ s.woken := by
        rw [mem_woken_without]
        exact and_iff_left fun hx' => hy (hd y x n hn hx')
      simp only [Roster.remove, hy, hothers y hy, h.called, ne_eq, not_false_eq_true, decide_true,
        Bool.true_and]
      exact exists_congr fun n => and_congr_right fun hn => (hleft n hn).symm

theorem enqueue {want : Want} (h : s.Lists tick v.line v.called) (hs : s.InOrder)
    (hd : Distinct tick) (hnone : tick x = none) (hx : tick' x = some s.issued) :
    (s.enqueue true).Lists tick' (v.enqueue x want).line (v.enqueue x want).called := by
  constructor
  · have htick (y : String) (hy : y ∈ v.line) : tick' y = tick y := by
      refine hothers y ?_
      rintro rfl
      obtain ⟨n, hn, -⟩ := (h.mem_line_iff hd).1 hy
      rw [hnone] at hn
      cases hn
    rw [live_enqueue_true, List.map_append, ← h.line, Roster.enqueue, List.map_append,
      List.map_congr_left htick]
    simp [hx]
  · intro y
    by_cases hy : y = x
    · -- nobody has been called with a ticket that was not issued
      have hnew : s.issued ∉ s.woken := fun hmem => Nat.lt_irrefl _ (hs.issued _ (.inr hmem))
      subst hy
      simpa [Roster.enqueue, Stream.enqueue, h.called, hnone, hx] using hnew
    · simp only [Roster.enqueue, Stream.enqueue, h.called, hothers y hy]

end Lists

/-- The roster of a stream, as far as the stream goes. -/
structure Shows (s : Stream) (tick : String → Option Nat) (v : Roster) : Prop where
  text : v.text = s.text
  closed : v.closed = s.closed
  queue : s.Lists tick v.line v.called

namespace Shows

variable {tick' : String → Option Nat} {want : Want} {fired : Bool} {out : Polled String}

theorem remove (h : s.Shows tick v) (hd : Distinct tick)
    (hothers : ∀ y, y ≠ x → tick' y = tick y) (hx : tick' x = none) :
    (s.without (tick x)).Shows tick' (v.remove x) :=
  ⟨h.text.trans (s.text_without _).symm, h.closed.trans (s.closed_without _).symm,
    h.queue.remove hothers hd hx⟩

/-- Text is left for the next in the queue. -/
theorem passOn (h : s.Lists tick v.line v.called) (hclosed : v.closed = s.closed)
    (hd : Distinct tick) (hserve : want.serve s = some (want.given s.text, t))
    (htext : v.text = t.text) : t.Shows tick v.passOn := by
  have hsame : t.closed = s.closed := Want.closed_serve hserve
  unfold Roster.passOn
  rcases serve_wakes hserve with ⟨hnil, hq⟩ | ⟨hne, hq⟩
  · rw [if_pos (htext.trans hnil)]
    exact ⟨htext, hclosed.trans hsame.symm, h.sameQueue hq⟩
  · rw [if_neg (htext ▸ hne)]
    exact ⟨v.text_call.trans htext, v.closed_call.trans (hclosed.trans hsame.symm), h.call hd hq⟩

/-- A reader without a ticket looks for text. -/
theorem attempt (h : s.Shows tick v) (hs : s.InOrder) (hd : Distinct tick)
    (hcalm : (s.cancellable && fired) = false) (ha : Attempted want.serve s fired t out)
    (hnone : tick x = none) (hx : tick' x = out.ticket?)
    (hothers : ∀ y, y ≠ x → tick' y = tick y) :
    t.Shows tick' (v.attempt x want).1 ∧ Bench.Answer.ofPolled out = (v.attempt x want).2 := by
  have hsame (hout : out.ticket? = none) : tick' = tick := by
    funext y
    by_cases hy : y = x
    · rw [hy, hx, hout, hnone]
    · exact hothers y hy
  cases ha with
  | @served answer t hserve =>
    obtain ⟨hne, rfl, hleft⟩ := Want.serve_eq hserve
    rw [Roster.attempt_of_text (h.text ▸ hne), hsame rfl, h.text]
    exact ⟨passOn h.queue h.closed hd hserve hleft.symm, rfl⟩
  | ended hserve hclosed =>
    rw [Roster.attempt_of_closed (h.text.trans (Want.serve_eq_none_iff.1 hserve))
      (h.closed.trans hclosed), hsame rfl]
    exact ⟨h, rfl⟩
  | cancelled _ _ hminds hfired => simp [hminds, hfired] at hcalm
  | queued hserve hopen =>
    rw [Roster.attempt_of_open (h.text.trans (Want.serve_eq_none_iff.1 hserve))
      (h.closed.trans hopen)]
    exact ⟨⟨h.text, h.closed, h.queue.enqueue hothers hs hd hnone hx⟩, rfl⟩

end Shows

end Stream

namespace Stream.Polls

variable {want : Want} {s t : Stream} {c c' : Cancellation} {n : Nat} {out : Polled String}

theorem attempted (h : Polls want.serve s c none t c' out) :
    Attempted want.serve s c.fired t out := by
  cases h with
  | fresh ha => exact ha

/-- While no cancellation is minded, a reader looks for text if and only if it has been called. -/
theorem calm_cases (h : Polls want.serve s c (some n) t c' out)
    (hcalm : (s.cancellable && c.fired) = false) :
    n ∈ s.woken ∧ Attempted want.serve (s.abandon n) c.fired t out ∨
      n ∉ s.woken ∧ t = s ∧ out = .waiting n := by
  cases h with
  | called hn _ ha => exact .inl ⟨hn, ha⟩
  | givesUp hminds hfired => simp [hminds, hfired] at hcalm
  | stays hn => exact .inr ⟨hn, rfl, rfl⟩

end Stream.Polls

/-! ## The roster of a bench -/

namespace Bench

variable {b b' : Bench} {v : Roster} {op : Op} {x : String}

/-- The roster of a bench. Whoever is in the table waits with a ticket. -/
structure Shows (b : Bench) (v : Roster) : Prop where
  stream : b.stream.Shows b.ticket? v
  wants : ∀ x, v.wants x = (b.reader? x).map (·.want)
  held : ∀ x r, b.reader? x = some r → r.ticket ≠ none

/-- A bench and a roster have come to the same. -/
def Matches (p : Bench × Answer) (q : Roster × Answer) : Prop := p.1.Shows q.1 ∧ p.2 = q.2

/-- No cancellation is minded. -/
def Calm (b : Bench) : Prop := (b.stream.cancellable && b.cancellation.fired) = false

theorem stream_dropReader (b : Bench) (x : String) :
    (b.dropReader x).stream = b.stream.without (b.ticket? x) := by
  rw [dropReader_eq]

theorem cancellation_dropReader (b : Bench) (x : String) :
    (b.dropReader x).cancellation = b.cancellation := by
  rw [dropReader_eq]
  rfl

theorem reader?_dropReader (b : Bench) (x y : String) :
    (b.dropReader x).reader? y = if y = x then none else b.reader? y := by
  rw [dropReader_eq]
  exact lookup_filter_ne b.readers x y

theorem pollReader_cases (b : Bench) (name : String) (r : Reader) :
    ∃ c out, b.stream.Polls r.want.serve b.cancellation r.ticket (b.pollReader name r).1.stream c
        out ∧
      (b.pollReader name r).2 = Answer.ofPolled out ∧
      ∀ y, (b.pollReader name r).1.reader? y =
        if y = name then out.ticket?.map fun n => { r with ticket := some n } else b.reader? y := by
  rcases hpoll : b.stream.poll r.want.serve b.cancellation r.ticket with ⟨t, c, out⟩
  have hpolls := Stream.polls_of_eq hpoll
  have hgone (y : String) : (b.readers.filter (·.1 ≠ name)).lookup y =
      if y = name then none else b.reader? y := lookup_filter_ne b.readers name y
  unfold pollReader
  simp only [hpoll]
  rcases out with ⟨cause | value⟩ | ticket
  · exact ⟨_, _, hpolls, rfl, hgone⟩
  · exact ⟨_, _, hpolls, rfl, hgone⟩
  · refine ⟨_, _, hpolls, rfl, fun y => ?_⟩
    simp only [reader?, List.lookup_cons, forget, hgone]
    by_cases hy : y = name
    · simp [hy, Polled.ticket?]
    · have hskip : (y == name) = false := by simp [hy]
      simp [hy, hskip]

/-- A reader looks for text once the stream is rid of its ticket. -/
theorem Shows.attempt {want : Want} {out : Polled String} (h : b.Shows v) (hb : b.Agrees)
    (hcalm : b.Calm) (ha : Stream.Attempted want.serve (b.stream.without (b.ticket? x))
      b.cancellation.fired b'.stream out)
    (hreader : ∀ y, b'.reader? y =
      if y = x then out.ticket?.map fun n => ⟨want, some n⟩ else b.reader? y) :
    Matches (b', Answer.ofPolled out) ((v.remove x).attempt x want) := by
  let rest (y : String) : Option Nat := if y = x then none else b.ticket? y
  have hrest (y : String) (hy : y ≠ x) : rest y = b.ticket? y := if_neg hy
  have hgone : rest x = none := if_pos rfl
  have hothers (y : String) (hy : y ≠ x) : b'.ticket? y = rest y := by
    rw [hrest y hy, ticket?, ticket?, hreader, if_neg hy]
  have hx : b'.ticket? x = out.ticket? := by
    rw [ticket?, hreader, if_pos rfl]
    cases out.ticket? <;> rfl
  have hcalm' : ((b.stream.without (b.ticket? x)).cancellable && b.cancellation.fired) = false := by
    rw [Stream.cancellable_without]
    exact hcalm
  obtain ⟨hstream, hanswer⟩ := (h.stream.remove hb.distinct hrest hgone).attempt
    (hb.order.without _) (Stream.Distinct.remove hb.distinct hrest hgone) hcalm' ha hgone hx hothers
  refine ⟨⟨hstream, fun y => ?_, fun y r hr => ?_⟩, hanswer⟩
  · rw [Roster.wants_attempt, ← hanswer, hreader]
    by_cases hy : y = x
    · rcases out with ⟨cause | value⟩ | ticket <;>
        simp [hy, Answer.ofPolled, Polled.ticket?, Roster.remove]
    · simp [hy, Roster.remove, h.wants]
  · rw [hreader] at hr
    split at hr
    · obtain ⟨n, -, rfl⟩ := Option.map_eq_some_iff.1 hr
      simp
    · exact h.held y r hr

theorem Shows.congr (h : b.Shows v) (hstream : b'.stream = b.stream)
    (hreader : ∀ y, b'.reader? y = b.reader? y) : b'.Shows v := by
  have hticket : b'.ticket? = b.ticket? := funext fun y => by rw [ticket?, hreader, ticket?]
  refine ⟨?_, fun y => ?_, fun y r hr => ?_⟩
  · rw [hstream, hticket]
    exact h.stream
  · rw [hreader]
    exact h.wants y
  · exact h.held y r (hreader y ▸ hr)

/-- Nothing happens to the table of readers. -/
theorem Shows.withStream {t : Stream} {v' : Roster} (h : b.Shows v) (ht : t.Shows b.ticket? v')
    (hwants : v'.wants = v.wants) : { b with stream := t }.Shows v' :=
  ⟨ht, fun x => by rw [hwants]; exact h.wants x, h.held⟩

theorem Shows.write (h : b.Shows v) (hb : b.Agrees) (text : String) :
    Matches (b.step (.write text)) (v.step (.write text)) := by
  rcases b.stream.write_cases text with ⟨hclosed, hw⟩ | ⟨hopen, t, hw, hclosed, htext⟩
  · have hstep : v.step (.write text) = (v, .fault .closed) := by
      rw [Roster.step, if_pos (h.stream.closed.trans hclosed)]
    simp only [Bench.step, hw, hstep]
    exact ⟨h, rfl⟩
  · have hnot : ¬ v.closed = true := by simp [h.stream.closed, hopen]
    simp only [Bench.step, hw, Roster.step, if_neg hnot]
    rcases Stream.write_wakes hw with ⟨hnil, rfl⟩ | ⟨hne, hwakes⟩
    · rw [if_pos hnil]
      exact ⟨h, rfl⟩
    · rw [if_neg hne]
      have hqueue : b.stream.Lists b.ticket? { v with text := v.text ++ text.toList }.line
        { v with text := v.text ++ text.toList }.called := h.stream.queue
      refine ⟨h.withStream ⟨?_, ?_, hqueue.call hb.distinct hwakes⟩ (Roster.wants_call _), rfl⟩
      · rw [Roster.text_call, htext, h.stream.text]
      · rw [Roster.closed_call, hclosed, ← hopen, h.stream.closed]

theorem Shows.close (h : b.Shows v) (hb : b.Agrees) :
    Matches (b.step .close) (v.step .close) := by
  cases hclosed : b.stream.closed with
  | true =>
    have hclose : b.stream.close = .error .closed := by rw [Stream.close, if_pos hclosed]
    simp only [Bench.step, hclose, Roster.step, if_pos (h.stream.closed.trans hclosed)]
    exact ⟨h, rfl⟩
  | false =>
    have hclose : b.stream.close = .ok { b.stream with closed := true }.wakeAll := by
      rw [Stream.close, hclosed]
      rfl
    have hnot : ¬ v.closed = true := by simp [h.stream.closed, hclosed]
    have hqueue : { b.stream with closed := true }.Lists b.ticket? { v with closed := true }.line
      { v with closed := true }.called := h.stream.queue.sameQueue ⟨rfl, rfl, rfl⟩
    simp only [Bench.step, hclose, Roster.step, if_neg hnot]
    exact ⟨h.withStream ⟨h.stream.text, rfl, hqueue.callAll hb.distinct⟩ rfl, rfl⟩

theorem Shows.readNow (h : b.Shows v) : Matches (b.step .readNow) (v.step .readNow) := by
  by_cases hend : v.text = [] ∧ v.closed = true
  · have hread : b.stream.readNow = .error .endOfStream := by
      rw [Stream.readNow, if_pos]
      rw [Bool.and_eq_true, Stream.isEmpty_iff, ← h.stream.text, ← h.stream.closed]
      exact hend
    simp only [Bench.step, hread, Roster.step, if_pos hend]
    exact ⟨h, rfl⟩
  · have hread : b.stream.readNow = .ok b.stream.drain := by
      rw [Stream.readNow, if_neg]
      rw [Bool.and_eq_true, Stream.isEmpty_iff, ← h.stream.text, ← h.stream.closed]
      exact hend
    have hqueue : b.stream.drain.2.Lists b.ticket? v.line v.called :=
      h.stream.queue.sameQueue ⟨rfl, rfl, rfl⟩
    simp only [Bench.step, hread, Roster.step, if_neg hend]
    refine ⟨h.withStream ⟨b.stream.text_drain.symm, h.stream.closed, hqueue⟩ rfl, ?_⟩
    simp only [Stream.drain, h.stream.text]

/-- Whoever is dropped is gone from the roster. -/
theorem Shows.drop (h : b.Shows v) (hb : b.Agrees) (x : String) :
    (b.dropReader x).Shows (v.remove x) := by
  have hreader := b.reader?_dropReader x
  have hgone : (b.dropReader x).ticket? x = none := by
    rw [ticket?, hreader, if_pos rfl]
    rfl
  have hothers (y : String) (hy : y ≠ x) : (b.dropReader x).ticket? y = b.ticket? y := by
    rw [ticket?, hreader, if_neg hy]
    rfl
  refine ⟨?_, fun y => ?_, fun y r hr => ?_⟩
  · rw [stream_dropReader]
    exact h.stream.remove hb.distinct hothers hgone
  · rw [hreader, Roster.remove]
    by_cases hy : y = x <;> simp [hy, h.wants]
  · rw [hreader] at hr
    split at hr
    · cases hr
    · exact h.held y r hr

theorem Shows.start (h : b.Shows v) (hb : b.Agrees) (hcalm : b.Calm) (x : String) (want : Want) :
    Matches (b.step (.start x want)) (v.step (.start x want)) := by
  obtain ⟨c, out, hpolls, hanswer, hreader⟩ :=
    (b.dropReader x).pollReader_cases x { want := want }
  have hattempted := Stream.Polls.attempted hpolls
  rw [stream_dropReader, cancellation_dropReader] at hattempted
  have hmatches := h.attempt hb hcalm hattempted fun y => by
    rw [hreader, reader?_dropReader]
    split <;> rfl
  rw [← hanswer] at hmatches
  exact hmatches

theorem Shows.poll (h : b.Shows v) (hb : b.Agrees) (hcalm : b.Calm) (x : String) :
    Matches (b.step (.poll x)) (v.step (.poll x)) := by
  have hwants := h.wants x
  cases hr : b.reader? x with
  | none =>
    rw [hr] at hwants
    rw [Roster.step_poll_of_absent hwants]
    simp only [Bench.step, hr]
    exact ⟨h, rfl⟩
  | some r =>
    rw [hr] at hwants
    obtain ⟨n, hn⟩ := Option.ne_none_iff_exists'.1 (h.held x r hr)
    have hticket : b.ticket? x = some n := by
      rw [ticket?, hr]
      exact hn
    have hcalled : v.called x = true ↔ n ∈ b.stream.woken := by
      simp [h.stream.queue.called, hticket]
    obtain ⟨c, out, hpolls, hanswer, hreader⟩ := b.pollReader_cases x r
    simp only [Bench.step, hr]
    rw [hn] at hpolls
    rcases hpolls.calm_cases hcalm with ⟨hwoken, ha⟩ | ⟨hasleep, ht, rfl⟩
    · rw [Roster.step_poll_of_called hwants (hcalled.2 hwoken)]
      have habandon : b.stream.abandon n = b.stream.without (b.ticket? x) := by
        rw [hticket]
        rfl
      rw [habandon] at ha
      have hmatches := h.attempt hb hcalm ha hreader
      rw [← hanswer] at hmatches
      exact hmatches
    · rw [Roster.step_poll_of_asleep hwants (Bool.eq_false_iff.2 (mt hcalled.1 hasleep))]
      refine ⟨h.congr ht fun y => ?_, hanswer⟩
      -- the reader is put back as it was
      rw [hreader]
      split
      · rename_i hy
        rw [hy, hr, Polled.ticket?, Option.map_some, ← hn]
      · rfl

/-- A bench does what its roster does. -/
theorem Shows.step (h : b.Shows v) (hb : b.Agrees) (hcalm : b.Calm) (op : Op) :
    Matches (b.step op) (v.step op) := by
  cases op with
  | write text => exact h.write hb text
  | close => exact h.close hb
  | readNow => exact h.readNow
  | isClosed => exact ⟨h, by rw [Roster.step, h.stream.closed]; rfl⟩
  | cancel => exact ⟨⟨h.stream, h.wants, h.held⟩, rfl⟩
  | start x want => exact h.start hb hcalm x want
  | poll x => exact h.poll hb hcalm x
  | drop x => exact ⟨h.drop hb x, rfl⟩

/-! ## Runs -/

/-- The answers of a run. -/
def answers (b : Bench) (ops : List Op) : List Answer := (b.run ops).2.map (·.answer)

theorem run_append (b : Bench) (ops more : List Op) :
    (b.run (ops ++ more)).2 = (b.run ops).2 ++ ((b.after ops).run more).2 := by
  induction ops generalizing b with
  | nil => rfl
  | cons op ops ih => exact congrArg (b.entry op :: ·) (ih (b.step op).1)

theorem answers_append (b : Bench) (ops more : List Op) :
    b.answers (ops ++ more) = b.answers ops ++ (b.after ops).answers more := by
  rw [answers, run_append, List.map_append]
  rfl

/-- No cancellation is minded in a run: the stream minds none, or there is none. -/
def Quiet (b : Bench) (ops : List Op) : Prop :=
  b.stream.cancellable = false ∨ b.cancellation.fired = false ∧ .cancel ∉ ops

theorem Quiet.calm {ops : List Op} (h : b.Quiet ops) : b.Calm := by
  rcases h with h | ⟨h, -⟩
  · rw [Calm, h, Bool.false_and]
  · rw [Calm, h, Bool.and_false]

theorem Quiet.tail {ops : List Op} (h : b.Quiet (op :: ops)) : (b.step op).1.Quiet ops := by
  obtain ⟨hminds, hfired⟩ := (b.turn_step op).cancellation_cases
  rcases h with h | ⟨h, hcancel⟩
  · exact .inl (hminds.trans h)
  · rw [List.mem_cons, not_or] at hcancel
    exact .inr ⟨(hfired.resolve_right (Ne.symm hcancel.1)).trans h, hcancel.2⟩

theorem Quiet.of_imp {ops more : List Op} (h : b.Quiet ops) (hmore : .cancel ∈ more → .cancel ∈ ops) :
    b.Quiet more :=
  h.imp_right fun ⟨hfired, hcancel⟩ => ⟨hfired, fun hmem => hcancel (hmore hmem)⟩

theorem Quiet.after {ops more : List Op} (h : b.Quiet (ops ++ more)) : (b.after ops).Quiet more := by
  induction ops generalizing b with
  | nil => exact h
  | cons op ops ih => exact ih h.tail

end Bench

namespace Roster

open Bench (Op Answer)

/-- The roster after a run. -/
def after (v : Roster) : List Op → Roster
  | [] => v
  | op :: ops => (v.step op).1.after ops

def answers (v : Roster) : List Op → List Answer
  | [] => []
  | op :: ops => (v.step op).2 :: (v.step op).1.answers ops

end Roster

namespace Bench

variable {b : Bench} {v : Roster} {ops : List Op}

/-- A run of a bench is a run of its roster. -/
theorem Shows.run (h : b.Shows v) (hb : b.Agrees) (hquiet : b.Quiet ops) :
    (b.after ops).Shows (v.after ops) ∧ b.answers ops = v.answers ops := by
  induction ops generalizing b v with
  | nil => exact ⟨h, rfl⟩
  | cons op ops ih =>
    obtain ⟨hstep, hanswer⟩ := h.step hb hquiet.calm op
    obtain ⟨hafter, hanswers⟩ := ih hstep ((b.turn_step op).agrees hb) hquiet.tail
    refine ⟨hafter, ?_⟩
    rw [Roster.answers, ← hanswer, ← hanswers]
    rfl

end Bench

end PocketShell
