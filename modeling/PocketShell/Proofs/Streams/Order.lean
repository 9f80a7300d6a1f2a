import PocketShell.Proofs.Streams.Queue

/-!
# Streams with many readers

Any number of readers may wait for a stream. Tickets are given out in order, and who goes into the
queue takes a new one, so that the queue is in the order of its tickets.

* `Stream.Expects` : somebody waits with this ticket, in the queue or called and not looked at since;
* `Stream.InOrder` : nobody in the queue stands before an older ticket, and nobody in it was called;
* `Stream.WakesOne` : one wake-up, which reaches the oldest place in the queue;
* `Stream.Attended` : if there is text and somebody is queued, then a wake-up is on its way, or the
  cancellation has called everybody.

Each of these is followed through one poll: `Polls.expects_iff`, `Polls.inOrder`, `Polls.wakes_cases`,
`Polls.attended`.
-/

namespace PocketShell

namespace Stream

/-! ## Tickets -/

/-- Somebody waits with this ticket. -/
def Expects (s : Stream) (n : Nat) : Prop := { ticket := n } ∈ s.live ∨ n ∈ s.woken

structure InOrder (s : Stream) : Prop where
  sorted : s.live.Pairwise (·.ticket < ·.ticket)
  issued : ∀ n, s.Expects n → n < s.issued
  apart : ∀ n ∈ s.woken, { ticket := n } ∉ s.live

variable {s t : Stream} {n : Nat}

theorem mem_live_iff : { ticket := n } ∈ s.live ↔ { ticket := n } ∈ s.waiters := by
  simp [live]

theorem eq_of_mem_live {w : Waiter} (h : w ∈ s.live) : w = { ticket := w.ticket } := by
  obtain ⟨ticket, isLive⟩ := w
  obtain rfl : isLive = true := (List.mem_filter.1 h).2
  rfl

theorem inOrder_of_fresh (hwaiters : s.waiters = []) (hwoken : s.woken = []) : s.InOrder := by
  have hlive : s.live = [] := by rw [live, hwaiters]; rfl
  constructor
  · simp [hlive]
  · simp [Expects, hlive, hwoken]
  · simp [hwoken]

/-! ## Wake-ups -/

/-- Nothing happens to the queue. -/
structure SameQueue (s t : Stream) : Prop where
  live : t.live = s.live
  woken : t.woken = s.woken
  issued : t.issued = s.issued

/-- One wake-up takes the oldest place in the queue, if there is one. -/
structure WakesOne (s t : Stream) : Prop where
  live : t.live = s.live.tail
  woken : t.woken = (s.live.head?.map (·.ticket)).toList ++ s.woken
  issued : t.issued = s.issued

theorem SameQueue.expects_iff (h : SameQueue s t) : t.Expects n ↔ s.Expects n := by
  rw [Expects, h.live, h.woken, Expects]

theorem SameQueue.inOrder (h : SameQueue s t) (hs : s.InOrder) : t.InOrder where
  sorted := by rw [h.live]; exact hs.sorted
  issued n hn := by rw [h.issued]; exact hs.issued n (h.expects_iff.1 hn)
  apart := by rw [h.live, h.woken]; exact hs.apart

/-- Who is called is still waited for. -/
theorem WakesOne.expects_iff (h : WakesOne s t) : t.Expects n ↔ s.Expects n := by
  rw [Expects, h.live, h.woken, Expects]
  cases hlive : s.live with
  | nil => simp
  | cons w rest =>
    have hw : w = { ticket := w.ticket } := eq_of_mem_live (s := s) (by simp [hlive])
    have hhead : { ticket := n } = w ↔ n = w.ticket := by
      constructor
      · rintro rfl; rfl
      · rintro rfl; exact hw.symm
    simp only [List.tail_cons, List.head?_cons, Option.map_some, Option.toList_some,
      List.singleton_append, List.mem_cons, hhead]
    rw [or_left_comm, or_assoc]

theorem WakesOne.inOrder (h : WakesOne s t) (hs : s.InOrder) : t.InOrder := by
  refine ⟨?_, fun n hn => ?_, fun n hn hmem => ?_⟩
  · rw [h.live]
    exact hs.sorted.tail
  · rw [h.issued]
    exact hs.issued n (h.expects_iff.1 hn)
  · rw [h.live] at hmem
    rw [h.woken, List.mem_append] at hn
    cases hlive : s.live with
    | nil => simp [hlive] at hmem
    | cons w rest =>
      rw [hlive] at hmem hn
      rcases hn with hhead | hwoken
      · -- the first ticket is older than all behind it
        have hsorted := hs.sorted
        rw [hlive] at hsorted
        have hlt : w.ticket < n := (List.pairwise_cons.1 hsorted).1 _ hmem
        have heq : n = w.ticket := by simpa using hhead
        omega
      · exact hs.apart n hwoken (by rw [hlive]; exact List.mem_cons_of_mem _ hmem)

@[simp] theorem issued_wakeNext (s : Stream) : s.wakeNext.issued = s.issued := by
  unfold wakeNext
  split <;> rfl

@[simp] theorem issued_append (s : Stream) (chunk : List Char) :
    (s.append chunk).issued = s.issued := by
  unfold append
  split <;> rfl

@[simp] theorem issued_settle (s : Stream) : s.settle.issued = s.issued := by
  unfold settle
  split <;> rfl

@[simp] theorem issued_advance (s : Stream) : s.advance.issued = s.issued := by
  unfold advance
  rw [issued_settle]
  exact issued_settle s

theorem sameQueue_advance (s : Stream) : SameQueue s s.advance :=
  ⟨s.live_advance, s.woken_advance, s.issued_advance⟩

theorem wakesOne_wakeNext (s : Stream) : WakesOne s s.wakeNext :=
  ⟨s.wakeNext_queue.1, s.wakeNext_queue.2, s.issued_wakeNext⟩

/-- A wake-up of a stream with the same queue. -/
theorem SameQueue.wakesOne {u : Stream} (h : SameQueue s t) (hu : WakesOne t u) :
    WakesOne s u where
  live := by rw [hu.live, h.live]
  woken := by rw [hu.woken, h.live, h.woken]
  issued := hu.issued.trans h.issued

/-- What is left is handed on. -/
theorem passOn_cases (s : Stream) :
    s.text = [] ∧ s.passOn = s ∨ s.text ≠ [] ∧ WakesOne s s.passOn := by
  unfold passOn
  cases hempty : s.isEmpty with
  | true => exact .inl ⟨s.isEmpty_iff.1 hempty, rfl⟩
  | false =>
    refine .inr ⟨fun hnil => ?_, s.wakesOne_wakeNext⟩
    rw [s.isEmpty_iff.2 hnil] at hempty
    cases hempty

theorem write_wakes {new : String} (h : s.write new = .ok t) :
    new.toList = [] ∧ t = s ∨ new.toList ≠ [] ∧ WakesOne s t := by
  unfold write at h
  split at h
  · cases h
  · split at h
    · rename_i hnew
      cases h
      exact .inl ⟨List.isEmpty_iff.1 hnew, rfl⟩
    · rename_i hnew
      cases h
      have hsame : SameQueue s (s.append new.toList) :=
        ⟨s.live_append _, s.woken_append _, s.issued_append _⟩
      exact .inr ⟨fun hnil => hnew (by simp [hnil]), hsame.wakesOne (wakesOne_wakeNext _)⟩

/-- Who reads all there is calls nobody; who leaves text calls the next. -/
theorem serve_wakes {want : Want} {answer : String} (h : want.serve s = some (answer, t)) :
    t.text = [] ∧ SameQueue s t ∨ t.text ≠ [] ∧ WakesOne s t := by
  obtain ⟨ch, rest, -, ⟨-, -, rfl⟩ | ⟨-, -, rfl⟩ | ⟨-, -, rfl⟩⟩ := Want.serve_eq_some h
  · exact .inl ⟨s.text_drain, rfl, rfl, rfl⟩
  · rw [text_passOn]
    rcases s.advance.passOn_cases with ⟨htext, hsame⟩ | ⟨htext, hwakes⟩
    · rw [hsame]
      exact .inl ⟨htext, s.sameQueue_advance⟩
    · exact .inr ⟨htext, s.sameQueue_advance.wakesOne hwakes⟩
  · rw [text_passOn]
    rcases s.passOn_cases with ⟨htext, hsame⟩ | ⟨htext, hwakes⟩
    · rw [hsame]
      exact .inl ⟨htext, rfl, rfl, rfl⟩
    · exact .inr ⟨htext, hwakes⟩

/-! ## Leaving and entering the queue -/

theorem expects_abandon {m : Nat} : (s.abandon n).Expects m ↔ s.Expects m ∧ n ≠ m := by
  rw [Expects, live_abandon, woken_abandon, Expects]
  simp only [List.mem_filter, decide_eq_true_eq]
  constructor
  · rintro (⟨hmem, hne⟩ | ⟨hmem, hne⟩)
    · exact ⟨.inl hmem, Ne.symm hne⟩
    · exact ⟨.inr hmem, Ne.symm hne⟩
  · rintro ⟨hmem | hmem, hne⟩
    · exact .inl ⟨hmem, Ne.symm hne⟩
    · exact .inr ⟨hmem, Ne.symm hne⟩

theorem InOrder.abandon (h : s.InOrder) (n : Nat) : (s.abandon n).InOrder where
  sorted := by rw [live_abandon]; exact h.sorted.filter _
  issued m hm := h.issued m (expects_abandon.1 hm).1
  apart m hm hmem := by
    rw [live_abandon] at hmem
    exact h.apart m (List.mem_filter.1 hm).1 (List.mem_filter.1 hmem).1

theorem expects_enqueue_true {m : Nat} :
    (s.enqueue true).Expects m ↔ s.Expects m ∨ s.issued = m := by
  rw [Expects, live_enqueue_true, Expects]
  simp only [List.mem_append, List.mem_singleton, Waiter.mk.injEq, and_true, enqueue]
  rw [or_right_comm, eq_comm (a := m)]

theorem expects_enqueue_false {m : Nat} : (s.enqueue false).Expects m ↔ s.Expects m := by
  rw [Expects, live_enqueue_false, Expects]
  rfl

theorem InOrder.enqueue_true (h : s.InOrder) : (s.enqueue true).InOrder := by
  refine ⟨?_, fun n hn => ?_, fun n hn hmem => ?_⟩
  · rw [live_enqueue_true, List.pairwise_append]
    refine ⟨h.sorted, List.pairwise_singleton _ _, fun w hw v hv => ?_⟩
    obtain rfl := List.mem_singleton.1 hv
    refine h.issued w.ticket (.inl ?_)
    rw [← eq_of_mem_live hw]
    exact hw
  · rcases expects_enqueue_true.1 hn with hn | rfl
    · exact Nat.lt_succ_of_lt (h.issued n hn)
    · exact Nat.lt_succ_self _
  · rw [live_enqueue_true, List.mem_append, List.mem_singleton] at hmem
    rcases hmem with hmem | heq
    · exact h.apart n hn hmem
    · have hlt : n < s.issued := h.issued n (.inr hn)
      rw [Waiter.mk.injEq] at heq
      omega

theorem InOrder.enqueue_false (h : s.InOrder) : (s.enqueue false).InOrder where
  sorted := by rw [live_enqueue_false]; exact h.sorted
  issued n hn := Nat.lt_succ_of_lt (h.issued n (expects_enqueue_false.1 hn))
  apart n hn := by rw [live_enqueue_false]; exact h.apart n hn

theorem expects_wakeAll : s.wakeAll.Expects n ↔ s.Expects n := by
  rw [Expects, live_wakeAll, woken_wakeAll, Expects, List.mem_append, List.mem_map]
  constructor
  · rintro (hmem | ⟨w, hw, rfl⟩ | hmem)
    · cases hmem
    · rw [← eq_of_mem_live hw]
      exact .inl hw
    · exact .inr hmem
  · rintro (hmem | hmem)
    · exact .inr (.inl ⟨_, hmem, rfl⟩)
    · exact .inr (.inr hmem)

theorem InOrder.wakeAll (h : s.InOrder) : s.wakeAll.InOrder where
  sorted := List.Pairwise.nil
  issued n hn := h.issued n (expects_wakeAll.1 hn)
  apart := by simp

/-! ## One poll -/

/-- The stream without the reader that holds this ticket, if any. -/
def without (s : Stream) : Option Nat → Stream
  | none => s
  | some n => s.abandon n

theorem expects_without {ticket : Option Nat} :
    (s.without ticket).Expects n ↔ s.Expects n ∧ ticket ≠ some n := by
  cases ticket with
  | none => simp [without]
  | some m => rw [without, expects_abandon, Ne, Ne, Option.some.injEq]

theorem live_without (ticket : Option Nat) :
    (s.without ticket).live = s.live.filter (fun w => some w.ticket ≠ ticket) := by
  cases ticket with
  | none => exact (List.filter_eq_self.2 fun _ _ => rfl).symm
  | some n => simp only [without, live_abandon, ne_eq, Option.some.injEq]

theorem mem_woken_without {ticket : Option Nat} :
    n ∈ (s.without ticket).woken ↔ n ∈ s.woken ∧ ticket ≠ some n := by
  cases ticket with
  | none => simp [without]
  | some m =>
    rw [without, woken_abandon, List.mem_filter, decide_eq_true_eq, ne_eq, ne_eq, Option.some.injEq]
    exact and_congr_right fun _ => not_congr eq_comm

theorem InOrder.without (h : s.InOrder) (ticket : Option Nat) : (s.without ticket).InOrder := by
  cases ticket with
  | none => exact h
  | some n => exact h.abandon n

theorem issued_without (ticket : Option Nat) : (s.without ticket).issued = s.issued := by
  cases ticket <;> rfl

theorem cancellable_without (ticket : Option Nat) :
    (s.without ticket).cancellable = s.cancellable := by
  cases ticket <;> rfl

variable {want : Want} {ticket : Option Nat} {fired : Bool} {out : Polled String}
  {c c' : Cancellation}

/-- The read was answered, and it left text for others. -/
def HandsOver (out : Polled String) (t : Stream) : Prop :=
  (∃ answer, out = .ready (.ok answer)) ∧ t.text ≠ []

theorem not_handsOver (hout : ∀ answer, out ≠ .ready (.ok answer)) : ¬ HandsOver out t := by
  rintro ⟨⟨answer, h⟩, -⟩
  exact hout answer h

namespace Attempted

theorem expects_iff (h : Attempted want.serve s fired t out) :
    t.Expects n ↔ s.Expects n ∨ out.ticket? = some n := by
  cases h with
  | served hs =>
    rw [or_iff_left (by simp [Polled.ticket?])]
    rcases serve_wakes hs with ⟨-, hq⟩ | ⟨-, hq⟩ <;> exact hq.expects_iff
  | ended => simp [Polled.ticket?]
  | cancelled => simp [Polled.ticket?, expects_enqueue_false]
  | queued => rw [expects_enqueue_true, Polled.ticket?, Option.some.injEq]

theorem inOrder (h : Attempted want.serve s fired t out) (hs : s.InOrder) : t.InOrder := by
  cases h with
  | served hserve => rcases serve_wakes hserve with ⟨-, hq⟩ | ⟨-, hq⟩ <;> exact hq.inOrder hs
  | ended => exact hs
  | cancelled => exact hs.enqueue_false
  | queued => exact hs.enqueue_true

/-- A wake-up comes from a hand-over. -/
theorem wakes_cases (h : Attempted want.serve s fired t out) :
    ¬ HandsOver out t ∧ t.woken = s.woken ∨ HandsOver out t ∧ WakesOne s t := by
  cases h with
  | @served answer _ hserve =>
    rcases serve_wakes hserve with ⟨htext, hq⟩ | ⟨htext, hq⟩
    · exact .inl ⟨fun hover => hover.2 htext, hq.woken⟩
    · exact .inr ⟨⟨⟨answer, rfl⟩, htext⟩, hq⟩
  | ended | cancelled | queued => exact .inl ⟨not_handsOver (by simp), rfl⟩

end Attempted

namespace Polls

/-- A poll ends the wait of the reader that is polled, or begins one. -/
theorem expects_iff (h : Polls want.serve s c ticket t c' out)
    (hticket : ∀ m, ticket = some m → s.Expects m) :
    t.Expects n ↔ (s.without ticket).Expects n ∨ out.ticket? = some n := by
  cases h with
  | fresh h => exact h.expects_iff
  | called _ _ h => exact h.expects_iff
  | givesUp => simp [without, Polled.ticket?]
  | @stays m =>
    rw [expects_without, Ne, Option.some.injEq, Polled.ticket?, Option.some.injEq]
    constructor
    · intro hn
      by_cases hmn : m = n
      · exact .inr hmn
      · exact .inl ⟨hn, hmn⟩
    · rintro (⟨hn, -⟩ | rfl)
      · exact hn
      · exact hticket m rfl

theorem inOrder (h : Polls want.serve s c ticket t c' out) (hs : s.InOrder) : t.InOrder := by
  cases h with
  | fresh h => exact h.inOrder hs
  | called _ _ h => exact h.inOrder (hs.abandon _)
  | givesUp => exact hs.abandon _
  | stays => exact hs

/-- A reader that waits on keeps its ticket, or has a new one. -/
theorem ticket_cases (h : Polls want.serve s c ticket t c' out) (hn : out.ticket? = some n) :
    ticket = some n ∨ n = s.issued := by
  have hattempted {s : Stream} (ha : Attempted want.serve s c.fired t out) : n = s.issued := by
    cases ha with
    | served | ended | cancelled => cases hn
    | queued => exact (Option.some.inj hn).symm
  cases h with
  | fresh h => exact .inr (hattempted h)
  | @called m _ _ _ _ _ h => exact .inr (hattempted (s := s.abandon m) h)
  | givesUp => cases hn
  | stays => exact .inl hn

/-- Who waits on has not been called. -/
theorem not_called (h : Polls want.serve s c ticket t c' out) (hs : s.InOrder)
    (hn : out.ticket? = some n) : n ∉ t.woken ∧ (t.cancellable && c'.fired) = false := by
  have hattempted {s : Stream} (hs : s.InOrder) (ha : Attempted want.serve s c.fired t out) :
      n ∉ t.woken ∧ (t.cancellable && c.fired) = false := by
    cases ha with
    | served | ended | cancelled => cases hn
    | queued _ _ hquiet =>
      obtain rfl := Option.some.inj hn
      exact ⟨fun hmem => Nat.lt_irrefl _ (hs.issued _ (.inr hmem)), hquiet⟩
  rw [h.fired]
  cases h with
  | fresh h => exact hattempted hs h
  | called _ _ h => exact hattempted (hs.abandon _) h
  | givesUp => cases hn
  | stays hm hquiet =>
    obtain rfl := Option.some.inj hn
    exact ⟨hm, hquiet⟩

theorem wakes_cases (h : Polls want.serve s c ticket t c' out) :
    ¬ HandsOver out t ∧ (∀ m ∈ t.woken, m ∈ s.woken) ∨
      HandsOver out t ∧ WakesOne (s.without ticket) t := by
  cases h with
  | fresh h => exact h.wakes_cases.imp_left fun ⟨hover, heq⟩ => ⟨hover, by simp [heq]⟩
  | called _ _ h =>
    refine h.wakes_cases.imp_left fun ⟨hover, heq⟩ => ⟨hover, fun m hm => ?_⟩
    rw [heq] at hm
    exact (List.mem_filter.1 hm).1
  | givesUp => exact .inl ⟨not_handsOver (by simp), fun m hm => (List.mem_filter.1 hm).1⟩
  | stays => exact .inl ⟨not_handsOver (by simp), fun m hm => hm⟩

end Polls

/-! ## Nobody sleeps beside text -/

/-- If there is text and somebody is queued, then somebody has been called. -/
def Attended (s : Stream) (fired : Bool) : Prop :=
  s.text ≠ [] → s.live ≠ [] → s.woken ≠ [] ∨ (s.cancellable && fired) = true

/-- A closed stream has an empty queue. -/
def Dismissed (s : Stream) : Prop := s.closed = true → s.waiters = []

theorem WakesOne.attended (h : WakesOne s t) : t.Attended fired := by
  intro _ hlive
  left
  rw [h.live] at hlive
  rw [h.woken]
  cases hs : s.live with
  | nil => simp [hs] at hlive
  | cons w rest => simp

theorem attended_of_cancelled (h : (s.cancellable && fired) = true) : s.Attended fired :=
  fun _ _ => .inr h

theorem attended_of_empty (h : s.text = []) : s.Attended fired := fun htext => absurd h htext

theorem Dismissed.live (h : s.Dismissed) (hclosed : s.closed = true) : s.live = [] := by
  rw [Stream.live, h hclosed]
  rfl

theorem Dismissed.abandon (h : s.Dismissed) (n : Nat) : (s.abandon n).Dismissed := by
  intro hclosed
  rw [Stream.abandon, h hclosed]
  rfl

theorem Dismissed.without (h : s.Dismissed) (ticket : Option Nat) :
    (s.without ticket).Dismissed := by
  cases ticket with
  | none => exact h
  | some n => exact h.abandon n

theorem Dismissed.attended (h : s.Dismissed) (hclosed : s.closed = true) : s.Attended fired :=
  fun _ hlive => absurd (h.live hclosed) hlive

theorem Dismissed.wakeNext (h : s.Dismissed) : s.wakeNext.Dismissed := by
  intro hclosed
  have hnil := h (s.closed_wakeNext ▸ hclosed)
  simp [Stream.wakeNext, hnil, callNext]

@[simp] theorem waiters_settle (s : Stream) : s.settle.waiters = s.waiters := by
  unfold settle
  split <;> rfl

@[simp] theorem waiters_advance (s : Stream) : s.advance.waiters = s.waiters := by
  unfold advance
  rw [waiters_settle]
  exact waiters_settle s

theorem Dismissed.passOn (h : s.Dismissed) : s.passOn.Dismissed := by
  unfold Stream.passOn
  split
  · exact h
  · exact h.wakeNext

theorem Dismissed.serve {answer : String} (h : s.Dismissed)
    (hs : want.serve s = some (answer, t)) : t.Dismissed := by
  obtain ⟨ch, rest, -, ⟨-, -, rfl⟩ | ⟨-, -, rfl⟩ | ⟨-, -, rfl⟩⟩ := Want.serve_eq_some hs
  · exact h
  · refine Dismissed.passOn fun hclosed => ?_
    rw [waiters_advance]
    exact h (s.closed_advance ▸ hclosed)
  · exact h.passOn

theorem Attempted.dismissed (h : Attempted want.serve s fired t out) (hs : s.Dismissed) :
    t.Dismissed := by
  cases h with
  | served hserve => exact hs.serve hserve
  | ended => exact hs
  | cancelled _ hopen | queued _ hopen =>
    exact fun hclosed => absurd hclosed (Bool.eq_false_iff.1 hopen)

/-- After a read everybody is attended to again, whatever was before. -/
theorem Attempted.attended (h : Attempted want.serve s fired t out) (hs : s.Dismissed) :
    t.Attended fired := by
  cases h with
  | served hserve =>
    rcases serve_wakes hserve with ⟨htext, -⟩ | ⟨-, hwakes⟩
    · exact attended_of_empty htext
    · exact hwakes.attended
  | ended _ hclosed => exact hs.attended hclosed
  | cancelled _ _ hminds hfired => exact attended_of_cancelled (by simp [enqueue, hminds, hfired])
  | queued hserve =>
    refine attended_of_empty ?_
    rw [text_enqueue]
    exact Want.serve_eq_none_iff.1 hserve

namespace Polls

theorem dismissed (h : Polls want.serve s c ticket t c' out) (hs : s.Dismissed) :
    t.Dismissed := by
  cases h with
  | fresh h => exact h.dismissed hs
  | called _ _ h => exact h.dismissed (hs.abandon _)
  | givesUp => exact hs.abandon _
  | stays => exact hs

theorem attended (h : Polls want.serve s c ticket t c' out) (hs : s.Dismissed)
    (ha : s.Attended c.fired) : t.Attended c'.fired := by
  rw [h.fired]
  cases h with
  | fresh h => exact h.attended hs
  | called _ _ h => exact h.attended (hs.abandon _)
  | givesUp hminds hfired =>
    exact attended_of_cancelled (by rw [Bool.and_eq_true]; exact ⟨hminds, hfired⟩)
  | stays => exact ha

end Polls

/-- A reader that was not called may go. -/
theorem Attended.without (h : s.Attended fired) (hticket : ∀ n ∈ ticket, n ∉ s.woken) :
    (s.without ticket).Attended fired := by
  cases ticket with
  | none => exact h
  | some n =>
    intro htext hlive
    have hwoken : (s.abandon n).woken = s.woken := by
      rw [woken_abandon, List.filter_eq_self]
      intro m hm
      rw [decide_eq_true_eq]
      rintro rfl
      exact hticket m rfl hm
    rw [Stream.without, hwoken]
    refine h htext fun hnil => hlive ?_
    rw [Stream.without, live_abandon, hnil]
    rfl

end Stream

end PocketShell
