import PocketShell.Proofs.Streams.Polling

/-!
# Streams with one reader

A part of a script that reads a stream is the only one that does, so at most one place in the queue
of that stream has somebody behind it.

* `Stream.live` : the places in the queue that somebody holds;
* `Stream.Awaited` : the stream is waited for with a given ticket and by nobody else, or by nobody at
  all. Who waits is queued while there is nothing to be had, and has been called else;
* `Awaited.put`, `Awaited.shut` : writing and closing keep this;
* `Awaited.polls` : and so do polls of the reader, which may end its wait or begin one;
* `Awaited.of_not_calls` : a reader who would not get on is queued on an open and empty stream.
-/

namespace PocketShell

namespace Stream

/-- The places in the queue that somebody holds. -/
def live (s : Stream) : List Waiter := s.waiters.filter (·.live)

/-! ## What is done to the queue -/

theorem callNext_eq (ws : List Waiter) :
    ((callNext ws).1.filter (·.live)) = (ws.filter (·.live)).tail ∧
      (callNext ws).2 = (ws.filter (·.live)).head?.map (·.ticket) := by
  induction ws with
  | nil => exact ⟨rfl, rfl⟩
  | cons w ws ih =>
    by_cases h : w.live = true
    · simp [callNext, h]
    · simpa [callNext, h] using ih

/-- A wake-up takes the oldest place that somebody holds. -/
theorem wakeNext_queue (s : Stream) :
    s.wakeNext.live = s.live.tail ∧
      s.wakeNext.woken = (s.live.head?.map (·.ticket)).toList ++ s.woken := by
  obtain ⟨hrest, hticket⟩ := callNext_eq s.waiters
  unfold wakeNext live
  rw [← hrest, ← hticket]
  rcases callNext s.waiters with ⟨rest, _ | ticket⟩
  · exact ⟨rfl, rfl⟩
  · exact ⟨rfl, rfl⟩

/-- Nobody is woken where nobody waits. -/
theorem wakeNext_of_live_nil {s : Stream} (h : s.live = []) :
    s.wakeNext.live = [] ∧ s.wakeNext.woken = s.woken := by
  obtain ⟨hlive, hwoken⟩ := s.wakeNext_queue
  rw [h] at hlive hwoken
  exact ⟨hlive, hwoken⟩

theorem passOn_of_live_nil {s : Stream} (h : s.live = []) :
    s.passOn.live = [] ∧ s.passOn.woken = s.woken := by
  unfold passOn
  split
  · exact ⟨h, rfl⟩
  · exact wakeNext_of_live_nil h

@[simp] theorem live_wakeAll (s : Stream) : s.wakeAll.live = [] := rfl

theorem woken_wakeAll (s : Stream) : s.wakeAll.woken = s.live.map (·.ticket) ++ s.woken := rfl

@[simp] theorem live_append (s : Stream) (chunk : List Char) : (s.append chunk).live = s.live := by
  unfold append
  split <;> rfl

@[simp] theorem woken_append (s : Stream) (chunk : List Char) :
    (s.append chunk).woken = s.woken := by
  unfold append
  split <;> rfl

@[simp] theorem live_settle (s : Stream) : s.settle.live = s.live := by
  unfold settle
  split <;> rfl

@[simp] theorem woken_settle (s : Stream) : s.settle.woken = s.woken := by
  unfold settle
  split <;> rfl

@[simp] theorem live_advance (s : Stream) : s.advance.live = s.live := by
  unfold advance
  rw [live_settle]
  exact live_settle s

@[simp] theorem woken_advance (s : Stream) : s.advance.woken = s.woken := by
  unfold advance
  rw [woken_settle]
  exact woken_settle s

theorem live_abandon (s : Stream) (n : Nat) :
    (s.abandon n).live = s.live.filter (·.ticket ≠ n) := by
  unfold live abandon
  dsimp only
  induction s.waiters with
  | nil => rfl
  | cons w ws ih =>
    by_cases hticket : w.ticket = n
    · cases hlive : w.live <;> simpa [hticket, hlive] using ih
    · cases hlive : w.live <;> simpa [hticket, hlive] using ih

@[simp] theorem woken_abandon (s : Stream) (n : Nat) :
    (s.abandon n).woken = s.woken.filter (· ≠ n) := rfl

@[simp] theorem live_enqueue_true (s : Stream) :
    (s.enqueue true).live = s.live ++ [{ ticket := s.issued }] := by
  simp [live, enqueue]

@[simp] theorem live_enqueue_false (s : Stream) : (s.enqueue false).live = s.live := by
  simp [live, enqueue]

/-- A reader who would not get on stays where it is. -/
theorem poll_of_not_calls {α : Type} (serve : Stream → Option (α × Stream)) {s : Stream}
    {c : Cancellation} {n : Nat} (h : s.calls c.fired n = false) :
    s.poll serve c (some n) = (s, c, .waiting n) := by
  rw [calls, Bool.or_eq_false_iff] at h
  have hgoes : s.goesOn c n = (false, c) := by
    unfold goesOn
    rw [h.1]
    rfl
  simp only [poll, hgoes, h.2, Bool.false_eq_true, if_false]

/-! ## Who waits -/

/-- The reader with this ticket waits for the stream, and nobody else does. -/
inductive Awaited (s : Stream) : Option Nat → Prop where
  | nobody (hlive : s.live = []) (hwoken : s.woken = []) : Awaited s none
  | queued {n : Nat} (hlive : s.live = [{ ticket := n }]) (hwoken : s.woken = [])
    (hopen : s.closed = false) (hempty : s.text = []) : Awaited s (some n)
  | called {n : Nat} (hlive : s.live = []) (hwoken : s.woken = [n])
    (hmore : s.text ≠ [] ∨ s.closed = true) : Awaited s (some n)

namespace Awaited

variable {s t : Stream} {ticket : Option Nat} {n : Nat}

theorem of_fresh {s : Stream} (hwaiters : s.waiters = []) (hwoken : s.woken = []) :
    Awaited s none :=
  .nobody (by rw [live, hwaiters]; rfl) hwoken

theorem write {new : String} (h : Awaited s ticket) (hw : s.write new = .ok t) :
    Awaited t ticket := by
  unfold Stream.write at hw
  split at hw
  · cases hw
  · split at hw
    · cases hw
      exact h
    · rename_i hnew
      cases hw
      have htext : (s.append new.toList).wakeNext.text ≠ [] := by
        rw [text_wakeNext, text_append]
        simp_all
      obtain ⟨hlive', hwoken'⟩ := (s.append new.toList).wakeNext_queue
      rw [live_append] at hlive' hwoken'
      rw [woken_append] at hwoken'
      cases h with
      | nobody hlive hwoken =>
        rw [hlive] at hlive' hwoken'
        exact .nobody hlive' (hwoken'.trans hwoken)
      | queued hlive hwoken hopen hempty =>
        rw [hlive] at hlive' hwoken'
        rw [hwoken] at hwoken'
        exact .called hlive' hwoken' (.inl htext)
      | called hlive hwoken hmore =>
        rw [hlive] at hlive' hwoken'
        exact .called hlive' (hwoken'.trans hwoken) (.inl htext)

theorem put (h : Awaited s ticket) (new : String) : Awaited (s.put new) ticket := by
  unfold Stream.put
  rcases write_cases s new with ⟨-, hw⟩ | ⟨-, t, hw, -⟩
  · rw [hw]
    exact h
  · rw [hw]
    exact h.write hw

/-- Everybody is called when a stream with the same queue is closed. -/
theorem wakeAll (h : Awaited s ticket) (hclosed : t.closed = true) (hlive : t.live = s.live)
    (hwoken : t.woken = s.woken) : Awaited t.wakeAll ticket := by
  have hall := t.woken_wakeAll
  rw [hlive, hwoken] at hall
  cases h with
  | nobody hlive hwoken =>
    rw [hlive, hwoken] at hall
    exact .nobody t.live_wakeAll hall
  | queued hlive hwoken
  | called hlive hwoken =>
    rw [hlive, hwoken] at hall
    exact .called t.live_wakeAll hall (.inr hclosed)

theorem shut (h : Awaited s ticket) : Awaited s.shut ticket := by
  unfold Stream.shut close
  by_cases hclosed : s.closed = true
  · rw [if_pos hclosed]
    exact h
  · rw [if_neg hclosed]
    exact h.wakeAll rfl rfl rfl

theorem abandon (h : Awaited s (some n)) : Awaited (s.abandon n) none := by
  cases h with
  | queued hlive hwoken
  | called hlive hwoken => exact .nobody (by simp [live_abandon, hlive]) (by simp [hwoken])

/-- A reader who waits for an open and empty stream would not get on. -/
theorem not_calls {fired : Bool} (h : Awaited s (some n)) (hopen : s.closed = false)
    (hempty : s.text = []) (hquiet : (s.cancellable && fired) = false) :
    s.calls fired n = false := by
  cases h with
  | queued hlive hwoken => simp [calls, hwoken, hquiet]
  | called hlive hwoken hmore =>
    rcases hmore with hmore | hmore
    · exact absurd hempty hmore
    · exact absurd hmore (Bool.eq_false_iff.1 hopen)

/-- A reader who waits and would not get on. -/
theorem of_not_calls {fired : Bool} (h : Awaited s (some n)) (hcalls : s.calls fired n = false) :
    { ticket := n } ∈ s.waiters ∧ s.closed = false ∧ s.text = [] ∧
      (s.cancellable && fired) = false := by
  rw [calls, Bool.or_eq_false_iff] at hcalls
  cases h with
  | queued hlive hwoken hopen hempty =>
    have hmem : { ticket := n } ∈ s.live := by simp [hlive]
    exact ⟨(List.mem_filter.1 hmem).1, hopen, hempty, hcalls.2⟩
  | called hlive hwoken hmore => simp [hwoken] at hcalls

variable {want : Want} {fired : Bool} {answer : String}

/-- Being served does not call anybody who is not there. -/
theorem serve (h : Awaited s none) (hs : want.serve s = some (answer, t)) : Awaited t none := by
  obtain ⟨hlive, hwoken⟩ : s.live = [] ∧ s.woken = [] := by
    cases h with
    | nobody hlive hwoken => exact ⟨hlive, hwoken⟩
  obtain ⟨ch, rest, -, ⟨-, -, rfl⟩ | ⟨-, -, rfl⟩ | ⟨-, -, rfl⟩⟩ := Want.serve_eq_some hs
  · exact .nobody hlive hwoken
  · obtain ⟨hlive', hwoken'⟩ := passOn_of_live_nil (s.live_advance.trans hlive)
    exact .nobody hlive' (hwoken'.trans (s.woken_advance.trans hwoken))
  · obtain ⟨hlive', hwoken'⟩ := passOn_of_live_nil hlive
    exact .nobody hlive' (hwoken'.trans hwoken)

theorem enqueue_false (h : Awaited s none) : Awaited (s.enqueue false) none := by
  cases h with
  | nobody hlive hwoken => exact .nobody (by rw [live_enqueue_false, hlive]) hwoken

/-- Who finds nothing is queued. -/
theorem enqueue_true (h : Awaited s none) (hopen : s.closed = false) (hempty : s.text = []) :
    Awaited (s.enqueue true) (some s.issued) := by
  cases h with
  | nobody hlive hwoken => exact .queued (by rw [live_enqueue_true, hlive]; rfl) hwoken hopen hempty

end Awaited

end Stream

/-- The ticket with which a read waits after a poll. -/
def Polled.ticket? {α : Type} : Polled α → Option Nat
  | ready _ => none
  | waiting n => some n

namespace Stream

namespace Awaited

variable {s t : Stream} {want : Want} {ticket : Option Nat} {fired : Bool} {out : Polled String}
  {c c' : Cancellation} {m n : Nat}

theorem attempted (h : Awaited s none) (ha : Attempted want.serve s fired t out) :
    Awaited t out.ticket? := by
  cases ha with
  | served hs => exact h.serve hs
  | ended => exact h
  | cancelled => exact h.enqueue_false
  | queued hs hopen => exact h.enqueue_true hopen (Want.serve_eq_none_iff.1 hs)

/-- The queue after a poll of the reader. -/
theorem polls (h : Awaited s ticket) (hp : Polls want.serve s c ticket t c' out) :
    Awaited t out.ticket? := by
  cases hp with
  | fresh ha => exact h.attempted ha
  | called hn hc ha => exact h.abandon.attempted ha
  | givesUp => exact h.abandon
  | stays => exact h

/-- Who has been called gets on. So a reader who waits and waits on after a poll has not been called,
and nothing has happened. -/
theorem polls_waiting (h : Awaited s (some m))
    (hp : Polls want.serve s c (some m) t c' (.waiting n)) :
    t = s ∧ c' = c ∧ n = m ∧ s.calls c.fired m = false := by
  cases hp with
  | stays hn hquiet => exact ⟨rfl, rfl, rfl, by simp [calls, hn, hquiet]⟩
  | called hn hc ha =>
    cases h with
    | queued hlive hwoken => simp [hwoken] at hn
    | called hlive hwoken hmore =>
      cases ha with
      | queued hs hopen =>
        have hempty : (s.abandon m).text = [] := Want.serve_eq_none_iff.1 hs
        rcases hmore with hmore | hmore
        · exact absurd hempty hmore
        · exact absurd hmore (Bool.eq_false_iff.1 hopen)

/-- Who has to wait has found nothing. -/
theorem empty_of_waiting (h : Awaited s ticket)
    (hp : Polls want.serve s c ticket t c' (.waiting n)) : t.text = [] := by
  have hattempted {s : Stream} (ha : Attempted want.serve s c.fired t (.waiting n)) :
      t.text = [] := by
    cases ha with
    | queued hs =>
      rw [text_enqueue]
      exact Want.serve_eq_none_iff.1 hs
  cases hp with
  | fresh ha => exact hattempted ha
  | called _ _ ha => exact hattempted ha
  | stays hn =>
    cases h with
    | queued hlive hwoken hopen hempty => exact hempty
    | called hlive hwoken => simp [hwoken] at hn

theorem await (h : Awaited s none) (hempty : s.text = []) {out : Except Fault Nat}
    (ha : s.await fired = (t, out)) : Awaited t out.toOption := by
  rcases await_cases s fired with ⟨-, hw⟩ | ⟨-, -, -, hw⟩ | ⟨hopen, -, hw⟩
  · rw [hw] at ha
    cases ha
    exact h
  · rw [hw] at ha
    cases ha
    exact h.enqueue_false
  · rw [hw] at ha
    cases ha
    exact h.enqueue_true hopen hempty

end Awaited

end Stream

end PocketShell
