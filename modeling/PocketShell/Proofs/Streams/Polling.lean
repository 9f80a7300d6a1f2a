import PocketShell.Proofs.Streams

/-!
# What a poll comes to

* `Stream.Attempted` : how a read that is looked at ends: it is served, it finds the end or the
  cancellation, or it takes a place in the queue;
* `Stream.Polls` : the same for a poll of a read that may have waited (`polls_poll`);
* `Want.serve_eq_some` : what each kind of read takes of the buffer, and what it leaves;
* `Stream.write_cases`, `Stream.close_cases`, `Stream.readNow_cases` : the operations that never wait.
-/

namespace PocketShell

namespace Stream

variable {α : Type}

/-! ## Operations that never wait -/

theorem write_cases (s : Stream) (new : String) :
    s.closed = true ∧ s.write new = .error .closed ∨
      s.closed = false ∧ ∃ t, s.write new = .ok t ∧ t.closed = false ∧
        t.text = s.text ++ new.toList := by
  cases h : s.closed with
  | true => exact .inl ⟨rfl, by simp [write, h]⟩
  | false => exact .inr ⟨rfl, write_of_open h new⟩

theorem closed_put (s : Stream) (new : String) : (s.put new).closed = s.closed := by
  unfold put
  rcases write_cases s new with ⟨-, hw⟩ | ⟨hopen, t, hw, hclosed, -⟩
  · rw [hw]
    rfl
  · rw [hw, hopen]
    exact hclosed

theorem text_put (s : Stream) (new : String) :
    (s.put new).text = s.text ++ if s.closed then [] else new.toList := by
  unfold put
  rcases write_cases s new with ⟨hclosed, hw⟩ | ⟨hopen, t, hw, -, htext⟩
  · rw [hw, hclosed]
    simp [Except.toOption]
  · rw [hw, hopen]
    simpa [Except.toOption] using htext

theorem close_cases (s : Stream) :
    s.closed = true ∧ s.close = .error .closed ∨
      s.closed = false ∧ ∃ t, s.close = .ok t ∧ t.closed = true ∧ t.text = s.text := by
  cases h : s.closed with
  | true => exact .inl ⟨rfl, by simp [close, h]⟩
  | false => exact .inr ⟨rfl, { s with closed := true }.wakeAll, by simp [close, h], rfl, rfl⟩

theorem readNow_cases (s : Stream) :
    s.closed = true ∧ s.text = [] ∧ s.readNow = .error .endOfStream ∨ s.readNow = .ok s.drain := by
  by_cases h : (s.isEmpty && s.closed) = true
  · refine .inl ?_
    have hread : s.readNow = .error .endOfStream := by rw [readNow, if_pos h]
    rw [Bool.and_eq_true, isEmpty_iff] at h
    exact ⟨h.2, h.1, hread⟩
  · exact .inr (by rw [readNow, if_neg h])

/-! ## One look at the buffer -/

/-- What trying to serve a read comes to. -/
inductive Attempted (serve : Stream → Option (α × Stream)) (s : Stream) (fired : Bool) :
    Stream → Polled α → Prop where
  | served {a : α} {t : Stream} (h : serve s = some (a, t)) :
    Attempted serve s fired t (.ready (.ok a))
  | ended (h : serve s = none) (hclosed : s.closed = true) :
    Attempted serve s fired s (.ready (.error .endOfStream))
  | cancelled (h : serve s = none) (hclosed : s.closed = false) (hminds : s.cancellable = true)
    (hfired : fired = true) : Attempted serve s fired (s.enqueue false) (.ready (.error .cancelled))
  | queued (h : serve s = none) (hclosed : s.closed = false)
    (hquiet : (s.cancellable && fired) = false) :
    Attempted serve s fired (s.enqueue true) (.waiting s.issued)

/-- The three answers of an empty buffer. -/
theorem await_cases (s : Stream) (fired : Bool) :
    s.closed = true ∧ s.await fired = (s, .error .endOfStream) ∨
      s.closed = false ∧ s.cancellable = true ∧ fired = true ∧
        s.await fired = (s.enqueue false, .error .cancelled) ∨
      s.closed = false ∧ (s.cancellable && fired) = false ∧
        s.await fired = (s.enqueue true, .ok s.issued) := by
  unfold await
  cases s.closed <;> cases s.cancellable <;> cases fired <;> simp

theorem text_await (s : Stream) (fired : Bool) : (s.await fired).1.text = s.text := by
  rcases await_cases s fired with ⟨-, h⟩ | ⟨-, -, -, h⟩ | ⟨-, -, h⟩ <;> rw [h] <;> rfl

theorem attempted_attempt (serve : Stream → Option (α × Stream)) (s : Stream) (fired : Bool) :
    Attempted serve s fired (s.attempt serve fired).1 (s.attempt serve fired).2 := by
  unfold attempt
  cases hserve : serve s with
  | some p => exact .served hserve
  | none =>
    rcases await_cases s fired with ⟨hc, h⟩ | ⟨hc, hminds, hfired, h⟩ | ⟨hc, hquiet, h⟩
    · simpa only [h] using .ended hserve hc
    · simpa only [h] using .cancelled hserve hc hminds hfired
    · simpa only [h] using .queued hserve hc hquiet

/-! ## One poll -/

/-- What a poll comes to. A read that waits is looked at when it has been called; it may give up when
the run is cancelled; else it stays where it is. -/
inductive Polls (serve : Stream → Option (α × Stream)) (s : Stream) (c : Cancellation) :
    Option Nat → Stream → Cancellation → Polled α → Prop where
  | fresh {t : Stream} {out : Polled α} (h : Attempted serve s c.fired t out) :
    Polls serve s c none t c out
  | called {n : Nat} {c' : Cancellation} {t : Stream} {out : Polled α} (hn : n ∈ s.woken)
    (hc : c'.fired = c.fired) (h : Attempted serve (s.abandon n) c.fired t out) :
    Polls serve s c (some n) t c' out
  | givesUp {n : Nat} {c' : Cancellation} (hminds : s.cancellable = true) (hfired : c.fired = true)
    (hc : c'.fired = c.fired) :
    Polls serve s c (some n) (s.abandon n) c' (.ready (.error .cancelled))
  | stays {n : Nat} (hn : n ∉ s.woken) (hquiet : (s.cancellable && c.fired) = false) :
    Polls serve s c (some n) s c (.waiting n)

theorem goesOn_cases (s : Stream) (c : Cancellation) (n : Nat) :
    (s.goesOn c n).2.fired = c.fired ∧ ((s.goesOn c n).1 = true → n ∈ s.woken) ∧
      ((s.goesOn c n).1 = false → (s.cancellable && c.fired) = false →
        n ∉ s.woken ∧ (s.goesOn c n).2 = c) := by
  unfold goesOn
  dsimp only
  by_cases h : (s.woken.contains n && s.cancellable && c.fired) = true
  · rw [if_pos h]
    simp only [Bool.and_eq_true, List.contains_iff_mem] at h
    refine ⟨rfl, fun _ => h.1.1, fun _ hquiet => ?_⟩
    simp [h.1.2, h.2] at hquiet
  · rw [if_neg h]
    refine ⟨rfl, fun hn => by simpa using hn, fun hn _ => ⟨?_, rfl⟩⟩
    simpa using hn

theorem polls_poll (serve : Stream → Option (α × Stream)) (s : Stream) (c : Cancellation)
    (ticket : Option Nat) :
    Polls serve s c ticket (s.poll serve c ticket).1 (s.poll serve c ticket).2.1
      (s.poll serve c ticket).2.2 := by
  cases ticket with
  | none => exact .fresh (attempted_attempt serve s c.fired)
  | some n =>
    obtain ⟨hfired, htrue, hfalse⟩ := goesOn_cases s c n
    unfold poll
    dsimp only
    rcases hgoes : s.goesOn c n with ⟨goes, c'⟩
    rw [hgoes] at hfired htrue hfalse
    cases goes with
    | true =>
      refine .called (htrue rfl) hfired ?_
      dsimp only at hfired ⊢
      rw [hfired]
      exact attempted_attempt serve _ c.fired
    | false =>
      dsimp only at hfired hfalse ⊢
      rw [hfired]
      by_cases hquiet : (s.cancellable && c.fired) = true
      · rw [if_pos hquiet]
        rw [Bool.and_eq_true] at hquiet
        exact .givesUp hquiet.1 hquiet.2 hfired
      · rw [if_neg hquiet]
        rw [Bool.not_eq_true] at hquiet
        obtain ⟨hn, rfl⟩ := hfalse rfl hquiet
        exact .stays hn hquiet

section

variable {serve : Stream → Option (α × Stream)} {s t : Stream} {ticket : Option Nat}
  {c c' : Cancellation} {out : Polled α}

/-- A poll in the form in which programs meet it. -/
theorem polls_of_eq (h : s.poll serve c ticket = (t, c', out)) :
    Polls serve s c ticket t c' out := by
  simpa only [h] using polls_poll serve s c ticket

theorem Polls.fired (h : Polls serve s c ticket t c' out) : c'.fired = c.fired := by
  cases h with
  | fresh | stays => rfl
  | called _ hc _ => exact hc
  | givesUp _ _ hc => exact hc

end

end Stream

/-! ## What reads take -/

/-- The text that a read takes away when it is given this answer. A look takes nothing. -/
def Want.taken (answer : String) : Want → List Char
  | .chunk | .char => answer.toList
  | .peek => []

namespace Stream

@[simp] theorem cancellable_wakeNext (s : Stream) : s.wakeNext.cancellable = s.cancellable := by
  unfold wakeNext
  split <;> rfl

theorem cancellable_put (s : Stream) (new : String) :
    (s.put new).cancellable = s.cancellable := by
  have happend (chunk : List Char) : (s.append chunk).cancellable = s.cancellable := by
    unfold append
    split <;> rfl
  unfold put write
  split
  · rfl
  · split
    · rfl
    · exact (cancellable_wakeNext _).trans (happend _)

theorem cancellable_shut (s : Stream) : s.shut.cancellable = s.cancellable := by
  unfold shut close
  split <;> rfl

@[simp] theorem cancellable_passOn (s : Stream) : s.passOn.cancellable = s.cancellable := by
  unfold passOn
  split <;> simp

@[simp] theorem cancellable_settle (s : Stream) : s.settle.cancellable = s.cancellable := by
  unfold settle
  split <;> rfl

@[simp] theorem cancellable_advance (s : Stream) : s.advance.cancellable = s.cancellable := by
  unfold advance
  simp

end Stream

namespace Stream

theorem takeChunk?_eq_none_iff (s : Stream) : s.takeChunk? = none ↔ s.text = [] := by
  rw [takeChunk?, ← isEmpty_iff]
  cases s.isEmpty <;> simp

theorem takeChar?_eq_none_iff (s : Stream) : s.takeChar? = none ↔ s.text = [] := by
  simp [takeChar?, front?_eq_head?]

theorem peekChar?_eq_none_iff (s : Stream) : s.peekChar? = none ↔ s.text = [] := by
  simp [peekChar?, front?_eq_head?]

end Stream

namespace Want

variable {want : Want} {s t : Stream} {answer : String}

theorem serve_eq_none_iff : want.serve s = none ↔ s.text = [] := by
  cases want with
  | chunk => exact s.takeChunk?_eq_none_iff
  | char => simp [serve, Stream.takeChar?_eq_none_iff]
  | peek => simp [serve, Stream.peekChar?_eq_none_iff]

/-- What a read gives and what it leaves. -/
theorem serve_eq_some (h : want.serve s = some (answer, t)) :
    ∃ ch rest, s.text = ch :: rest ∧
      (want = .chunk ∧ answer = String.ofList s.text ∧ t = s.drain.2 ∨
        want = .char ∧ answer = ch.toString ∧ t = s.advance.passOn ∨
        want = .peek ∧ answer = ch.toString ∧ t = s.passOn) := by
  have hne : s.text ≠ [] := fun hnil => by
    have hnone : want.serve s = none := serve_eq_none_iff.2 hnil
    rw [h] at hnone
    cases hnone
  obtain ⟨ch, rest, htext⟩ := List.exists_cons_of_ne_nil hne
  refine ⟨ch, rest, htext, ?_⟩
  cases want with
  | chunk =>
    have hempty : s.isEmpty = false := by
      rw [Bool.eq_false_iff, ne_eq, Stream.isEmpty_iff]
      exact hne
    simp only [serve, Stream.takeChunk?, hempty, Stream.drain, Bool.false_eq_true, if_false,
      Option.some.injEq, Prod.mk.injEq] at h
    exact .inl ⟨rfl, h.1.symm, h.2.symm⟩
  | char =>
    simp only [serve, Stream.takeChar?, Stream.front?_eq_head?, htext, List.head?_cons,
      Option.map_some, Option.some.injEq, Prod.mk.injEq] at h
    exact .inr (.inl ⟨rfl, h.1.symm, h.2.symm⟩)
  | peek =>
    simp only [serve, Stream.peekChar?, Stream.front?_eq_head?, htext, List.head?_cons,
      Option.map_some, Option.some.injEq, Prod.mk.injEq] at h
    exact .inr (.inr ⟨rfl, h.1.symm, h.2.symm⟩)

theorem text_serve (h : want.serve s = some (answer, t)) :
    s.text = want.taken answer ++ t.text := by
  obtain ⟨ch, rest, htext, ⟨rfl, rfl, rfl⟩ | ⟨rfl, rfl, rfl⟩ | ⟨rfl, rfl, rfl⟩⟩ := serve_eq_some h
  · simp [taken]
  · simp [taken, htext, Char.toString]
  · simp [taken]

theorem closed_serve (h : want.serve s = some (answer, t)) : t.closed = s.closed := by
  obtain ⟨ch, rest, -, ⟨-, -, rfl⟩ | ⟨-, -, rfl⟩ | ⟨-, -, rfl⟩⟩ := serve_eq_some h
  · rfl
  · simp
  · simp

theorem cancellable_serve (h : want.serve s = some (answer, t)) :
    t.cancellable = s.cancellable := by
  obtain ⟨ch, rest, -, ⟨-, -, rfl⟩ | ⟨-, -, rfl⟩ | ⟨-, -, rfl⟩⟩ := serve_eq_some h
  · rfl
  · simp
  · simp

/-- The text that a poll of a read takes away. -/
def received (want : Want) : Polled String → List Char
  | .ready (.ok answer) => want.taken answer
  | _ => []

end Want

namespace Stream

variable {want : Want} {s t : Stream} {fired : Bool} {out : Polled String}

namespace Attempted

theorem text (h : Attempted want.serve s fired t out) : s.text = want.received out ++ t.text := by
  cases h with
  | served hserve => exact Want.text_serve hserve
  | ended | cancelled | queued => simp [Want.received]

theorem closed (h : Attempted want.serve s fired t out) : t.closed = s.closed := by
  cases h with
  | served hserve => exact Want.closed_serve hserve
  | ended | cancelled | queued => rfl

theorem cancellable (h : Attempted want.serve s fired t out) : t.cancellable = s.cancellable := by
  cases h with
  | served hserve => exact Want.cancellable_serve hserve
  | ended | cancelled | queued => rfl

/-- Only the end of a stream is reported as such. -/
theorem endOfStream (h : Attempted want.serve s fired t (.ready (.error .endOfStream))) :
    s.closed = true ∧ s.text = [] := by
  cases h with
  | ended hserve hclosed => exact ⟨hclosed, Want.serve_eq_none_iff.1 hserve⟩

/-- Only a read that finds something is answered with it. -/
theorem ne_nil {answer : String} (h : Attempted want.serve s fired t (.ready (.ok answer))) :
    s.text ≠ [] := by
  cases h with
  | served hserve =>
    intro hnil
    rw [Want.serve_eq_none_iff.2 hnil] at hserve
    cases hserve

/-- A look shows the next character and leaves it. -/
theorem peek {answer : String} (h : Attempted Want.peek.serve s fired t (.ready (.ok answer))) :
    ∃ ch, s.text.head? = some ch ∧ answer = ch.toString ∧ t.text = s.text := by
  cases h with
  | served hserve =>
    obtain ⟨ch, rest, htext, ⟨hw, -⟩ | ⟨hw, -⟩ | ⟨-, ha, ht⟩⟩ := Want.serve_eq_some hserve
    · cases hw
    · cases hw
    · exact ⟨ch, by simp [htext], ha, by rw [ht, text_passOn]⟩

end Attempted

namespace Polls

variable {c c' : Cancellation} {ticket : Option Nat}

theorem text (h : Polls want.serve s c ticket t c' out) : s.text = want.received out ++ t.text := by
  cases h with
  | fresh h => exact h.text
  | called _ _ h => exact h.text
  | givesUp | stays => rfl

theorem closed (h : Polls want.serve s c ticket t c' out) : t.closed = s.closed := by
  cases h with
  | fresh h => exact h.closed
  | called _ _ h => exact h.closed
  | givesUp | stays => rfl

theorem cancellable (h : Polls want.serve s c ticket t c' out) :
    t.cancellable = s.cancellable := by
  cases h with
  | fresh h => exact h.cancellable
  | called _ _ h => exact h.cancellable
  | givesUp | stays => rfl

theorem endOfStream (h : Polls want.serve s c ticket t c' (.ready (.error .endOfStream))) :
    s.closed = true ∧ s.text = [] := by
  cases h with
  | fresh h => exact h.endOfStream
  | called _ _ h => exact h.endOfStream

theorem ne_nil {answer : String}
    (h : Polls want.serve s c ticket t c' (.ready (.ok answer))) : s.text ≠ [] := by
  cases h with
  | fresh h => exact h.ne_nil
  | called _ _ h => exact h.ne_nil

theorem peek {answer : String}
    (h : Polls Want.peek.serve s c ticket t c' (.ready (.ok answer))) :
    ∃ ch, s.text.head? = some ch ∧ answer = ch.toString ∧ t.text = s.text := by
  cases h with
  | fresh h => exact h.peek
  | called _ _ h => exact h.peek

end Polls

end Stream

end PocketShell
