import PocketShell.Stream.Reader

/-!
# Sources

A source is a text on its way to a reader: a stream, the events that are still to come on it, and
the position of the next character. An event takes place when the reader has to wait; when it has
to wait and no event is left, the read is *blocked*.

* `Source.ofText` : a text that is there at once;
* `Source.peek`, `Source.read` : the next character;
* `Source.scan` : the characters of a class;
* `Source.size` : a bound on the characters still to be read (`size_peek`, `size_read`, `size_scan`).
-/

namespace PocketShell

/-- Something that happens to a stream from outside. Writing to a closed stream and closing it
again do nothing. -/
inductive Event where
  | write (text : String)
  | close
  | cancel
  /-- Two events between which nobody looks. -/
  | both (first second : Event)
deriving DecidableEq, Repr

/-- Why a read gives no character: for a fault, or because nothing will ever wake it. -/
inductive Halt where
  | fault (cause : Fault)
  | blocked
deriving DecidableEq, Repr

namespace Halt

def isEnd : Halt → Bool
  | fault cause => cause.isEnd
  | blocked => false

end Halt

namespace Event

def apply (s : Stream) (c : Cancellation) : Event → Stream × Cancellation
  | write text => (s.put text, c)
  | close => (s.shut, c)
  | cancel => (s, c.fire)
  | both first second =>
    let (s, c) := first.apply s c
    second.apply s c

/-- The number of characters that the event brings. -/
def size : Event → Nat
  | write text => text.toList.length
  | both first second => first.size + second.size
  | _ => 0

/-- The number of characters that events bring. -/
def total : List Event → Nat
  | [] => 0
  | e :: es => e.size + total es

theorem length_text_apply (s : Stream) (c : Cancellation) (e : Event) :
    (e.apply s c).1.text.length ≤ s.text.length + e.size := by
  induction e generalizing s c with
  | write text =>
    simp only [apply, size, Stream.put]
    cases h : s.write text with
    | error _ => simp [Except.toOption]
    | ok t => simp [Except.toOption, Stream.text_write h]
  | close =>
    simp only [apply, size, Stream.shut]
    cases h : s.close with
    | error _ => simp [Except.toOption]
    | ok t => simp [Except.toOption, Stream.text_close h]
  | cancel => simp [apply, size]
  | both first second ihfirst ihsecond =>
    have hfirst := ihfirst s c
    have hsecond := ihsecond (first.apply s c).1 (first.apply s c).2
    simp only [apply, size]
    omega

end Event

structure Position where
  line : Nat := 1
  column : Nat := 1
deriving DecidableEq, Repr

/-- The position after a character. -/
def Position.after (p : Position) (c : Char) : Position :=
  if c = '\n' then { line := p.line + 1, column := 1 } else { p with column := p.column + 1 }

structure Source where
  stream : Stream
  cancellation : Cancellation := {}
  events : List Event := []
  position : Position := {}

namespace Source

variable {α : Type}

def ofText (text : String) : Source := { stream := Stream.ofText text }

def size (s : Source) : Nat := s.stream.text.length + Event.total s.events

/-! ## Reading with events -/

/-- Polls a read, letting an event take place whenever it has to wait. -/
def request (serve : Stream → Option (α × Stream)) (position : Position) :
    List Event → Stream → Cancellation → Option Nat → Source × Except Halt α
  | events, stream, c, ticket =>
    match stream.poll serve c ticket with
    | (stream, c, .ready (.ok a)) => (⟨stream, c, events, position⟩, .ok a)
    | (stream, c, .ready (.error cause)) => (⟨stream, c, events, position⟩, .error (.fault cause))
    | (stream, c, .waiting ticket) =>
      match events with
      | [] => (⟨stream, c, [], position⟩, .error .blocked)
      | e :: rest =>
        let (stream, c) := e.apply stream c
        request serve position rest stream c (some ticket)

/-- The next character, which stays where it is. -/
def peek (s : Source) : Source × Except Halt Char :=
  request Stream.peekChar? s.position s.events s.stream s.cancellation none

/-- Takes the next character. -/
def read (s : Source) : Source × Except Halt Char :=
  match request Stream.takeChar? s.position s.events s.stream s.cancellation none with
  | (s, .ok c) => ({ s with position := s.position.after c }, .ok c)
  | (s, .error halt) => (s, .error halt)

/-! ## What is left -/

theorem length_text_poll {serve : Stream → Option (α × Stream)} {d : Nat}
    (hserve : ∀ s a t, serve s = some (a, t) → t.text.length + d ≤ s.text.length)
    (s : Stream) (c : Cancellation) (ticket : Option Nat) :
    (s.poll serve c ticket).1.text.length ≤ s.text.length ∧
      ∀ a, (s.poll serve c ticket).2.2 = .ready (.ok a) →
        (s.poll serve c ticket).1.text.length + d ≤ s.text.length := by
  have await_text : ∀ (s : Stream) (fired : Bool), (s.await fired).1.text = s.text := by
    intro s fired
    unfold Stream.await
    split
    · rfl
    · split <;> simp
  have attempt_text : ∀ (s : Stream) (fired : Bool),
      (s.attempt serve fired).1.text.length ≤ s.text.length ∧
        ∀ a, (s.attempt serve fired).2 = .ready (.ok a) →
          (s.attempt serve fired).1.text.length + d ≤ s.text.length := by
    intro s fired
    unfold Stream.attempt
    split
    · rename_i answer t h
      have := hserve s answer t h
      exact ⟨by simp only; omega, fun a _ => by simpa using this⟩
    · have := await_text s fired
      split <;> rename_i hw <;> rw [hw] at this <;> simp_all
  unfold Stream.poll
  cases ticket with
  | none => exact attempt_text s c.fired
  | some ticket =>
    simp only
    split
    · simpa using attempt_text (s.abandon ticket) _
    · split <;> simp

theorem size_request {serve : Stream → Option (α × Stream)} {d : Nat}
    (hserve : ∀ s a t, serve s = some (a, t) → t.text.length + d ≤ s.text.length)
    (position : Position) (events : List Event) (stream : Stream) (c : Cancellation)
    (ticket : Option Nat) :
    (request serve position events stream c ticket).1.size ≤
        stream.text.length + Event.total events ∧
      ∀ a, (request serve position events stream c ticket).2 = .ok a →
        (request serve position events stream c ticket).1.size + d ≤
          stream.text.length + Event.total events := by
  induction events generalizing stream c ticket with
  | nil =>
    have h := length_text_poll hserve stream c ticket
    unfold request
    split <;> rename_i hp <;> rw [hp] at h <;> simp_all [size, Event.total]
  | cons e rest ih =>
    have h := length_text_poll hserve stream c ticket
    unfold request
    split
    · rename_i hp; rw [hp] at h; simp_all [size]; omega
    · rename_i hp; rw [hp] at h; simp_all [size]
    · rename_i stream' c' ticket' hp
      rw [hp] at h
      have ha := Event.length_text_apply stream' c' e
      have := ih (e.apply stream' c').1 (e.apply stream' c').2 (some ticket')
      simp only [Event.total] at *
      exact ⟨by omega, fun a hok => by have := this.2 a hok; omega⟩

theorem size_peek (s : Source) : s.peek.1.size ≤ s.size := by
  refine (size_request (d := 0) ?_ _ _ _ _ _).1
  intro s a t h
  simp only [Stream.peekChar?, Option.map_eq_some_iff, Prod.mk.injEq] at h
  obtain ⟨_, _, _, rfl⟩ := h
  simp

theorem takeChar?_length (s : Stream) (a : Char) (t : Stream) (h : s.takeChar? = some (a, t)) :
    t.text.length + 1 ≤ s.text.length := by
  simp only [Stream.takeChar?, Option.map_eq_some_iff, Prod.mk.injEq] at h
  obtain ⟨_, hf, rfl, rfl⟩ := h
  rw [Stream.front?_eq_head?] at hf
  cases ht : s.text with
  | nil => simp [ht] at hf
  | cons => simp [ht]

theorem size_read_le (s : Source) : s.read.1.size ≤ s.size := by
  have h := (size_request takeChar?_length s.position s.events s.stream s.cancellation none).1
  unfold read
  split <;> rename_i hr <;> rw [hr] at h <;> exact h

/-- A read that gives a character takes it. -/
theorem size_read {s t : Source} {c : Char} (h : s.read = (t, .ok c)) : t.size < s.size := by
  have hs := (size_request takeChar?_length s.position s.events s.stream s.cancellation none).2
  unfold read at h
  split at h
  · rename_i t' c' hr
    rw [hr] at hs
    have := hs c' rfl
    simp only [Prod.mk.injEq, Except.ok.injEq] at h
    obtain ⟨rfl, _⟩ := h
    exact this
  · simp at h

/-! ## Scanning -/

/-- Takes characters while `p` holds. Also says what stopped the scan, unless it was a character
outside the class. -/
def scan (p : Char → Bool) (s : Source) : Source × List Char × Option Halt :=
  match _hp : s.peek with
  | (s₁, .error halt) => (s₁, [], some halt)
  | (s₁, .ok c) =>
    if p c then
      match _hr : s₁.read with
      | (s₂, .error halt) => (s₂, [], some halt)
      | (s₂, .ok c) =>
        let (s₃, cs, stop) := scan p s₂
        (s₃, c :: cs, stop)
    else (s₁, [], none)
termination_by s.size
decreasing_by
  have h₁ := size_read _hr
  have h₂ := size_peek s
  rw [_hp] at h₂
  exact Nat.lt_of_lt_of_le h₁ h₂

theorem size_scan (p : Char → Bool) (s : Source) : (s.scan p).1.size ≤ s.size := by
  fun_induction scan p s with
  | case1 s s₁ halt hp => have := size_peek s; rw [hp] at this; exact this
  | case2 s s₁ c hp hc s₂ halt hr =>
    have h₁ := size_peek s
    have h₂ := size_read_le s₁
    rw [hp] at h₁
    rw [hr] at h₂
    exact Nat.le_trans h₂ h₁
  | case3 s s₁ c hp hc s₂ d hr s₃ cs stop hs ih =>
    have h₁ := size_peek s
    have h₂ := size_read hr
    rw [hp] at h₁
    rw [hs] at ih
    simp only at *
    omega
  | case4 s s₁ c hp hc => have := size_peek s; rw [hp] at this; exact this

end Source

end PocketShell
