import PocketShell.Proofs.Streams.Queue
import PocketShell.Source

/-!
# Text that arrives in pieces

What the only reader of a stream gets in the end does not depend on when the text arrives.

* `Event.Delivers` : events write these texts, one after the other, and then close;
* `Stream.Supplies` : a stream and the events that are still to come give this text, and then the end.
  An event keeps this (`Supplies.apply`);
* `Stream.Looks` : what a poll of the only reader comes to when nothing is cancelled (`looks`);
* `Source.request_of_supplies` : a request is answered with the next of this text, or with its end,
  after as many events as it takes.
-/

namespace PocketShell

/-! ## Events -/

namespace Event

/-- The single events that an event is made of. -/
def parts : Event → List Event
  | write text => [.write text]
  | close => [.close]
  | cancel => [.cancel]
  | both first second => first.parts ++ second.parts

theorem parts_ne_nil (e : Event) : e.parts ≠ [] := by
  induction e with
  | write | close | cancel => simp [parts]
  | both first second ihfirst => simp [parts, ihfirst]

/-- Events that write these texts one after the other, and then close. -/
def Delivers (events : List Event) (writes : List String) : Prop :=
  events.flatMap parts = writes.map .write ++ [.close]

theorem not_delivers_nil (writes : List String) : ¬ Delivers [] writes := by
  simp [Delivers]

theorem awaited_apply {s : Stream} {ticket : Option Nat} (h : s.Awaited ticket) (c : Cancellation)
    (e : Event) : (e.apply s c).1.Awaited ticket := by
  induction e generalizing s c with
  | write text => exact h.put text
  | close => exact h.shut
  | cancel => exact h
  | both first second ihfirst ihsecond => exact ihsecond (ihfirst h c) _

/-- A stream that is closed stays closed. -/
theorem closed_apply {s : Stream} (h : s.closed = true) (c : Cancellation) (e : Event) :
    (e.apply s c).1.closed = true := by
  induction e generalizing s c with
  | write text => exact (s.closed_put text).trans h
  | close => exact s.closed_shut
  | cancel => exact h
  | both first second ihfirst ihsecond => exact ihsecond (ihfirst h c) _

/-- An event does not take a cancellation back. -/
theorem fired_apply (s : Stream) {c : Cancellation} (h : c.fired = true) (e : Event) :
    (e.apply s c).2.fired = true := by
  induction e generalizing s c with
  | write text => exact h
  | close => exact h
  | cancel => rfl
  | both first second ihfirst ihsecond => exact ihsecond _ (ihfirst s h)

/-- What an event brings about is so when it happens among others, if nothing undoes it. -/
theorem apply_of_mem_parts {P : Stream → Cancellation → Prop} {part e : Event}
    (h : part ∈ e.parts) (hpart : ∀ s c, P (part.apply s c).1 (part.apply s c).2)
    (hkept : ∀ s c (e : Event), P s c → P (e.apply s c).1 (e.apply s c).2)
    (s : Stream) (c : Cancellation) :
    P (e.apply s c).1 (e.apply s c).2 := by
  induction e generalizing s c with
  | write | close | cancel =>
    obtain rfl := List.mem_singleton.1 h
    exact hpart s c
  | both first second ihfirst ihsecond =>
    rcases List.mem_append.1 h with hfirst | hsecond
    · exact hkept _ _ second (ihfirst hfirst s c)
    · exact ihsecond hsecond _ _

theorem closed_of_mem_parts {e : Event} (h : .close ∈ e.parts) (s : Stream) (c : Cancellation) :
    (e.apply s c).1.closed = true :=
  apply_of_mem_parts (P := fun s _ => s.closed = true) h (fun s _ => s.closed_shut)
    (fun _ c e hclosed => closed_apply hclosed c e) s c

theorem fired_of_mem_parts {e : Event} (h : .cancel ∈ e.parts) (s : Stream) (c : Cancellation) :
    (e.apply s c).2.fired = true :=
  apply_of_mem_parts (P := fun _ c => c.fired = true) h (fun _ _ => rfl)
    (fun s _ e hfired => fired_apply s hfired e) s c

theorem cancellable_apply (s : Stream) (c : Cancellation) (e : Event) :
    (e.apply s c).1.cancellable = s.cancellable := by
  induction e generalizing s c with
  | write text => exact s.cancellable_put text
  | close => exact s.cancellable_shut
  | cancel => rfl
  | both first second ihfirst ihsecond => exact (ihsecond _ _).trans (ihfirst s c)

end Event

/-! ## Supplies -/

namespace Stream

/-- A stream and the events that are still to come on it give this text, and then the end. -/
inductive Supplies (s : Stream) (events : List Event) (cs : List Char) : Prop where
  | closed (hclosed : s.closed = true) (htext : s.text = cs)
  | coming {writes : List String} (hopen : s.closed = false) (h : Event.Delivers events writes)
    (htext : s.text ++ writes.flatMap String.toList = cs)

/-- The first event of a delivery either leaves the rest of it to come, or is all of it. -/
theorem apply_parts {s : Stream} {e : Event} {more : List Event} {writes : List String}
    (hopen : s.closed = false) (h : e.parts ++ more = writes.map .write ++ [.close])
    (c : Cancellation) :
    (e.apply s c).2 = c ∧
      (more = [] ∧ (e.apply s c).1.closed = true ∧
          (e.apply s c).1.text = s.text ++ writes.flatMap String.toList ∨
        ∃ left : List String, more = left.map .write ++ [.close] ∧
          (e.apply s c).1.closed = false ∧
          (e.apply s c).1.text ++ left.flatMap String.toList =
            s.text ++ writes.flatMap String.toList) := by
  induction e generalizing s c more writes with
  | write text =>
    cases writes with
    | nil => cases h
    | cons first left =>
      obtain ⟨hfirst, hmore⟩ := List.cons.inj h
      obtain rfl := Event.write.inj hfirst
      have htext := s.text_put text
      rw [hopen] at htext
      refine ⟨rfl, .inr ⟨left, hmore, (s.closed_put text).trans hopen, ?_⟩⟩
      show (s.put text).text ++ _ = _
      simp [htext]
  | close =>
    cases writes with
    | nil => exact ⟨rfl, .inl ⟨by simpa [Event.parts] using h, s.closed_shut, by simp [Event.apply]⟩⟩
    | cons first left => cases h
  | cancel => cases writes <;> cases h
  | both first second ihfirst ihsecond =>
    rw [Event.parts, List.append_assoc] at h
    obtain ⟨hc, ⟨hnil, -⟩ | ⟨left, hleft, hopen', htext⟩⟩ := ihfirst hopen h c
    · exact absurd (List.append_eq_nil_iff.1 hnil).1 second.parts_ne_nil
    · obtain ⟨hc', hsecond⟩ := ihsecond hopen' hleft (first.apply s c).2
      rw [htext] at hsecond
      exact ⟨hc'.trans hc, hsecond⟩

/-- Two streams that differ in their queues at most. -/
structure SameContent (s t : Stream) : Prop where
  text : t.text = s.text
  closed : t.closed = s.closed
  cancellable : t.cancellable = s.cancellable

namespace Supplies

variable {s t : Stream} {e : Event} {events : List Event} {cs taken : List Char}

theorem congr (h : Supplies s events cs) (hsame : SameContent s t) : Supplies t events cs := by
  cases h with
  | closed hclosed htext => exact .closed (hsame.closed.trans hclosed) (hsame.text.trans htext)
  | coming hopen h htext => exact .coming (hsame.closed.trans hopen) h (by rw [hsame.text, htext])

/-- Where nothing comes any more, the end is there. -/
theorem closed_of_nil (h : Supplies s [] cs) : s.closed = true := by
  cases h with
  | closed hclosed => exact hclosed
  | coming _ h => exact absurd h (Event.not_delivers_nil _)

theorem apply (h : Supplies s (e :: events) cs) (hopen : s.closed = false) (c : Cancellation) :
    (e.apply s c).2 = c ∧ Supplies (e.apply s c).1 events cs := by
  cases h with
  | closed hclosed =>
    rw [hopen] at hclosed
    cases hclosed
  | coming _ h htext =>
    obtain ⟨hc, ⟨-, hclosed, hall⟩ | ⟨left, hleft, hopen', hall⟩⟩ := apply_parts hopen h c
    · exact ⟨hc, .closed hclosed (hall.trans htext)⟩
    · exact ⟨hc, .coming hopen' hleft (hall.trans htext)⟩

/-- What is taken from the stream is the first of the text. -/
theorem take (h : Supplies s events cs) (hclosed : t.closed = s.closed)
    (htext : s.text = taken ++ t.text) : ∃ left, cs = taken ++ left ∧ Supplies t events left := by
  cases h with
  | closed hs hcs => exact ⟨t.text, hcs.symm.trans htext, .closed (hclosed.trans hs) rfl⟩
  | @coming writes hs h hcs =>
    refine ⟨t.text ++ writes.flatMap String.toList, ?_, .coming (hclosed.trans hs) h rfl⟩
    rw [← hcs, htext, List.append_assoc]

/-- What is there already is the first of the text. -/
theorem head_eq {c d : Char} (h : Supplies s events (c :: cs)) (htext : s.text.head? = some d) :
    c = d := by
  obtain ⟨rest, hrest⟩ := List.head?_eq_some_iff.1 htext
  cases h with
  | closed _ hcs =>
    rw [hrest] at hcs
    exact (List.cons.inj hcs).1.symm
  | coming _ _ hcs =>
    rw [hrest] at hcs
    exact (List.cons.inj hcs).1.symm

theorem text_eq_nil (h : Supplies s events []) : s.text = [] := by
  cases h with
  | closed _ hcs => exact hcs
  | coming _ _ hcs => exact (List.append_eq_nil_iff.1 hcs).1

theorem eq_nil (h : Supplies s events cs) (hclosed : s.closed = true) (htext : s.text = []) :
    cs = [] := by
  cases h with
  | closed _ hcs => exact hcs.symm.trans htext
  | coming hopen =>
    rw [hclosed] at hopen
    cases hopen

end Supplies

/-! ## A text that is there at once -/

theorem awaited_ofText (text : String) : (ofText text).Awaited none :=
  ((Awaited.of_fresh rfl rfl).put text).shut

theorem cancellable_ofText (text : String) : (ofText text).cancellable = false :=
  (cancellable_shut _).trans (cancellable_put _ text)

theorem supplies_ofText (text : String) (events : List Event) :
    (ofText text).Supplies events text.toList := by
  refine .closed (closed_shut _) ?_
  rw [ofText, text_shut, text_put]
  rfl

/-! ## One poll of the only reader -/

variable {α : Type}

/-- What a poll of the only reader comes to when nothing is cancelled. -/
inductive Looks (serve : Stream → Option (α × Stream)) (s : Stream) (c : Cancellation)
    (ticket : Option Nat) : Prop where
  | served {u t : Stream} {a : α} (hsame : SameContent s u) (hidle : u.Awaited none)
    (hserve : serve u = some (a, t)) (hpoll : s.poll serve c ticket = (t, c, .ready (.ok a)))
  | ended {u : Stream} (hsame : SameContent s u) (hidle : u.Awaited none) (hclosed : s.closed = true)
    (hempty : s.text = []) (hpoll : s.poll serve c ticket = (u, c, .ready (.error .endOfStream)))
  | waits {u : Stream} {n : Nat} (hsame : SameContent s u) (hwaits : u.Awaited (some n))
    (hopen : s.closed = false) (hempty : s.text = [])
    (hpoll : s.poll serve c ticket = (u, c, .waiting n))

/-- A look at a stream that nobody else waits for. -/
theorem looks_attempt {serve : Stream → Option (α × Stream)} {s u : Stream} {c : Cancellation}
    {ticket : Option Nat} (hserve : ∀ s, serve s = none ↔ s.text = [])
    (hquiet : (s.cancellable && c.fired) = false) (hsame : SameContent s u)
    (hidle : u.Awaited none)
    (hpoll : s.poll serve c ticket = ((u.attempt serve c.fired).1, c, (u.attempt serve c.fired).2)) :
    Looks serve s c ticket := by
  rw [← hsame.cancellable] at hquiet
  unfold attempt at hpoll
  cases hs : serve u with
  | some p =>
    rw [hs] at hpoll
    exact .served hsame hidle hs hpoll
  | none =>
    have hempty : s.text = [] := hsame.text.symm.trans ((hserve u).1 hs)
    rcases u.await_cases c.fired with ⟨hclosed, ha⟩ | ⟨-, hminds, hfired, -⟩ | ⟨hopen, -, ha⟩
    · rw [hs, ha] at hpoll
      exact .ended hsame hidle (hsame.closed.symm.trans hclosed) hempty hpoll
    · rw [hminds, hfired] at hquiet
      cases hquiet
    · rw [hs, ha] at hpoll
      have hqueued : SameContent s (u.enqueue true) :=
        ⟨hsame.text, hsame.closed, hsame.cancellable⟩
      exact .waits hqueued (hidle.enqueue_true hopen ((hserve u).1 hs))
        (hsame.closed.symm.trans hopen) hempty hpoll

theorem looks {serve : Stream → Option (α × Stream)} {s : Stream} {c : Cancellation}
    {ticket : Option Nat} (hserve : ∀ s, serve s = none ↔ s.text = [])
    (hquiet : (s.cancellable && c.fired) = false) (h : s.Awaited ticket) :
    Looks serve s c ticket := by
  cases h with
  | nobody hlive hwoken => exact looks_attempt hserve hquiet ⟨rfl, rfl, rfl⟩ (.nobody hlive hwoken) rfl
  | @queued n hlive hwoken hopen hempty =>
    have hcalls : s.calls c.fired n = false := by simp [calls, hwoken, hquiet]
    exact .waits ⟨rfl, rfl, rfl⟩ (.queued hlive hwoken hopen hempty) hopen hempty
      (poll_of_not_calls serve hcalls)
  | @called n hlive hwoken hmore =>
    have hgoes : s.goesOn c n = (true, c) := by
      rw [Bool.and_eq_false_iff] at hquiet
      rcases hquiet with hminds | hfired
      · simp [goesOn, hwoken, hminds]
      · simp [goesOn, hwoken, hfired]
    have hidle : (s.abandon n).Awaited none := (Awaited.called hlive hwoken hmore).abandon
    have hsame : SameContent s (s.abandon n) := ⟨rfl, rfl, rfl⟩
    refine looks_attempt hserve hquiet hsame hidle ?_
    simp only [poll, hgoes]

end Stream

/-! ## Requests -/

namespace Source

variable {α : Type} {serve : Stream → Option (α × Stream)} {c : Cancellation} {cs : List Char}

/-- What a request comes to on a stream that is supplied with a text. -/
inductive Requested (serve : Stream → Option (α × Stream)) (position : Position) (s : Stream)
    (c : Cancellation) (cs : List Char) (answer : Source × Except Halt α) : Prop where
  | served {u t : Stream} {a : α} {rest : List Event} (hidle : u.Awaited none)
    (hminds : u.cancellable = s.cancellable) (hsupplies : u.Supplies rest cs)
    (hserve : serve u = some (a, t)) (hanswer : answer = (⟨t, c, rest, position⟩, .ok a))
  | ended {u : Stream} {rest : List Event} (hidle : u.Awaited none)
    (hminds : u.cancellable = s.cancellable) (hsupplies : u.Supplies rest cs) (hempty : cs = [])
    (hanswer : answer = (⟨u, c, rest, position⟩, .error (.fault .endOfStream)))

theorem request_of_supplies {s : Stream} {ticket : Option Nat} {events : List Event}
    (hserve : ∀ s, serve s = none ↔ s.text = []) (hquiet : (s.cancellable && c.fired) = false)
    (hwaits : s.Awaited ticket) (h : s.Supplies events cs) (position : Position) :
    Requested serve position s c cs (request serve position events s c ticket) := by
  rw [request]
  cases Stream.looks hserve hquiet hwaits with
  | served hsame hidle hs hpoll =>
    rw [hpoll]
    exact .served hidle hsame.cancellable (h.congr hsame) hs rfl
  | ended hsame hidle hclosed hempty hpoll =>
    rw [hpoll]
    exact .ended hidle hsame.cancellable (h.congr hsame) (h.eq_nil hclosed hempty) rfl
  | @waits u n hsame hwaits' hopen hempty hpoll =>
    cases events with
    | nil =>
      rw [h.closed_of_nil] at hopen
      cases hopen
    | cons e rest =>
      obtain ⟨hc, hsupplies⟩ := (h.congr hsame).apply (hsame.closed.trans hopen) c
      have hminds : (e.apply u c).1.cancellable = s.cancellable :=
        (e.cancellable_apply u c).trans hsame.cancellable
      have hnext := request_of_supplies hserve (by rw [hminds, hquiet]) (e.awaited_apply hwaits' c)
        hsupplies position
      rw [hpoll]
      dsimp only
      rw [hc]
      cases hnext with
      | served hidle hminds' hsup hs hanswer =>
        exact .served hidle (hminds'.trans hminds) hsup hs hanswer
      | ended hidle hminds' hsup hempty hanswer =>
        exact .ended hidle (hminds'.trans hminds) hsup hempty hanswer

end Source

end PocketShell
