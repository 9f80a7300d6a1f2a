import Mathlib.Data.List.Induction
import PocketShell.Proofs.Streams.Conservation
import PocketShell.Proofs.Streams.Order

/-!
# No wake-up is lost, and nobody overtakes

Readers come, are polled in any order and go, while the stream is written to, drained, closed and
cancelled. A reader that has been called is looked at before it goes; one that is only queued may go
at any time.

* `Bench.Turn` : all that one operation can do to the queue and to the table of readers;
* `Bench.Agrees` : the tickets that the stream expects are those that the readers hold;
* `Bench.WokenSince` : the reader has been woken and not polled since;
* `Bench.arrivals` : the readers in the order in which they went into the queue.

`Bench.run_attends` says of every run that nobody is left to sleep beside text or at the end of a
stream, and that wake-ups reach the readers in the order of their arrival.
-/

namespace PocketShell.Bench

variable {b b' : Bench} {op : Op} {name other : String} {n : Nat} {answer : Answer}

/-! ## Readers and their tickets -/

def ticket? (b : Bench) (name : String) : Option Nat := (b.reader? name).bind (·.ticket)

/-- The reader that an operation is about. -/
def Op.reader? : Op → Option String
  | .start name _ | .poll name | .drop name => some name
  | _ => none

/-- The reader that goes, whoever may take its name. -/
def Op.dropped? : Op → Option String
  | .start name _ | .drop name => some name
  | _ => none

/-- The reader is there and has a place in the queue. -/
def Parked (b : Bench) (name : String) : Prop :=
  ∃ n ∈ b.ticket? name, { ticket := n } ∈ b.stream.waiters

/-- The reader is there and would get on if it were polled. -/
def Called (b : Bench) (name : String) : Prop :=
  ∃ n ∈ b.ticket? name, b.stream.calls b.cancellation.fired n = true

/-- The operation sends a wake-up to the reader. -/
def Hails (b : Bench) (op : Op) (name : String) : Prop :=
  ∃ n ∈ b.ticket? name, n ∉ b.stream.woken ∧ n ∈ (b.step op).1.stream.woken

/-- The operation wakes the reader, by a wake-up or as it cancels the run. -/
def Wakes (b : Bench) (op : Op) (name : String) : Prop :=
  b.Hails op name ∨
    op = .cancel ∧ b.stream.cancellable = true ∧ b.cancellation.fired = false ∧ b.Parked name

/-- Text is written, or a read is answered that leaves text for others. -/
def Signals (b : Bench) (op : Op) : Prop :=
  (∃ text : String, op = .write text ∧ text.toList ≠ [] ∧ b.stream.closed = false) ∨
    (∃ value, (b.step op).2 = .text value) ∧ (b.step op).1.stream.text ≠ []

/-- Nobody goes who has been sent a wake-up and not been polled since. -/
def Spares (b : Bench) (op : Op) : Prop :=
  ∀ name ∈ op.dropped?, ∀ n ∈ b.ticket? name, n ∉ b.stream.woken

instance (b : Bench) (op : Op) : Decidable (b.Spares op) := by
  unfold Spares
  infer_instance

def SparesAll (b : Bench) : List Op → Prop
  | [] => True
  | op :: ops => b.Spares op ∧ (b.step op).1.SparesAll ops

instance decidableSparesAll : ∀ (b : Bench) (ops : List Op), Decidable (b.SparesAll ops)
  | _, [] => .isTrue trivial
  | b, op :: ops =>
    have := decidableSparesAll (b.step op).1 ops
    inferInstanceAs (Decidable (b.Spares op ∧ (b.step op).1.SparesAll ops))

/-- The state after a run. -/
def after (b : Bench) (ops : List Op) : Bench := (b.run ops).1

/-- The reader has been woken in a run, and not been polled since. -/
def WokenSince (b : Bench) (ops : List Op) (name : String) : Prop :=
  ∃ before op later, ops = before ++ op :: later ∧ (b.after before).Wakes op name ∧
    ∀ op' ∈ later, op'.reader? ≠ some name

/-- The reader that enters the queue, if one does. -/
def arrival? (b : Bench) (op : Op) : Option String :=
  op.reader?.filter fun name =>
    let ticket := (b.step op).1.ticket? name
    ticket.isSome && ticket ≠ b.ticket? name

/-- The readers in the order in which they entered the queue; one that entered it again is there more
than once. -/
def arrivals (b : Bench) : List Op → List String
  | [] => []
  | op :: ops => (b.arrival? op).toList ++ (b.step op).1.arrivals ops

/-- The last arrival of `x` was before the last arrival of `y`. -/
def Precedes (arrivals : List String) (x y : String) : Prop :=
  ∃ earlier later, arrivals = earlier ++ x :: later ∧ x ∉ later ∧ y ∈ later

/-- Nobody has come yet. -/
structure Fresh (b : Bench) : Prop where
  readers : b.readers = []
  waiters : b.stream.waiters = []
  woken : b.stream.woken = []

/-! ## What one operation does -/

theorem lookup_filter_ne (readers : List (String × Reader)) (name other : String) :
    (readers.filter (·.1 ≠ name)).lookup other =
      if other = name then none else readers.lookup other := by
  induction readers with
  | nil => simp
  | cons entry rest ih =>
    obtain ⟨key, r⟩ := entry
    by_cases hkey : key = name
    · rw [List.filter_cons_of_neg (by simp [hkey]), ih]
      by_cases hother : other = name
      · rw [if_pos hother, if_pos hother]
      · have hne : (other == key) = false := by simp [hkey, hother]
        rw [if_neg hother, if_neg hother, List.lookup_cons, hne]
    · rw [List.filter_cons_of_pos (by simp [hkey]), List.lookup_cons, List.lookup_cons, ih]
      by_cases hother : other = name
      · have hne : (other == key) = false := by simp [hother, Ne.symm hkey]
        rw [if_pos hother, if_pos hother, hne]
      · rw [if_neg hother, if_neg hother]

theorem ticket?_of_forget (h : b'.readers = (b.forget name).readers) (other : String) :
    b'.ticket? other = if other = name then none else b.ticket? other := by
  unfold ticket? reader?
  rw [h, forget, lookup_filter_ne]
  split <;> rfl

theorem dropReader_eq (b : Bench) (name : String) :
    b.dropReader name =
      { b.forget name with stream := b.stream.without (b.ticket? name) } := by
  unfold dropReader ticket?
  cases (b.reader? name).bind (·.ticket) <;> rfl

/-- All that one operation can do. -/
inductive Turn (b : Bench) : Op → Bench → Answer → Prop where
  /-- A reader is polled. Who is started takes the place of the reader of its name. -/
  | polls {op : Op} {b' : Bench} {name : String} {want : Want} {s : Stream} {ticket : Option Nat}
    {out : Polled String} (hop : op.reader? = some name)
    (hbase : op.dropped? = none ∧ s = b.stream ∧ ticket = b.ticket? name ∨
      op.dropped? = some name ∧ s = b.stream.without (b.ticket? name) ∧ ticket = none)
    (hpolls : s.Polls want.serve b.cancellation ticket b'.stream b'.cancellation out)
    (hticket : b'.ticket? name = out.ticket?)
    (hothers : ∀ other, other ≠ name → b'.ticket? other = b.ticket? other) :
    Turn b op b' (Answer.ofPolled out)
  | drops {b' : Bench} {name : String}
    (hstream : b'.stream = b.stream.without (b.ticket? name))
    (hticket : b'.ticket? name = none)
    (hothers : ∀ other, other ≠ name → b'.ticket? other = b.ticket? other)
    (hcancellation : b'.cancellation = b.cancellation) : Turn b (.drop name) b' .done
  | writes {text : String} {s : Stream} (htext : text.toList ≠ []) (hopen : b.stream.closed = false)
    (hwakes : b.stream.WakesOne s) (hclosed : s.closed = false)
    (hminds : s.cancellable = b.stream.cancellable) :
    Turn b (.write text) { b with stream := s } .done
  | closes (hopen : b.stream.closed = false) :
    Turn b .close { b with stream := { b.stream with closed := true }.wakeAll } .done
  | cancels : Turn b .cancel { b with cancellation := b.cancellation.fire } .done
  | reads : Turn b .readNow { b with stream := b.stream.drain.2 } (.text b.stream.drain.1)
  /-- Nothing happens. -/
  | rests {op : Op} {answer : Answer} (hnobody : ∀ name ∈ op.reader?, b.ticket? name = none)
    (hanswer : ∀ value, answer ≠ .text value)
    (hop : ∀ text : String, op = .write text → text.toList = [] ∨ b.stream.closed = true) :
    Turn b op b answer

theorem turn_pollReader {base : Bench} {r : Reader} (hop : op.reader? = some name)
    (hbase : op.dropped? = none ∧ base.stream = b.stream ∧ r.ticket = b.ticket? name ∨
      op.dropped? = some name ∧ base.stream = b.stream.without (b.ticket? name) ∧ r.ticket = none)
    (hcancellation : base.cancellation = b.cancellation)
    (hothers : ∀ other, other ≠ name → base.ticket? other = b.ticket? other) :
    Turn b op (base.pollReader name r).1 (base.pollReader name r).2 := by
  rcases hpoll : base.stream.poll r.want.serve base.cancellation r.ticket with ⟨t, c, out⟩
  have hpolls := Stream.polls_of_eq hpoll
  rw [hcancellation] at hpolls
  let gone : Bench := ⟨t, c, (base.forget name).readers⟩
  have hreaders : gone.readers = (base.forget name).readers := rfl
  have hgone : gone.ticket? name = none := by rw [ticket?_of_forget hreaders, if_pos rfl]
  have hkept (other : String) (hne : other ≠ name) : gone.ticket? other = b.ticket? other := by
    rw [ticket?_of_forget hreaders, if_neg hne, hothers other hne]
  unfold pollReader
  simp only [hpoll]
  rcases out with ⟨cause | value⟩ | ticket
  · exact .polls hop hbase hpolls hgone hkept
  · exact .polls hop hbase hpolls hgone hkept
  · let waits : Bench :=
      { gone with readers := (name, { r with ticket := some ticket }) :: gone.readers }
    have hnew : waits.ticket? name = (Polled.waiting (α := String) ticket).ticket? := by
      simp [waits, ticket?, reader?, Polled.ticket?]
    have hothers' (other : String) (hne : other ≠ name) : waits.ticket? other = b.ticket? other := by
      have hskip : (other == name) = false := by simp [hne]
      rw [ticket?, reader?, List.lookup_cons, hskip]
      exact hkept other hne
    have hturn : Turn b op waits (Answer.ofPolled (.waiting ticket)) :=
      .polls hop hbase hpolls hnew hothers'
    exact hturn

theorem turn_step (b : Bench) (op : Op) : Turn b op (b.step op).1 (b.step op).2 := by
  cases op with
  | start name want =>
    have hreaders : (b.dropReader name).readers = (b.forget name).readers := by rw [dropReader_eq]
    refine turn_pollReader rfl (.inr ⟨rfl, by rw [dropReader_eq], rfl⟩) (by rw [dropReader_eq]; rfl)
      fun other hne => ?_
    rw [ticket?_of_forget hreaders, if_neg hne]
  | poll name =>
    cases hr : b.reader? name with
    | some r =>
      have hstep : b.step (.poll name) = b.pollReader name r := by simp only [step, hr]
      rw [hstep]
      exact turn_pollReader rfl (.inl ⟨rfl, rfl, by rw [ticket?, hr]; rfl⟩) rfl fun _ _ => rfl
    | none =>
      have hstep : b.step (.poll name) = (b, .nobody) := by simp only [step, hr]
      rw [hstep]
      exact .rests (by simp [Op.reader?, ticket?, hr]) (by simp) (by simp)
  | drop name =>
    have hreaders : (b.dropReader name).readers = (b.forget name).readers := by rw [dropReader_eq]
    refine .drops (by rw [step, dropReader_eq]) ?_ (fun other hne => ?_)
      (by rw [step, dropReader_eq]; rfl)
    · rw [step, ticket?_of_forget hreaders, if_pos rfl]
    · rw [step, ticket?_of_forget hreaders, if_neg hne]
  | write text =>
    unfold step
    rcases b.stream.write_cases text with ⟨hclosed, h⟩ | ⟨hopen, t, h, hclosed, -⟩
    · simp only [h]
      exact .rests (by simp [Op.reader?]) (by simp) fun _ _ => .inr hclosed
    · simp only [h]
      rcases Stream.write_wakes h with ⟨hnil, rfl⟩ | ⟨hne, hwakes⟩
      · exact .rests (by simp [Op.reader?]) (by simp) fun text h => by cases h; exact .inl hnil
      · refine .writes hne hopen hwakes hclosed ?_
        unfold Stream.write at h
        rw [if_neg (by simp [hopen]), if_neg (by simp [hne])] at h
        cases h
        rw [Stream.cancellable_wakeNext, Stream.append]
        split <;> rfl
  | close =>
    unfold step
    cases hclosed : b.stream.closed with
    | true =>
      have h : b.stream.close = .error .closed := by rw [Stream.close, hclosed]; rfl
      simp only [h]
      exact .rests (by simp [Op.reader?]) (by simp) (by simp)
    | false =>
      have h : b.stream.close = .ok { b.stream with closed := true }.wakeAll := by
        rw [Stream.close, hclosed]; rfl
      simp only [h]
      exact .closes hclosed
  | readNow =>
    unfold step
    rcases b.stream.readNow_cases with ⟨-, -, h⟩ | h
    · simp only [h]
      exact .rests (by simp [Op.reader?]) (by simp) (by simp)
    · simp only [h]
      exact .reads
  | cancel => exact .cancels
  | isClosed => exact .rests (by simp [Op.reader?]) (by simp [step]) (by simp)

/-! ## The tickets that are held -/

/-- The tickets that the stream expects are held, each by one reader. -/
structure Agrees (b : Bench) : Prop where
  order : b.stream.InOrder
  dismissed : b.stream.Dismissed
  expects : ∀ n, b.stream.Expects n ↔ ∃ name, b.ticket? name = some n
  distinct : ∀ x y n, b.ticket? x = some n → b.ticket? y = some n → x = y

theorem Agrees.lt_issued (hb : b.Agrees) (h : b.ticket? name = some n) : n < b.stream.issued :=
  hb.order.issued n ((hb.expects n).2 ⟨name, h⟩)

theorem Fresh.agrees (h : b.Fresh) : b.Agrees := by
  have hticket (name : String) : b.ticket? name = none := by simp [ticket?, reader?, h.readers]
  have hexpects (n : Nat) : ¬ b.stream.Expects n := by
    simp [Stream.Expects, Stream.mem_live_iff, h.waiters, h.woken]
  refine ⟨Stream.inOrder_of_fresh h.waiters h.woken, fun _ => h.waiters, fun n => ?_, ?_⟩
  · simp [hexpects, hticket]
  · simp [hticket]

/-- One reader leaves, and comes back with a new ticket, with its old one, or not at all. -/
theorem Agrees.replace (hb : b.Agrees) (horder : b'.stream.InOrder)
    (hdismissed : b'.stream.Dismissed)
    (hexpects : ∀ n, b'.stream.Expects n ↔
      (b.stream.without (b.ticket? name)).Expects n ∨ b'.ticket? name = some n)
    (hticket : ∀ n, b'.ticket? name = some n → b.ticket? name = some n ∨ n = b.stream.issued)
    (hothers : ∀ other, other ≠ name → b'.ticket? other = b.ticket? other) : b'.Agrees := by
  -- nobody else has the ticket with which the reader comes back
  have hown (x : String) (n : Nat) (hx : b'.ticket? x = some n) (hn : b'.ticket? name = some n) :
      x = name := by
    by_contra hne
    rw [hothers x hne] at hx
    rcases hticket n hn with hold | rfl
    · exact hne (hb.distinct x name n hx hold)
    · exact Nat.lt_irrefl _ (hb.lt_issued hx)
  refine ⟨horder, hdismissed, fun n => ?_, fun x y n hx hy => ?_⟩
  · rw [hexpects, Stream.expects_without, hb.expects]
    constructor
    · rintro (⟨⟨x, hx⟩, hne⟩ | hn)
      · refine ⟨x, ?_⟩
        rwa [hothers x (by rintro rfl; exact hne hx)]
      · exact ⟨name, hn⟩
    · rintro ⟨x, hx⟩
      by_cases hname : x = name
      · exact .inr (hname ▸ hx)
      · rw [hothers x hname] at hx
        exact .inl ⟨⟨x, hx⟩, fun hn => hname (hb.distinct x name n hx hn)⟩
  · by_cases hxname : x = name
    · rw [hxname] at hx ⊢
      exact (hown y n hy hx).symm
    · by_cases hyname : y = name
      · rw [hyname] at hy ⊢
        exact hown x n hx hy
      · rw [hothers x hxname] at hx
        rw [hothers y hyname] at hy
        exact hb.distinct x y n hx hy

/-- The stream that a reader is polled on, and the ticket with which it is polled. -/
structure Base (b : Bench) (name : String) (s : Stream) (ticket : Option Nat) : Prop where
  order : s.InOrder
  dismissed : s.Dismissed
  issued : s.issued = b.stream.issued
  expects : ∀ n, ticket = some n → s.Expects n
  held : ∀ n, ticket = some n → b.ticket? name = some n
  without : s.without ticket = b.stream.without (b.ticket? name)

theorem Agrees.base {s : Stream} {ticket : Option Nat} (hb : b.Agrees)
    (hbase : op.dropped? = none ∧ s = b.stream ∧ ticket = b.ticket? name ∨
      op.dropped? = some name ∧ s = b.stream.without (b.ticket? name) ∧ ticket = none) :
    Base b name s ticket := by
  obtain ⟨-, rfl, rfl⟩ | ⟨-, rfl, rfl⟩ := hbase
  · exact ⟨hb.order, hb.dismissed, rfl, fun n hn => (hb.expects n).2 ⟨name, hn⟩, fun n hn => hn,
      rfl⟩
  · exact ⟨hb.order.without _, hb.dismissed.without _, Stream.issued_without _, by simp, by simp,
      rfl⟩

namespace Turn

/-- A reader that waits after an operation has the ticket that it had, or a new one. -/
theorem ticket_cases (h : Turn b op b' answer) (hb : b.Agrees) (hn : b'.ticket? name = some n) :
    b.ticket? name = some n ∨ op.reader? = some name ∧ n = b.stream.issued := by
  cases h with
  | @polls _ _ who _ _ _ _ hop hbase hpolls hticket hothers =>
    by_cases hname : name = who
    · subst hname
      rw [hticket] at hn
      rw [← (hb.base hbase).issued]
      exact (hpolls.ticket_cases hn).imp ((hb.base hbase).held n) fun hnew => ⟨hop, hnew⟩
    · rw [hothers name hname] at hn
      exact .inl hn
  | @drops _ who _ hticket hothers =>
    by_cases hname : name = who
    · rw [hname, hticket] at hn
      cases hn
    · rw [hothers name hname] at hn
      exact .inl hn
  | writes | closes | cancels | reads | rests => exact .inl hn

/-- Nothing happens to a reader that an operation is not about. -/
theorem ticket_eq (h : Turn b op b' answer) (hop : op.reader? ≠ some name) :
    b'.ticket? name = b.ticket? name := by
  cases h with
  | polls hreader _ _ _ hothers =>
    exact hothers name (by rintro rfl; exact hop hreader)
  | drops _ _ hothers => exact hothers name (by rintro rfl; exact hop rfl)
  | writes | closes | cancels | reads | rests => rfl

theorem agrees (h : Turn b op b' answer) (hb : b.Agrees) : b'.Agrees := by
  cases h with
  | polls hop hbase hpolls hticket hothers =>
    have base := hb.base hbase
    refine hb.replace (hpolls.inOrder base.order) (hpolls.dismissed base.dismissed) (fun n => ?_)
      (fun n hn => ?_) hothers
    · rw [hpolls.expects_iff base.expects, base.without, hticket]
    · rw [hticket] at hn
      rw [← base.issued]
      exact (hpolls.ticket_cases hn).imp_left (base.held n)
  | drops hstream hticket hothers =>
    refine hb.replace ?_ ?_ (fun n => ?_) (fun n hn => ?_) hothers
    · rw [hstream]
      exact hb.order.without _
    · rw [hstream]
      exact hb.dismissed.without _
    · rw [hstream, hticket]
      simp
    · rw [hticket] at hn
      cases hn
  | writes _ _ hwakes hclosed =>
    exact ⟨hwakes.inOrder hb.order, fun h => absurd h (by simp [hclosed]),
      fun n => hwakes.expects_iff.trans (hb.expects n), hb.distinct⟩
  | closes =>
    have hsame : Stream.SameQueue b.stream { b.stream with closed := true } := ⟨rfl, rfl, rfl⟩
    exact ⟨(hsame.inOrder hb.order).wakeAll, fun _ => rfl,
      fun n => Stream.expects_wakeAll.trans (hsame.expects_iff.trans (hb.expects n)), hb.distinct⟩
  | reads =>
    have hsame : Stream.SameQueue b.stream b.stream.drain.2 := ⟨rfl, rfl, rfl⟩
    exact ⟨hsame.inOrder hb.order, hb.dismissed,
      fun n => hsame.expects_iff.trans (hb.expects n), hb.distinct⟩
  | cancels => exact ⟨hb.order, hb.dismissed, hb.expects, hb.distinct⟩
  | rests => exact hb

theorem attended (h : Turn b op b' answer) (hb : b.Agrees) (hspares : b.Spares op)
    (ha : b.stream.Attended b.cancellation.fired) :
    b'.stream.Attended b'.cancellation.fired := by
  cases h with
  | polls hop hbase hpolls =>
    refine hpolls.attended (hb.base hbase).dismissed ?_
    obtain ⟨-, rfl, -⟩ | ⟨hdropped, rfl, -⟩ := hbase
    · exact ha
    · exact ha.without fun n hn => hspares _ hdropped n hn
  | drops hstream _ _ hcancellation =>
    rw [hstream, hcancellation]
    exact ha.without fun n hn => hspares _ rfl n hn
  | writes _ _ hwakes => exact hwakes.attended
  | closes => exact fun _ hlive => absurd rfl hlive
  | cancels =>
    intro htext hlive
    refine (ha htext hlive).imp_right fun hcancelled => ?_
    rw [Bool.and_eq_true] at hcancelled
    rw [Cancellation.fired_fire, Bool.and_true]
    exact hcancelled.1
  | reads => exact Stream.attended_of_empty rfl
  | rests => exact ha

/-- Who waits on after it was polled has not been called. -/
theorem not_called (h : Turn b op b' answer) (hb : b.Agrees) (hop : op.reader? = some name) :
    ¬ b'.Called name := by
  rintro ⟨n, hn, hcalls⟩
  rw [Option.mem_def] at hn
  cases h with
  | @polls _ _ who _ _ _ _ hreader hbase hpolls hticket hothers =>
    obtain rfl : name = who := Option.some.inj (hop.symm.trans hreader)
    rw [hticket] at hn
    obtain ⟨hwoken, hquiet⟩ := hpolls.not_called (hb.base hbase).order hn
    simp [Stream.calls, hwoken, hquiet] at hcalls
  | drops _ hticket =>
    obtain rfl := Option.some.inj hop
    rw [hticket] at hn
    cases hn
  | writes | closes | cancels | reads => cases hop
  | rests hnobody =>
    rw [hnobody name hop] at hn
    cases hn

/-- Only the cancellation of the run cancels it. -/
theorem cancellation_cases (h : Turn b op b' answer) :
    b'.stream.cancellable = b.stream.cancellable ∧
      (b'.cancellation.fired = b.cancellation.fired ∨ op = .cancel) := by
  cases h with
  | polls _ hbase hpolls =>
    refine ⟨?_, .inl hpolls.fired⟩
    rw [hpolls.cancellable]
    obtain ⟨-, rfl, -⟩ | ⟨-, rfl, -⟩ := hbase
    · rfl
    · exact Stream.cancellable_without _
  | drops hstream _ _ hcancellation =>
    rw [hstream, hcancellation]
    exact ⟨Stream.cancellable_without _, .inl rfl⟩
  | writes _ _ _ _ hminds => exact ⟨hminds, .inl rfl⟩
  | cancels => exact ⟨rfl, .inr rfl⟩
  | closes | reads | rests => exact ⟨rfl, .inl rfl⟩

end Turn

/-! ## Who is called -/

/-- The stream without the reader that an operation is about. -/
def bystanders (b : Bench) (op : Op) : Stream := b.stream.without (op.reader?.bind b.ticket?)

/-- Only what signals sends a wake-up, and it sends one: to the oldest reader in the queue that it is
not about. -/
theorem signals_cases (b : Bench) (hop : op ≠ .close) :
    ¬ b.Signals op ∧ (∀ n ∈ (b.step op).1.stream.woken, n ∈ b.stream.woken) ∨
      b.Signals op ∧ (b.bystanders op).WakesOne (b.step op).1.stream := by
  have h := b.turn_step op
  unfold Signals bystanders
  generalize (b.step op).1 = b' at h ⊢
  generalize (b.step op).2 = answer at h ⊢
  cases h with
  | @polls _ _ name _ _ _ out hreader hbase hpolls =>
    have hwrite : ∀ text, op ≠ .write text := by rintro text rfl; cases hreader
    have hover : (∃ value, Answer.ofPolled out = .text value) ∧ b'.stream.text ≠ [] ↔
        Stream.HandsOver out b'.stream := by
      rcases out with ⟨cause | value⟩ | ticket <;> simp [Answer.ofPolled, Stream.HandsOver]
    simp only [hwrite, false_and, exists_const, false_or, hover, hreader, Option.bind_some]
    obtain ⟨-, rfl, rfl⟩ | ⟨-, rfl, rfl⟩ := hbase
    · exact hpolls.wakes_cases
    · refine hpolls.wakes_cases.imp_left fun hrests => ?_
      exact ⟨hrests.1, fun n hn => (Stream.mem_woken_without.1 (hrests.2 n hn)).1⟩
  | drops hstream =>
    refine .inl ⟨by simp, fun n hn => ?_⟩
    rw [hstream] at hn
    exact (Stream.mem_woken_without.1 hn).1
  | @writes text _ htext hopen hwakes => exact .inr ⟨.inl ⟨text, rfl, htext, hopen⟩, hwakes⟩
  | closes => exact absurd rfl hop
  | cancels => exact .inl ⟨by simp, fun n hn => hn⟩
  | reads => exact .inl ⟨by simp, fun n hn => hn⟩
  | rests _ hanswer hwrites =>
    refine .inl ⟨?_, fun n hn => hn⟩
    rintro (⟨text, htext, hne, hopen⟩ | ⟨⟨value, hvalue⟩, -⟩)
    · rcases hwrites text htext with hnil | hclosed
      · exact hne hnil
      · rw [hopen] at hclosed
        cases hclosed
    · exact hanswer value hvalue

theorem Agrees.mem_live (hb : b.Agrees) (hn : b.ticket? name = some n)
    (hwoken : n ∉ b.stream.woken) : { ticket := n } ∈ b.stream.live :=
  ((hb.expects n).2 ⟨name, hn⟩).resolve_right hwoken

theorem Parked.mem_bystanders (h : b.Parked name) (hb : b.Agrees) (hn : b.ticket? name = some n)
    (hop : op.reader? ≠ some name) : { ticket := n } ∈ (b.bystanders op).live := by
  obtain ⟨m, hm, hwaits⟩ := h
  obtain rfl : m = n := Option.some.inj (hm.symm.trans hn)
  rw [bystanders, Stream.live_without, List.mem_filter, decide_eq_true_eq]
  refine ⟨Stream.mem_live_iff.2 hwaits, fun heq => ?_⟩
  obtain ⟨who, hwho, hticket⟩ := Option.bind_eq_some_iff.1 heq.symm
  obtain rfl := hb.distinct name who m hn hticket
  exact hop hwho

/-- Who is called was queued, and before everybody else who might have been called. -/
theorem Hails.oldest (hb : b.Agrees) (hop : op ≠ .close) (h : b.Hails op name) :
    b.Signals op ∧ b.Parked name ∧
      ∃ n, b.ticket? name = some n ∧ ∀ other m, b.Parked other → b.ticket? other = some m →
        op.reader? ≠ some other → other ≠ name → n < m := by
  obtain ⟨n, hn, hasleep, hwoken⟩ := h
  rw [Option.mem_def] at hn
  obtain ⟨hsignals, hwakes⟩ := (b.signals_cases hop).resolve_left fun hno =>
    hasleep (hno.2 n hwoken)
  refine ⟨hsignals, ⟨n, hn, Stream.mem_live_iff.1 (hb.mem_live hn hasleep)⟩, n, hn,
    fun other m hparked hm hother hne => ?_⟩
  have hmem := hparked.mem_bystanders hb hm hother
  have hsorted : (b.bystanders op).live.Pairwise (·.ticket < ·.ticket) :=
    (hb.order.without _).sorted
  rw [hwakes.woken, List.mem_append] at hwoken
  cases hlive : (b.bystanders op).live with
  | nil =>
    rw [hlive] at hmem
    cases hmem
  | cons first rest =>
    rw [hlive] at hmem hsorted hwoken
    have hfirst : n = first.ticket := by
      rcases hwoken with hhead | hold
      · simpa using hhead
      · exact absurd (Stream.mem_woken_without.1 hold).1 hasleep
    rcases List.mem_cons.1 hmem with heq | hrest
    · -- the other reader would have this ticket too
      refine absurd (hb.distinct other name n ?_ hn) hne
      rw [hm, hfirst, ← heq]
    · rw [hfirst]
      exact (List.pairwise_cons.1 hsorted).1 _ hrest

/-- A wake-up reaches somebody who is there. -/
theorem exists_reader_of_woken (hb : b.Agrees) (hwoken : n ∈ (b.step op).1.stream.woken) :
    ∃ name, b.ticket? name = some n := by
  have hturn := b.turn_step op
  obtain ⟨name, hname⟩ := ((hturn.agrees hb).expects n).1 (.inr hwoken)
  have hcalled : (b.step op).1.Called name := ⟨n, hname, by simp [Stream.calls, hwoken]⟩
  exact ⟨name, (hturn.ticket_eq fun hop => hturn.not_called hb hop hcalled) ▸ hname⟩

/-- A wake-up reaches somebody if somebody is queued. -/
theorem Signals.exists_hails (hb : b.Agrees) (hop : op ≠ .close) (h : b.Signals op)
    (hparked : b.Parked other) (hother : op.reader? ≠ some other) : ∃ name, b.Hails op name := by
  have hwakes := ((b.signals_cases hop).resolve_left fun hno => hno.1 h).2
  obtain ⟨m, hm, -⟩ := id hparked
  have hmem := hparked.mem_bystanders hb hm hother
  cases hlive : (b.bystanders op).live with
  | nil =>
    rw [hlive] at hmem
    cases hmem
  | cons first rest =>
    have hfirst : first ∈ b.stream.live := by
      have hin : first ∈ (b.bystanders op).live := by simp [hlive]
      rw [bystanders, Stream.live_without] at hin
      exact (List.mem_filter.1 hin).1
    rw [Stream.eq_of_mem_live hfirst] at hfirst
    obtain ⟨name, hname⟩ := (hb.expects first.ticket).1 (.inl hfirst)
    refine ⟨name, first.ticket, hname, fun hwoken => hb.order.apart _ hwoken hfirst, ?_⟩
    rw [hwakes.woken, hlive]
    simp

/-! ## Runs -/

theorem after_append (b : Bench) (ops more : List Op) :
    b.after (ops ++ more) = (b.after ops).after more := by
  unfold after
  induction ops generalizing b with
  | nil => rfl
  | cons op ops ih => exact ih (b.step op).1

theorem after_concat (b : Bench) (ops : List Op) (op : Op) :
    b.after (ops ++ [op]) = ((b.after ops).step op).1 :=
  b.after_append ops [op]

theorem arrivals_concat (b : Bench) (ops : List Op) (op : Op) :
    b.arrivals (ops ++ [op]) = b.arrivals ops ++ ((b.after ops).arrival? op).toList := by
  induction ops generalizing b with
  | nil => simp [arrivals, after, run]
  | cons first rest ih =>
    rw [List.cons_append, arrivals, ih, arrivals, List.append_assoc]
    rfl

theorem Agrees.after (hb : b.Agrees) (ops : List Op) : (b.after ops).Agrees := by
  induction ops generalizing b with
  | nil => exact hb
  | cons op ops ih => exact ih ((b.turn_step op).agrees hb)

theorem attended_after (hb : b.Agrees) (ha : b.stream.Attended b.cancellation.fired) (ops : List Op)
    (hspares : b.SparesAll ops) :
    (b.after ops).stream.Attended (b.after ops).cancellation.fired := by
  induction ops generalizing b with
  | nil => exact ha
  | cons op ops ih =>
    have hturn := b.turn_step op
    exact ih (hturn.agrees hb) (hturn.attended hb hspares.1 ha) hspares.2

/-! ## The order of arrival -/

theorem precedes_concat_self {arrivals : List String} {x y : String} (hx : x ∈ arrivals)
    (hne : x ≠ y) : Precedes (arrivals ++ [y]) x y := by
  induction arrivals with
  | nil => cases hx
  | cons first rest ih =>
    by_cases hrest : x ∈ rest
    · obtain ⟨earlier, later, heq, hlast, hy⟩ := ih hrest
      exact ⟨first :: earlier, later, by rw [List.cons_append, heq, List.cons_append], hlast, hy⟩
    · obtain rfl : x = first := (List.mem_cons.1 hx).resolve_right hrest
      exact ⟨[], rest ++ [y], rfl, by simp [hrest, hne], by simp⟩

theorem Precedes.concat {arrivals more : List String} {x y : String} (h : Precedes arrivals x y)
    (hx : x ∉ more) : Precedes (arrivals ++ more) x y := by
  obtain ⟨earlier, later, rfl, hlast, hy⟩ := h
  exact ⟨earlier, later ++ more, by simp, by simp [hlast, hx], by simp [hy]⟩

/-- Who enters the queue gets a new ticket. -/
theorem arrival?_eq_some_iff (hb : b.Agrees) :
    b.arrival? op = some name ↔ (b.step op).1.ticket? name = some b.stream.issued := by
  have hcases {n : Nat} (hn : (b.step op).1.ticket? name = some n) :=
    (b.turn_step op).ticket_cases hb hn
  simp only [arrival?, Option.filter_eq_some_iff, Bool.and_eq_true, decide_eq_true_eq]
  constructor
  · rintro ⟨hop, hsome, hne⟩
    obtain ⟨n, hn⟩ := Option.isSome_iff_exists.1 hsome
    rcases hcases hn with hold | ⟨-, rfl⟩
    · rw [hn, hold] at hne
      exact absurd rfl hne
    · exact hn
  · intro hn
    have hnew : b.ticket? name ≠ some b.stream.issued := fun hold =>
      Nat.lt_irrefl _ (hb.lt_issued hold)
    refine ⟨((hcases hn).resolve_left hnew).1, by rw [hn]; rfl, ?_⟩
    rw [hn]
    exact Ne.symm hnew

/-- Tickets are in the order of arrival. -/
theorem arrivals_in_order (hb : b.Fresh) (ops : List Op) :
    (∀ x n, (b.after ops).ticket? x = some n → x ∈ b.arrivals ops) ∧
      ∀ x y m n, (b.after ops).ticket? x = some m → (b.after ops).ticket? y = some n → m < n →
        Precedes (b.arrivals ops) x y := by
  induction ops using List.reverseRecOn with
  | nil =>
    have hnobody (x : String) : (b.after []).ticket? x = none := by
      simp [after, run, ticket?, reader?, hb.readers]
    simp [hnobody]
  | append_singleton ops op ih =>
    have hagrees := hb.agrees.after ops
    rw [after_concat, arrivals_concat]
    generalize b.after ops = now at ih hagrees
    -- the ticket is an old one and its reader does not arrive now, or it is new and its reader does
    have hcases {x : String} {n : Nat} (hx : (now.step op).1.ticket? x = some n) :
        now.ticket? x = some n ∧ n < now.stream.issued ∧ x ∉ (now.arrival? op).toList ∨
          n = now.stream.issued ∧ now.arrival? op = some x := by
      rw [Option.mem_toList, arrival?_eq_some_iff hagrees, hx, Option.some.injEq]
      rcases (now.turn_step op).ticket_cases hagrees hx with hold | ⟨-, rfl⟩
      · have hlt := hagrees.lt_issued hold
        exact .inl ⟨hold, hlt, Nat.ne_of_lt hlt⟩
      · exact .inr ⟨rfl, rfl⟩
    refine ⟨fun x n hx => ?_, fun x y m n hx hy hlt => ?_⟩
    · rw [List.mem_append, Option.mem_toList]
      exact (hcases hx).imp (fun hold => ih.1 x n hold.1) And.right
    · rcases hcases hx with ⟨hxold, -, hnot⟩ | ⟨rfl, -⟩
      · rcases hcases hy with ⟨hyold, -, -⟩ | ⟨rfl, hynew⟩
        · exact (ih.2 x y m n hxold hyold hlt).concat hnot
        · rw [hynew] at hnot ⊢
          exact precedes_concat_self (ih.1 x m hxold) (by simpa using hnot)
      · rcases hcases hy with ⟨-, hyold, -⟩ | ⟨rfl, -⟩ <;> omega

/-! ## Since when a reader has been called -/

theorem WokenSince.concat {ops : List Op} (h : b.WokenSince ops name)
    (hop : op.reader? ≠ some name) : b.WokenSince (ops ++ [op]) name := by
  obtain ⟨before, wake, later, rfl, hwakes, hlater⟩ := h
  refine ⟨before, wake, later ++ [op], by simp, hwakes, fun op' hop' => ?_⟩
  rcases List.mem_append.1 hop' with hmem | hmem
  · exact hlater op' hmem
  · obtain rfl := List.mem_singleton.1 hmem
    exact hop

/-- Whatever makes a reader get on has woken it. -/
theorem wakes_of_called (hb : b.Agrees) (hop : op.reader? ≠ some name) (hbefore : ¬ b.Called name)
    (hcalled : (b.step op).1.Called name) : b.Wakes op name := by
  have hturn := b.turn_step op
  obtain ⟨n, hn, hcalls⟩ := hcalled
  rw [Option.mem_def, hturn.ticket_eq hop] at hn
  have hquiet : b.stream.calls b.cancellation.fired n = false := by
    rw [Bool.eq_false_iff]
    exact fun h => hbefore ⟨n, hn, h⟩
  obtain ⟨hminds, hfired⟩ := hturn.cancellation_cases
  simp only [Stream.calls, Bool.or_eq_true, Bool.or_eq_false_iff, List.contains_iff_mem,
    Bool.and_eq_true, hminds] at hcalls hquiet
  have hasleep : n ∉ b.stream.woken := by simpa using hquiet.1
  rcases hcalls with hwoken | ⟨hmind, hnow⟩
  · exact .inl ⟨n, hn, hasleep, hwoken⟩
  · have hearlier : b.cancellation.fired = false := by simpa [hmind] using hquiet.2
    refine .inr ⟨hfired.resolve_left fun hsame => ?_, hmind, hearlier, n, hn,
      Stream.mem_live_iff.1 (hb.mem_live hn hasleep)⟩
    rw [hsame, hearlier] at hnow
    cases hnow

theorem wokenSince_of_called (hb : b.Fresh) (ops : List Op) (h : (b.after ops).Called name) :
    b.WokenSince ops name := by
  induction ops using List.reverseRecOn with
  | nil =>
    obtain ⟨n, hn, -⟩ := h
    simp [after, run, ticket?, reader?, hb.readers] at hn
  | append_singleton ops op ih =>
    have hagrees := hb.agrees.after ops
    rw [after_concat] at h
    have hop : op.reader? ≠ some name := fun hop =>
      ((b.after ops).turn_step op).not_called hagrees hop h
    by_cases hbefore : (b.after ops).Called name
    · exact (ih hbefore).concat hop
    · exact ⟨ops, op, [], rfl, wakes_of_called hagrees hop hbefore h, by simp⟩

/-- Nobody is left to sleep beside text. -/
theorem exists_called (hb : b.Agrees) (ha : b.stream.Attended b.cancellation.fired)
    (hparked : b.Parked name) (htext : b.stream.text ≠ []) : ∃ name, b.Called name := by
  obtain ⟨n, hn, hwaits⟩ := hparked
  have hlive : b.stream.live ≠ [] := List.ne_nil_of_mem (Stream.mem_live_iff.2 hwaits)
  rcases ha htext hlive with hwoken | hcancelled
  · obtain ⟨m, hm⟩ := List.exists_mem_of_ne_nil _ hwoken
    obtain ⟨who, hwho⟩ := (hb.expects m).1 (.inr hm)
    exact ⟨who, m, hwho, by simp [Stream.calls, hm]⟩
  · exact ⟨name, n, hn, by rw [Stream.calls, hcancelled, Bool.or_true]⟩

/-! ## Every run -/

/-- In every run that begins with nobody there, in which nobody goes who has been sent a wake-up and
not been polled since:

* nobody is queued for a closed stream, and while somebody is queued although there is text, somebody
  has been woken and not been polled since;
* wake-ups that do not come from closing come from writes and from reads that leave text; each goes to
  a reader who is there and queued, and who came into the queue before all others who are (but for one
  that the operation is about);
* and whenever there is such a signal and somebody to hear it, somebody is woken. -/
theorem run_attends (b : Bench) (ops : List Op) (hfresh : b.Fresh) (hspares : b.SparesAll ops) :
    ((b.after ops).stream.closed = true → (b.after ops).stream.waiters = []) ∧
      ((∃ name, (b.after ops).Parked name) →
        (b.after ops).stream.text ≠ [] ∨ (b.after ops).stream.closed = true →
        (b.after ops).stream.closed = false ∧
          ∃ name, (b.after ops).Called name ∧ b.WokenSince ops name) ∧
      ∀ op, op ≠ .close →
        (∀ n ∈ ((b.after ops).step op).1.stream.woken, n ∉ (b.after ops).stream.woken →
          (b.after ops).Signals op ∧ ∃ name, (b.after ops).ticket? name = some n ∧
            (b.after ops).Parked name ∧
            ∀ other, (b.after ops).Parked other → op.reader? ≠ some other → other ≠ name →
              Precedes (b.arrivals ops) name other) ∧
        ((b.after ops).Signals op →
          (∃ other, (b.after ops).Parked other ∧ op.reader? ≠ some other) →
          ∃ name, (b.after ops).Hails op name) := by
  have hagrees := hfresh.agrees.after ops
  have hquiet : b.stream.Attended b.cancellation.fired := fun _ hlive =>
    absurd (by rw [Stream.live, hfresh.waiters]; rfl) hlive
  have hattended := attended_after hfresh.agrees hquiet ops hspares
  refine ⟨hagrees.dismissed, ?_, fun op hop => ⟨fun n hwoken hasleep => ?_, ?_⟩⟩
  · rintro ⟨name, hparked⟩ hmore
    have hopen : (b.after ops).stream.closed = false := by
      rw [Bool.eq_false_iff]
      intro hclosed
      obtain ⟨n, -, hwaits⟩ := hparked
      rw [hagrees.dismissed hclosed] at hwaits
      cases hwaits
    have htext := hmore.resolve_right (Bool.eq_false_iff.1 hopen)
    obtain ⟨who, hcalled⟩ := exists_called hagrees hattended hparked htext
    exact ⟨hopen, who, hcalled, wokenSince_of_called hfresh ops hcalled⟩
  · obtain ⟨name, hname⟩ := exists_reader_of_woken hagrees hwoken
    obtain ⟨hsignals, hparked, m, hm, hfirst⟩ :=
      Hails.oldest hagrees hop ⟨n, hname, hasleep, hwoken⟩
    refine ⟨hsignals, name, hname, hparked, fun other hother hreader hne => ?_⟩
    obtain ⟨k, hk, -⟩ := id hother
    have hlt : m < k := hfirst other k hother hk hreader hne
    exact (arrivals_in_order hfresh ops).2 name other m k hm hk hlt
  · rintro hsignals ⟨other, hother, hreader⟩
    exact hsignals.exists_hails hagrees hop hother hreader

/-- A reader that is dropped, one whose text is taken by a newcomer and that has to queue again, and
text for only some of those who wait. -/
def contendedOps : List Op :=
  [.start "a" .char, .start "b" .peek, .start "c" .chunk, .drop "b", .write "xy", .poll "a",
    .start "d" .chunk, .start "e" .char, .poll "c", .start "f" .peek, .write "z"]

theorem run_contendedOps :
    arrivals {} contendedOps = ["a", "b", "c", "e", "c", "f"] ∧
      (∃ name, (after {} contendedOps).Called name ∧ WokenSince {} contendedOps name) ∧
      (∃ name, (after {} contendedOps).Hails (.write "w") name) ∧
      ∃ name, (after {} contendedOps).ticket? name = some 4 ∧
        Precedes (arrivals {} contendedOps) name "f" := by
  have hfresh : Fresh {} := ⟨rfl, rfl, rfl⟩
  obtain ⟨-, hcalled, hnext⟩ := run_attends {} contendedOps hfresh (by decide)
  have hf : (after {} contendedOps).ticket? "f" = some 5 := by decide
  have hparked : (after {} contendedOps).Parked "f" := ⟨5, hf, by decide⟩
  obtain ⟨hwoken, hhails⟩ := hnext (.write "w") (by simp)
  obtain ⟨hsignals, name, hname, -, hfirst⟩ := hwoken 4 (by decide) (by decide)
  refine ⟨by decide, (hcalled ⟨"f", hparked⟩ (by decide)).2,
    hhails hsignals ⟨"f", hparked, by simp [Op.reader?]⟩, name, hname,
    hfirst "f" hparked (by simp [Op.reader?]) ?_⟩
  rintro rfl
  rw [hf] at hname
  cases hname

end PocketShell.Bench
