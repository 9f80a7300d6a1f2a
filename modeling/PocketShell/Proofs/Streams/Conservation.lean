import PocketShell.Proofs.Streams.Polling
import PocketShell.Stream.Bench

/-!
# No text is lost, and none comes twice

Whatever is done to a stream, by writers and by any number of readers that come, are polled and go:

* what has been taken, in the order in which it was taken, followed by what is still buffered, is what
  has been written (`Bench.text_run`);
* a stream is closed once somebody has closed it, and not before (`Bench.closed_run`).

`Bench.run_conserves` puts this together with what a single operation may answer then.
-/

namespace PocketShell.Bench

/-! ## Runs with a log -/

/-- What the reader that an operation polls wants. -/
def want? (b : Bench) : Op → Option Want
  | .start _ want => some want
  | .poll name => (b.reader? name).map (·.want)
  | _ => none

/-- An operation with what came of it. -/
structure Entry where
  op : Op
  want? : Option Want
  answer : Answer
deriving DecidableEq, Repr

namespace Entry

/-- The text that was written. A refused write leaves none. -/
def written (e : Entry) : List Char :=
  match e.op, e.answer with
  | .write text, .done => text.toList
  | _, _ => []

/-- The text that was taken out of the stream. -/
def taken (e : Entry) : List Char :=
  match e.op, e.want?, e.answer with
  | .readNow, _, .text value => value.toList
  | _, some want, .text value => want.taken value
  | _, _, _ => []

/-- Whether this is what closed the stream. -/
def closes (e : Entry) : Prop := e.op = .close ∧ e.answer = .done

end Entry

def entry (b : Bench) (op : Op) : Entry := ⟨op, b.want? op, (b.step op).2⟩

/-- Performs operations in order, and keeps a log of them. -/
def run (b : Bench) : List Op → Bench × List Entry
  | [] => (b, [])
  | op :: ops =>
    let (after, log) := (b.step op).1.run ops
    (after, b.entry op :: log)

/-! ## One operation -/

def Answer.ofPolled : Polled String → Answer
  | .ready (.ok value) => .text value
  | .ready (.error cause) => .fault cause
  | .waiting _ => .pending

@[simp] theorem text_dropReader (b : Bench) (name : String) :
    (b.dropReader name).stream.text = b.stream.text := by
  unfold dropReader
  split <;> rfl

@[simp] theorem closed_dropReader (b : Bench) (name : String) :
    (b.dropReader name).stream.closed = b.stream.closed := by
  unfold dropReader
  split <;> rfl

/-- Polling a reader is polling its read. -/
theorem polls_pollReader (b : Bench) (name : String) (r : Reader) :
    ∃ c out, b.stream.Polls r.want.serve b.cancellation r.ticket
        (b.pollReader name r).1.stream c out ∧
      (b.pollReader name r).2 = Answer.ofPolled out := by
  rcases hpoll : b.stream.poll r.want.serve b.cancellation r.ticket with ⟨t, c, out⟩
  refine ⟨c, out, ?_⟩
  have hpolls := Stream.polls_of_eq hpoll
  unfold pollReader
  simp only [hpoll]
  rcases out with ⟨cause | text⟩ | ticket <;> exact ⟨hpolls, rfl⟩

/-- An operation that polls a reader polls one read, of a stream with the same text that is closed
or not as before. -/
theorem polls_step {b : Bench} {op : Op} {want : Want} (hwant : b.want? op = some want) :
    ∃ s c ticket c' out, s.text = b.stream.text ∧ s.closed = b.stream.closed ∧
      Stream.Polls want.serve s c ticket (b.step op).1.stream c' out ∧
      (b.step op).2 = Answer.ofPolled out := by
  cases op with
  | start name w =>
    obtain rfl : w = want := Option.some.inj hwant
    obtain ⟨c', out, hpolls, hanswer⟩ := polls_pollReader (b.dropReader name) name { want := w }
    exact ⟨_, _, _, c', out, by simp, by simp, hpolls, hanswer⟩
  | poll name =>
    obtain ⟨r, hr, rfl⟩ : ∃ r, b.reader? name = some r ∧ r.want = want := by
      simpa [want?] using hwant
    obtain ⟨c', out, hpolls, hanswer⟩ := polls_pollReader b name r
    have hstep : b.step (.poll name) = b.pollReader name r := by simp only [step, hr]
    exact ⟨_, _, _, c', out, rfl, rfl, hstep ▸ hpolls, hstep ▸ hanswer⟩
  | write | close | isClosed | readNow | cancel | drop => cases hwant

theorem taken_of_polls {op : Op} (hop : op ≠ .readNow) (want : Want) (out : Polled String) :
    (Entry.mk op (some want) (Answer.ofPolled out)).taken = want.received out := by
  rcases out with ⟨cause | value⟩ | ticket <;> cases op <;> first | exact absurd rfl hop | rfl

theorem taken_of_nobody {op : Op} (hop : op ≠ .readNow) (answer : Answer) :
    (Entry.mk op none answer).taken = [] := by
  cases op <;> first | exact absurd rfl hop | rfl

theorem written_of_ne {op : Op} (hop : ∀ text, op ≠ .write text) (want : Option Want)
    (answer : Answer) : (Entry.mk op want answer).written = [] := by
  cases op <;> first | exact absurd rfl (hop _) | rfl

/-- One operation: what is written comes behind the text, what is taken comes from its front. -/
theorem text_step (b : Bench) (op : Op) :
    b.stream.text ++ (b.entry op).written =
      (b.entry op).taken ++ (b.step op).1.stream.text := by
  unfold entry
  cases hwant : b.want? op with
  | some want =>
    obtain ⟨s, c, ticket, c', out, htext, -, hpolls, hanswer⟩ := polls_step hwant
    have hread : op ≠ .readNow := by rintro rfl; cases hwant
    have hwrite : ∀ text, op ≠ .write text := by rintro text rfl; cases hwant
    rw [written_of_ne hwrite, List.append_nil, ← htext, hpolls.text, hanswer,
      taken_of_polls hread want out]
  | none =>
    cases op with
    | start => cases hwant
    | poll name =>
      have hnobody : b.reader? name = none := by simpa [want?] using hwant
      simp [written_of_ne, taken_of_nobody, step, hnobody]
    | write text =>
      rcases b.stream.write_cases text with ⟨-, h⟩ | ⟨-, t, h, -, ht⟩
      · simp [Entry.written, taken_of_nobody, step, h]
      · simp [Entry.written, taken_of_nobody, step, h, ht]
    | close =>
      rcases b.stream.close_cases with ⟨-, h⟩ | ⟨-, t, h, -, ht⟩
      · simp [written_of_ne, taken_of_nobody, step, h]
      · simp [written_of_ne, taken_of_nobody, step, h, ht]
    | readNow =>
      rcases b.stream.readNow_cases with ⟨-, -, h⟩ | h
      · simp [written_of_ne, Entry.taken, step, h]
      · simp [written_of_ne, Entry.taken, step, h, Stream.drain, Stream.text, Stream.chunks]
    | isClosed | cancel | drop => simp [written_of_ne, taken_of_nobody, step]

/-- Only closing closes a stream. -/
theorem closed_step (b : Bench) (op : Op) :
    (b.step op).1.stream.closed = true ↔ b.stream.closed = true ∨ (b.entry op).closes := by
  cases hwant : b.want? op with
  | some want =>
    obtain ⟨s, c, ticket, c', out, -, hclosed, hpolls, -⟩ := polls_step hwant
    have hop : ¬ (b.entry op).closes := by
      rintro ⟨h, -⟩
      rw [show op = .close from h] at hwant
      cases hwant
    rw [hpolls.closed, hclosed, or_iff_left hop]
  | none =>
    cases op with
    | start => cases hwant
    | poll name =>
      have hnobody : b.reader? name = none := by simpa [want?] using hwant
      simp [entry, Entry.closes, step, hnobody]
    | write text =>
      rcases b.stream.write_cases text with ⟨hc, h⟩ | ⟨hc, t, h, ht, -⟩
      · simp [entry, Entry.closes, step, h]
      · simp [entry, Entry.closes, step, h, hc, ht]
    | close =>
      rcases b.stream.close_cases with ⟨hc, h⟩ | ⟨hc, t, h, ht, -⟩
      · simp [entry, Entry.closes, step, h]
      · simp [entry, Entry.closes, step, h, ht]
    | readNow =>
      rcases b.stream.readNow_cases with ⟨-, -, h⟩ | h
      · simp [entry, Entry.closes, step, h]
      · simp [entry, Entry.closes, step, h, Stream.drain]
    | isClosed | cancel | drop => simp [entry, Entry.closes, step]

/-- After the end every attempt to write or to close is refused and changes nothing. -/
theorem step_of_closed {b : Bench} (h : b.stream.closed = true) {op : Op}
    (hop : op = .close ∨ ∃ text, op = .write text) : b.step op = (b, .fault .closed) := by
  rcases hop with rfl | ⟨text, rfl⟩
  · simp [step, Stream.close, h]
  · simp [step, Stream.write, h]

theorem closed_of_endOfStream {b : Bench} {op : Op}
    (h : (b.step op).2 = .fault .endOfStream) : b.stream.closed = true ∧ b.stream.text = [] := by
  cases hwant : b.want? op with
  | some want =>
    obtain ⟨s, c, ticket, c', out, htext, hclosed, hpolls, hanswer⟩ := polls_step hwant
    rw [hanswer] at h
    obtain rfl : out = .ready (.error .endOfStream) := by
      rcases out with ⟨cause | value⟩ | ticket <;> simp_all [Answer.ofPolled]
    rw [← htext, ← hclosed]
    exact hpolls.endOfStream
  | none =>
    cases op with
    | start => cases hwant
    | poll name =>
      have hnobody : b.reader? name = none := by simpa [want?] using hwant
      simp [step, hnobody] at h
    | write text =>
      rcases b.stream.write_cases text with ⟨-, hw⟩ | ⟨-, t, hw, -, -⟩ <;> simp [step, hw] at h
    | close =>
      rcases b.stream.close_cases with ⟨-, hc⟩ | ⟨-, t, hc, -, -⟩ <;> simp [step, hc] at h
    | readNow =>
      rcases b.stream.readNow_cases with ⟨hclosed, htext, -⟩ | hr
      · exact ⟨hclosed, htext⟩
      · simp [step, hr] at h
    | isClosed | cancel | drop => simp [step] at h

/-- A look shows the next character and leaves it. -/
theorem head_of_peek {b : Bench} {op : Op} {value : String} (hwant : b.want? op = some .peek)
    (h : (b.step op).2 = .text value) :
    ∃ ch, b.stream.text.head? = some ch ∧ value = ch.toString ∧
      (b.step op).1.stream.text = b.stream.text := by
  obtain ⟨s, c, ticket, c', out, htext, -, hpolls, hanswer⟩ := polls_step hwant
  rw [hanswer] at h
  obtain rfl : out = .ready (.ok value) := by
    rcases out with ⟨cause | value'⟩ | ticket <;> simp_all [Answer.ofPolled]
  rw [← htext]
  exact hpolls.peek

/-! ## Runs -/

theorem text_run (b : Bench) (ops : List Op) :
    b.stream.text ++ (b.run ops).2.flatMap Entry.written =
      (b.run ops).2.flatMap Entry.taken ++ (b.run ops).1.stream.text := by
  induction ops generalizing b with
  | nil => simp [run]
  | cons op ops ih =>
    simp only [run, List.flatMap_cons]
    rw [← List.append_assoc, text_step, List.append_assoc, ih, List.append_assoc]

theorem closed_run (b : Bench) (ops : List Op) :
    (b.run ops).1.stream.closed = true ↔
      b.stream.closed = true ∨ ∃ e ∈ (b.run ops).2, e.closes := by
  induction ops generalizing b with
  | nil => simp [run]
  | cons op ops ih =>
    simp only [run, List.mem_cons, exists_eq_or_imp]
    rw [ih, closed_step, or_assoc]

/-- Everything that has been read, in the order of the answers, followed by what is buffered, is
everything that has been written, and the stream is closed if and only if it has been closed.
Whatever comes next: a look shows the next character of the buffer and leaves it; a closed stream
refuses to be written to and to be closed, and stays as it is; and the end is only reported of a
closed stream of which all has been read. What `b` holds at the start counts as written before. -/
theorem run_conserves (b : Bench) (ops : List Op) (after : Bench) (log : List Entry)
    (hrun : b.run ops = (after, log)) :
    log.flatMap Entry.taken ++ after.stream.text = b.stream.text ++ log.flatMap Entry.written ∧
      (after.stream.closed = true ↔ b.stream.closed = true ∨ ∃ e ∈ log, e.closes) ∧
      ∀ op,
        (∀ value, after.want? op = some .peek → (after.step op).2 = .text value →
          ∃ ch, after.stream.text.head? = some ch ∧ value = ch.toString ∧
            (after.step op).1.stream.text = after.stream.text) ∧
        (after.stream.closed = true → (op = .close ∨ ∃ text, op = .write text) →
          after.step op = (after, .fault .closed)) ∧
        ((after.step op).2 = .fault .endOfStream → after.stream.closed = true ∧
          log.flatMap Entry.taken = b.stream.text ++ log.flatMap Entry.written) := by
  have htext := b.text_run ops
  have hclosed := b.closed_run ops
  rw [hrun] at htext hclosed
  refine ⟨htext.symm, hclosed, fun op => ⟨fun value => head_of_peek,
    fun hc hop => step_of_closed hc hop, fun hend => ?_⟩⟩
  obtain ⟨hc, hnil⟩ := closed_of_endOfStream hend
  exact ⟨hc, by rw [htext, hnil, List.append_nil]⟩

/-- Two readers wait; the first takes one character, the second only looks at the next. -/
def sharedOps : List Op :=
  [.start "a" .char, .start "b" .peek, .write "é", .write "xy", .poll "a", .poll "b", .write "",
    .readNow, .close]

theorem run_sharedOps :
    let end_ := (run {} sharedOps).1.step (.start "c" .chunk)
    (run {} sharedOps).2.flatMap Entry.taken = ['é', 'x', 'y'] ∧ end_.2 = .fault .endOfStream ∧
      (run {} sharedOps).1.stream.closed = true ∧
      (run {} sharedOps).2.flatMap Entry.taken = (run {} sharedOps).2.flatMap Entry.written := by
  have hend : ((run {} sharedOps).1.step (.start "c" .chunk)).2 = .fault .endOfStream := by decide
  obtain ⟨-, -, hnext⟩ := run_conserves {} sharedOps _ _ rfl
  obtain ⟨hclosed, htaken⟩ := (hnext (.start "c" .chunk)).2.2 hend
  exact ⟨by decide, hend, hclosed, htaken⟩

end PocketShell.Bench
