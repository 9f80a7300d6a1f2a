import PocketShell.Fault

/-!
# Streams

A stream carries text from writers to readers, in order, until it is closed.

* `Stream.chunks`, `Stream.text` : what is buffered, in pieces and as one text;
* `Stream.write`, `Stream.close` : refused with `Fault.closed` after a close;
* `Stream.drain`, `Stream.readNow` : everything buffered, without waiting;
* `Stream.front?`, `Stream.advance` : the next character;
* `Stream.wakeNext`, `Stream.wakeAll` : readers that had to wait are woken oldest first.

A reader that finds nothing takes a numbered `Waiter` place in the queue. A place whose reader has
gone is no longer `live`; it stays queued until a wake-up reaches it, and that wake-up goes on to
the next live place.

Chunks are kept in two lists, so that writing at one end and reading at the other take no time that
grows with the buffer.
-/

namespace PocketShell

/-- A place in the queue of waiting readers. -/
structure Waiter where
  ticket : Nat
  live : Bool := true
deriving DecidableEq, Repr

structure Stream where
  /-- What has been read of the chunk in front, newest character first. -/
  passed : List Char := []
  /-- The older chunks that have not been read; of the chunk in front, what is left of it. -/
  front : List (List Char) := []
  /-- The chunks written after those, newest first. -/
  recent : List (List Char) := []
  closed : Bool := false
  /-- Whether a waiting read gives up when the run is cancelled. -/
  cancellable : Bool := false
  waiters : List Waiter := []
  /-- The tickets that have been woken and not looked at since. -/
  woken : List Nat := []
  /-- The number of tickets issued so far. -/
  issued : Nat := 0
deriving DecidableEq, Repr

namespace Stream

/-- The chunks written and not read yet, oldest first. -/
def chunks (s : Stream) : List (List Char) := s.front ++ s.recent.reverse

/-- The buffered text. -/
def text (s : Stream) : List Char := s.chunks.flatten

def isEmpty (s : Stream) : Bool := s.front.all List.isEmpty && s.recent.all List.isEmpty

/-- The number of bytes of the chunk in front that have been read. -/
def offset (s : Stream) : Nat := s.passed.foldl (fun n c => n + c.utf8Size) 0

/-! ## Waking readers -/

/-- The queue after one wake-up, and the ticket that it reached. -/
def callNext : List Waiter → List Waiter × Option Nat
  | [] => ([], none)
  | w :: ws => if w.live then (ws, some w.ticket) else callNext ws

def wakeNext (s : Stream) : Stream :=
  match callNext s.waiters with
  | (rest, some ticket) => { s with waiters := rest, woken := ticket :: s.woken }
  | (rest, none) => { s with waiters := rest }

def wakeAll (s : Stream) : Stream :=
  { s with
    waiters := []
    woken := (s.waiters.filter (·.live)).map (·.ticket) ++ s.woken }

/-- Hands the buffer on to the next waiting reader if anything is left in it. -/
def passOn (s : Stream) : Stream := if s.isEmpty then s else s.wakeNext

/-- The reader that holds `ticket` is gone. -/
def abandon (s : Stream) (ticket : Nat) : Stream :=
  { s with
    waiters := s.waiters.map fun w => if w.ticket = ticket then { w with live := false } else w
    woken := s.woken.filter (· ≠ ticket) }

/-! ## Writing and closing -/

/-- Adds a chunk behind the others. -/
def append (s : Stream) (chunk : List Char) : Stream :=
  if s.front.isEmpty then { s with front := s.recent.reverse ++ [chunk], recent := [] }
  else { s with recent := chunk :: s.recent }

/-- Appends a chunk and wakes the oldest waiting reader. Empty text leaves no trace. -/
def write (s : Stream) (text : String) : Except Fault Stream :=
  if s.closed then .error .closed
  else if text.toList.isEmpty then .ok s
  else .ok (s.append text.toList).wakeNext

def close (s : Stream) : Except Fault Stream :=
  if s.closed then .error .closed
  else .ok { s with closed := true }.wakeAll

/-- Writes, for a writer that does not care whether anybody reads on. -/
def put (s : Stream) (text : String) : Stream := (s.write text).toOption.getD s

/-- Closes, for one who does not care whether the stream was closed before. -/
def shut (s : Stream) : Stream := s.close.toOption.getD s

/-- A closed stream that holds `text`. -/
def ofText (text : String) : Stream := (({} : Stream).put text).shut

/-! ## Reading without waiting -/

/-- Everything buffered. -/
def drain (s : Stream) : String × Stream :=
  (String.ofList s.text, { s with passed := [], front := [], recent := [] })

/-- Everything buffered, which may be nothing; at the end of the stream a fault. -/
def readNow (s : Stream) : Except Fault (String × Stream) :=
  if s.isEmpty && s.closed then .error .endOfStream else .ok s.drain

/-- The next character. -/
def front? (s : Stream) : Option Char :=
  (s.front.findSome? List.head?).or (s.recent.reverse.findSome? List.head?)

/-- The same stream, with all its chunks in front if there was no text. -/
def settle (s : Stream) : Stream :=
  if s.front.all List.isEmpty then { s with front := s.chunks, recent := [] } else s

/-- Chunks with the next character moved to what has been read of the chunk in front. -/
def advanceIn (passed : List Char) : List (List Char) → List Char × List (List Char)
  | [] => ([], [])
  | [] :: rest => advanceIn [] rest
  | [_] :: rest => ([], rest)
  | (c :: cs) :: rest => (c :: passed, cs :: rest)

/-- Moves past the next character. -/
def advance (s : Stream) : Stream :=
  let s := s.settle
  let (passed, front) := advanceIn s.passed s.front
  { s with passed := passed, front := front }.settle

/-! ## Showing a stream -/

/-- The state of a stream in one line. -/
def describe (s : Stream) : String :=
  "Stream \x7b buffered: " ++ (s.front.length + s.recent.length).repr ++ ", closed: "
    ++ (if s.closed then "true" else "false") ++ ", waiters: " ++ s.waiters.length.repr ++ " \x7d"

/-! ## The buffered text -/

theorem isEmpty_iff (s : Stream) : s.isEmpty = true ↔ s.text = [] := by
  simp [isEmpty, text, chunks, List.flatten_eq_nil_iff]

@[simp] theorem text_wakeNext (s : Stream) : s.wakeNext.text = s.text := by
  unfold wakeNext; split <;> rfl

@[simp] theorem text_wakeAll (s : Stream) : s.wakeAll.text = s.text := rfl

@[simp] theorem text_passOn (s : Stream) : s.passOn.text = s.text := by
  unfold passOn; split <;> simp

@[simp] theorem text_abandon (s : Stream) (ticket : Nat) : (s.abandon ticket).text = s.text := rfl

@[simp] theorem chunks_append (s : Stream) (chunk : List Char) :
    (s.append chunk).chunks = s.chunks ++ [chunk] := by
  unfold append
  split <;> simp_all [chunks]

@[simp] theorem text_append (s : Stream) (chunk : List Char) :
    (s.append chunk).text = s.text ++ chunk := by
  simp [text]

theorem text_write {s t : Stream} {new : String} (h : s.write new = .ok t) :
    t.text = s.text ++ new.toList := by
  unfold write at h
  split at h
  · simp at h
  · split at h <;> simp only [Except.ok.injEq] at h <;> subst h
    · simp_all
    · simp

theorem text_close {s t : Stream} (h : s.close = .ok t) : t.text = s.text := by
  unfold close at h
  split at h <;> simp only [Except.ok.injEq, reduceCtorEq] at h
  subst h; rfl

@[simp] theorem text_drain (s : Stream) : s.drain.2.text = [] := rfl

theorem findSome?_head? (chunks : List (List Char)) :
    chunks.findSome? List.head? = chunks.flatten.head? := by
  induction chunks with
  | nil => rfl
  | cons c cs ih => cases c <;> simp [List.findSome?_cons, ih]

theorem front?_eq_head? (s : Stream) : s.front? = s.text.head? := by
  simp [front?, text, chunks, findSome?_head?]

@[simp] theorem chunks_settle (s : Stream) : s.settle.chunks = s.chunks := by
  unfold settle
  split <;> simp [chunks]

@[simp] theorem text_settle (s : Stream) : s.settle.text = s.text := by
  simp [text]

/-- A stream that is settled has its first character in front. -/
theorem front_settle (s : Stream) :
    s.settle.front.flatten ≠ [] ∨ s.settle.recent = [] := by
  unfold settle
  split
  · exact .inr rfl
  · rename_i h
    refine .inl fun hnil => h ?_
    simpa [List.flatten_eq_nil_iff] using hnil

theorem flatten_advanceIn (passed : List Char) (chunks : List (List Char)) :
    (advanceIn passed chunks).2.flatten = chunks.flatten.tail := by
  fun_induction advanceIn passed chunks <;> simp_all

@[simp] theorem text_advance (s : Stream) : s.advance.text = s.text.tail := by
  have ht : s.text = s.settle.front.flatten ++ s.settle.recent.reverse.flatten := by
    rw [← text_settle s]
    simp only [text, chunks, List.flatten_append]
  unfold advance
  rw [text_settle, ht]
  simp only [text, chunks, List.flatten_append, flatten_advanceIn]
  rcases front_settle s with h | h
  · rw [List.tail_append_of_ne_nil h]
  · simp [h]

end Stream

end PocketShell
