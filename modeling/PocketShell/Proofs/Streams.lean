import PocketShell.Stream.Reader

/-!
# Streams that are closed, and streams that are open

No read waits on a closed stream (`Stream.poll_of_closed`), and an open one takes every text
(`Stream.write_of_open`). Reading leaves a stream closed or open as it was.
-/

namespace PocketShell

namespace Stream

variable {α : Type}

@[simp] theorem closed_wakeNext (s : Stream) : s.wakeNext.closed = s.closed := by
  unfold wakeNext
  split <;> rfl

@[simp] theorem closed_passOn (s : Stream) : s.passOn.closed = s.closed := by
  unfold passOn
  split <;> simp

@[simp] theorem closed_append (s : Stream) (chunk : List Char) :
    (s.append chunk).closed = s.closed := by
  unfold append
  split <;> rfl

@[simp] theorem closed_settle (s : Stream) : s.settle.closed = s.closed := by
  unfold settle
  split <;> rfl

@[simp] theorem closed_advance (s : Stream) : s.advance.closed = s.closed := by
  unfold advance
  simp

@[simp] theorem closed_shut (s : Stream) : s.shut.closed = true := by
  unfold shut close
  by_cases h : s.closed <;> simp [h, wakeAll, Except.toOption]

@[simp] theorem text_shut (s : Stream) : s.shut.text = s.text := by
  unfold shut close
  by_cases h : s.closed <;> simp [h, Except.toOption, wakeAll, text, chunks]

/-- An open stream takes any text. -/
theorem write_of_open {s : Stream} (h : s.closed = false) (new : String) :
    ∃ t, s.write new = .ok t ∧ t.closed = false ∧ t.text = s.text ++ new.toList := by
  by_cases hnew : new.toList = []
  · refine ⟨s, ?_, h, ?_⟩
    · simp [write, h, hnew]
    · simp [hnew]
  · refine ⟨(s.append new.toList).wakeNext, ?_, ?_, ?_⟩
    · simp [write, h, hnew]
    · simpa using h
    · simp

/-- A read from a closed stream gets what is there, or the end. -/
theorem poll_of_closed (serve : Stream → Option (α × Stream)) {s : Stream} (h : s.closed = true)
    (c : Cancellation) :
    s.poll serve c none =
      match serve s with
      | some (answer, t) => (t, c, .ready (.ok answer))
      | none => (s, c, .ready (.error .endOfStream)) := by
  unfold poll attempt await
  cases serve s with
  | some p => rfl
  | none => simp [h]

theorem await_of_closed {s : Stream} (h : s.closed = true) (fired : Bool) :
    s.await fired = (s, .error .endOfStream) := by
  simp [await, h]

end Stream

end PocketShell
