import PocketShell.Proofs.Streams.Roster

/-!
# Readers that are dropped before they are answered

A reader that waits and goes again should make no difference to anybody else. It makes one when it has
been woken: the wake-up goes with it, and whoever would have been woken in its place sleeps on.

* `Roster.Sends`, `Roster.sends_or_passes` : an operation sends one wake-up, or it does the same to a
  roster with and without a reader that it is not about;
* `Roster.step_remove`, `Roster.Diverts.poll` : so does one that sends a wake-up, unless the wake-up is
  diverted; then the next in the queue would have got text and does not;
* `Bench.Mirrors` : two benches that differ by one reader. `Mirrors.poll`, `Mirrors.step`,
  `Mirrors.drop` and `Mirrors.diverts` say what becomes of them.

`Bench.unnoticed_iff_undiverted` compares every run with the run without the reader.
-/

namespace PocketShell

namespace Roster

open Bench (Op Answer)

variable {v u : Roster} {op : Op} {r x : String} {want : Want} {answer : Answer}

/-! ## Rosters without a reader -/

theorem wants_remove (v : Roster) (h : x ≠ r) : (v.remove r).wants x = v.wants x := if_neg h

theorem called_remove (v : Roster) (h : x ≠ r) : (v.remove r).called x = v.called x := by
  simp [remove, h]

theorem remove_comm (v : Roster) (x y : String) : (v.remove x).remove y = (v.remove y).remove x := by
  refine Roster.ext rfl rfl ?_ (funext fun z => Bool.and_left_comm ..) (funext fun z => ?_)
  · simp [remove, List.filter_filter, Bool.and_comm]
  · simp only [remove]
    split <;> split <;> rfl

theorem remove_remove (v : Roster) (x : String) : (v.remove x).remove x = v.remove x := by
  refine Roster.ext rfl rfl ?_ (funext fun z => ?_) (funext fun z => ?_)
  · simp [remove]
  · simp [remove]
  · simp only [remove]
    split <;> rfl

theorem remove_enqueue_self (v : Roster) (x : String) (want : Want) :
    (v.enqueue x want).remove x = v.remove x := by
  refine Roster.ext rfl rfl (by simp [remove, enqueue]) rfl (funext fun z => ?_)
  simp only [remove, enqueue]
  split <;> rfl

theorem remove_enqueue (v : Roster) (h : x ≠ r) (want : Want) :
    (v.enqueue x want).remove r = (v.remove r).enqueue x want := by
  refine Roster.ext rfl rfl (by simp [remove, enqueue, h]) rfl (funext fun z => ?_)
  simp only [remove, enqueue]
  split <;> split <;> simp_all

theorem remove_callAll (v : Roster) (r : String) : v.callAll.remove r = (v.remove r).callAll := by
  refine Roster.ext rfl rfl rfl (funext fun z => ?_) rfl
  by_cases hz : z = r <;> simp [remove, callAll, hz]

/-- A wake-up that does not pass anybody over is the same without the reader. -/
theorem remove_call (h : ∀ rest, v.line = r :: rest → rest = []) :
    v.call.remove r = (v.remove r).call := by
  cases hline : v.line with
  | nil =>
    have hnil : (v.remove r).line = [] := by simp [remove, hline]
    rw [call_of_nil hline, call_of_nil hnil]
  | cons first rest =>
    rw [call_of_cons hline]
    by_cases hfirst : first = r
    · subst hfirst
      obtain rfl : rest = [] := h rest hline
      have hnil : (v.remove first).line = [] := by simp [remove, hline]
      rw [call_of_nil hnil]
      refine Roster.ext rfl rfl (by simp [remove, hline]) (funext fun z => ?_) rfl
      by_cases hz : z = first <;> simp [remove, hz]
    · have hcons : (v.remove r).line = first :: rest.filter (· ≠ r) := by simp [remove, hline, hfirst]
      rw [call_of_cons hcons]
      refine Roster.ext rfl rfl rfl (funext fun z => ?_) rfl
      by_cases hz : z = r
      · simp [remove, hz, Ne.symm hfirst]
      · simp [remove, hz]

/-! ## Operations that send a wake-up -/

/-- The operation sends a wake-up, with this answer, and this is the roster before that. -/
inductive Sends (v : Roster) : Op → Roster → Answer → Prop where
  | writes {text : String} (hopen : v.closed = false) (htext : text.toList ≠ []) :
    Sends v (.write text) { v with text := v.text ++ text.toList } .done
  | serves {op : Op} {x : String} {want : Want}
    (hop : op = .start x want ∨ op = .poll x ∧ v.wants x = some want ∧ v.called x = true)
    (hleft : want.left v.text ≠ []) :
    Sends v op ({ v with text := want.left v.text }.remove x) (.text (want.given v.text))

theorem Sends.step_eq (h : v.Sends op u answer) : v.step op = (u.call, answer) := by
  cases h with
  | writes hopen htext => simp [step, hopen, htext]
  | @serves _ x want hop hleft =>
    have htext : (v.remove x).text ≠ [] := by
      intro hnil
      rw [show v.text = [] from hnil] at hleft
      cases want <;> exact hleft rfl
    have hattempt : (v.remove x).attempt x want =
        (({ v with text := want.left v.text }.remove x).call, .text (want.given v.text)) :=
      (attempt_of_text htext).trans (Prod.ext (if_neg hleft) rfl)
    rcases hop with rfl | ⟨rfl, hwants, hcalled⟩
    · exact hattempt
    · exact (step_poll_of_called hwants hcalled).trans hattempt

theorem Sends.text_ne_nil (h : v.Sends op u answer) : u.text ≠ [] := by
  cases h with
  | writes hopen htext => simp [htext]
  | serves hop hleft => exact hleft

/-- The same operation without a reader that it is not about. -/
theorem Sends.remove (h : v.Sends op u answer) (hop : op.reader? ≠ some r) :
    (v.remove r).Sends op (u.remove r) answer := by
  cases h with
  | writes hopen htext => exact .writes hopen htext
  | @serves _ x want hx hleft =>
    have hne : x ≠ r := by
      rintro rfl
      rcases hx with rfl | ⟨rfl, -⟩ <;> exact hop rfl
    rw [remove_comm]
    refine .serves (hx.imp_right fun ⟨hpoll, hwants, hcalled⟩ => ⟨hpoll, ?_, ?_⟩) hleft
    · exact (v.wants_remove hne).trans hwants
    · exact (v.called_remove hne).trans hcalled

/-- Who leaves nothing sends no wake-up. -/
theorem attempt_of_left (x : String) (hleft : want.left v.text = []) :
    (v.attempt x want).1.called = v.called ∧
      ∀ r, x ≠ r → (v.remove r).attempt x want =
        ((v.attempt x want).1.remove r, (v.attempt x want).2) := by
  by_cases htext : v.text = []
  · cases hclosed : v.closed with
    | true =>
      rw [attempt_of_closed htext hclosed]
      exact ⟨rfl, fun r _ => attempt_of_closed (v := v.remove r) htext hclosed⟩
    | false =>
      rw [attempt_of_open htext hclosed]
      refine ⟨rfl, fun r hr => ?_⟩
      rw [remove_enqueue v hr]
      exact attempt_of_open (v := v.remove r) htext hclosed
  · have hpass (u : Roster) (hu : u.text = v.text) : u.attempt x want =
        ({ u with text := [] }, .text (want.given v.text)) := by
      rw [attempt_of_text (hu ▸ htext), hu, hleft]
      rfl
    rw [hpass v rfl]
    exact ⟨rfl, fun r _ => hpass (v.remove r) rfl⟩

/-- What an operation does that sends no wake-up: the same without a reader that it is not about. -/
def Passes (v : Roster) (op : Op) (r : String) : Prop :=
  (v.remove r).step op = ((v.step op).1.remove r, (v.step op).2) ∧
    ((v.step op).1.called r = true → v.called r = true ∨ (v.step op).1.line = [])

theorem passes_attempt (hx : x ≠ r) (hleft : want.left v.text = [])
    (hstep : v.step op = (v.remove x).attempt x want)
    (hstep' : (v.remove r).step op = ((v.remove r).remove x).attempt x want) : v.Passes op r := by
  obtain ⟨hcalled, hremove⟩ := attempt_of_left (v := v.remove x) x hleft
  rw [Passes, hstep', remove_comm, hstep, hremove r hx, hcalled]
  exact ⟨rfl, fun h => .inl (Bool.and_eq_true_iff.1 h).2⟩

theorem passes_rest (hstep : v.step op = (v, answer))
    (hstep' : (v.remove r).step op = (v.remove r, answer)) : v.Passes op r := by
  rw [Passes, hstep, hstep']
  exact ⟨rfl, .inl⟩

theorem sends_or_passes (v : Roster) (hop : op.reader? ≠ some r) :
    (∃ u answer, v.Sends op u answer) ∨ v.Passes op r := by
  cases op with
  | write text =>
    cases hclosed : v.closed with
    | true => exact .inr (passes_rest (if_pos hclosed) (if_pos hclosed))
    | false =>
      by_cases htext : text.toList = []
      · have hrest (u : Roster) (hu : u.closed = false) : u.step (.write text) = (u, .done) := by
          simp [step, hu, htext]
        exact .inr (passes_rest (hrest v hclosed) (hrest (v.remove r) hclosed))
      · exact .inl ⟨_, _, .writes hclosed htext⟩
  | close =>
    cases hclosed : v.closed with
    | true => exact .inr (passes_rest (if_pos hclosed) (if_pos hclosed))
    | false =>
      have hcloses (u : Roster) (hu : u.closed = false) :
          u.step .close = ({ u with closed := true }.callAll, .done) := by
        simp [step, hu]
      refine .inr ?_
      rw [Passes, hcloses v hclosed, hcloses (v.remove r) hclosed, remove_callAll]
      exact ⟨rfl, fun _ => .inr rfl⟩
  | isClosed => exact .inr ⟨rfl, .inl⟩
  | readNow =>
    by_cases hend : v.text = [] ∧ v.closed = true
    · exact .inr (passes_rest (if_pos hend) (if_pos hend))
    · have hreads (u : Roster) (hu : ¬(u.text = [] ∧ u.closed = true)) :
          u.step .readNow = ({ u with text := [] }, .text (String.ofList u.text)) := if_neg hu
      refine .inr ?_
      rw [Passes, hreads v hend, hreads (v.remove r) hend]
      exact ⟨rfl, .inl⟩
  | cancel => exact .inr ⟨rfl, .inl⟩
  | start x want =>
    have hx : x ≠ r := fun h => hop (congrArg some h)
    by_cases hleft : want.left v.text = []
    · exact .inr (passes_attempt hx hleft rfl rfl)
    · exact .inl ⟨_, _, .serves (.inl rfl) hleft⟩
  | poll x =>
    have hx : x ≠ r := fun h => hop (congrArg some h)
    have hwants' := v.wants_remove hx
    have hcalled' := v.called_remove hx
    cases hwants : v.wants x with
    | none =>
      rw [hwants] at hwants'
      exact .inr (passes_rest (step_poll_of_absent hwants) (step_poll_of_absent hwants'))
    | some want =>
      rw [hwants] at hwants'
      cases hcalled : v.called x with
      | false =>
        rw [hcalled] at hcalled'
        exact .inr (passes_rest (step_poll_of_asleep hwants hcalled)
          (step_poll_of_asleep hwants' hcalled'))
      | true =>
        rw [hcalled] at hcalled'
        by_cases hleft : want.left v.text = []
        · exact .inr (passes_attempt hx hleft (step_poll_of_called hwants hcalled)
            (step_poll_of_called hwants' hcalled'))
        · exact .inl ⟨_, _, .serves (.inr ⟨rfl, hwants, hcalled⟩) hleft⟩
  | drop x =>
    exact .inr ⟨Prod.ext (v.remove_comm r x) rfl, fun h => .inl (Bool.and_eq_true_iff.1 h).2⟩

/-! ## Wake-ups that are diverted -/

/-- Whoever is in the queue is in it once, has not been called, and wants something. -/
structure Sound (v : Roster) : Prop where
  nodup : v.line.Nodup
  asleep : ∀ x ∈ v.line, v.called x = false
  present : ∀ x ∈ v.line, v.wants x ≠ none

theorem Sound.remove (h : v.Sound) (x : String) : (v.remove x).Sound where
  nodup := h.nodup.filter _
  asleep y hy := by simp [Roster.remove, h.asleep y (List.mem_filter.1 hy).1]
  present y hy := by
    have hne : y ≠ x := of_decide_eq_true (List.mem_filter.1 hy).2
    rw [v.wants_remove hne]
    exact h.present y (List.mem_filter.1 hy).1

theorem Sends.sound (h : v.Sends op u answer) (hv : v.Sound) : u.Sound := by
  cases h with
  | writes => exact ⟨hv.nodup, hv.asleep, hv.present⟩
  | @serves _ x want =>
    have htext : ({ v with text := want.left v.text } : Roster).Sound :=
      ⟨hv.nodup, hv.asleep, hv.present⟩
    exact htext.remove x

/-- Nobody is queued or called who was not before. -/
theorem Sends.of_mem (h : v.Sends op u answer) :
    (∀ x ∈ u.line, x ∈ v.line) ∧ ∀ x, u.called x = true → v.called x = true := by
  cases h with
  | writes => exact ⟨fun x hx => hx, fun x hx => hx⟩
  | serves =>
    exact ⟨fun x hx => (List.mem_filter.1 hx).1, fun x hx => (Bool.and_eq_true_iff.1 hx).2⟩

/-- The wake-up goes to `r`, and `next` stays in the queue behind it. -/
def Diverts (v : Roster) (op : Op) (r next : String) : Prop :=
  ∃ u answer rest, v.Sends op u answer ∧ u.line = r :: next :: rest

theorem diverts_iff (hv : v.Sound) (hop : op.reader? ≠ some r) :
    (∃ next, v.Diverts op r next) ↔
      v.called r = false ∧ (v.step op).1.called r = true ∧ (v.step op).1.line ≠ [] := by
  constructor
  · rintro ⟨next, u, answer, rest, hsends, hline⟩
    have hr : r ∈ v.line := hsends.of_mem.1 r (by simp [hline])
    rw [hsends.step_eq, call_of_cons hline]
    exact ⟨hv.asleep r hr, by simp, by simp⟩
  · rintro ⟨hasleep, hcalled, hline⟩
    rcases v.sends_or_passes hop with ⟨u, answer, hsends⟩ | hpasses
    · rw [hsends.step_eq] at hcalled hline
      cases hu : u.line with
      | nil => exact absurd hu (call_of_nil hu ▸ hline)
      | cons first rest =>
        rw [call_of_cons hu] at hcalled hline
        have hfirst : r = first := by
          rcases Bool.or_eq_true_iff.1 hcalled with h | h
          · exact of_decide_eq_true h
          · rw [hsends.of_mem.2 r h] at hasleep
            cases hasleep
        obtain ⟨next, rest', rfl⟩ := List.exists_cons_of_ne_nil hline
        exact ⟨next, u, answer, rest', hsends, hfirst ▸ hu⟩
    · rcases hpasses.2 hcalled with h | h
      · rw [h] at hasleep
        cases hasleep
      · exact absurd h hline

/-- An operation that diverts no wake-up does the same without the reader. -/
theorem step_remove (hop : op.reader? ≠ some r) (h : ∀ next, ¬ v.Diverts op r next) :
    (v.remove r).step op = ((v.step op).1.remove r, (v.step op).2) := by
  rcases v.sends_or_passes hop with ⟨u, answer, hsends⟩ | hpasses
  · have hnext (rest : List String) (hline : u.line = r :: rest) : rest = [] := by
      cases rest with
      | nil => rfl
      | cons next rest => exact absurd ⟨u, answer, rest, hsends, hline⟩ (h next)
    rw [(hsends.remove hop).step_eq, hsends.step_eq, remove_call hnext]
  · exact hpasses.1

/-- Behind a diverted wake-up somebody is left to sleep beside text. Without the reader that it went
to it would have reached them. -/
theorem Diverts.poll {next : String} (h : v.Diverts op r next) (hv : v.Sound)
    (hop : op.reader? ≠ some r) :
    (((v.step op).1.remove r).step (.poll next)).2 = .pending ∧
      ∃ value, (((v.remove r).step op).1.step (.poll next)).2 = .text value := by
  obtain ⟨u, answer, rest, hsends, hline⟩ := h
  have hu := hsends.sound hv
  have hmem : next ∈ u.line := by simp [hline]
  have hne : next ≠ r := by
    rintro rfl
    have hnodup := hu.nodup
    simp [hline] at hnodup
  obtain ⟨want, hwant⟩ := Option.ne_none_iff_exists'.1 (hu.present next hmem)
  have hfirst : (u.remove r).line = next :: rest.filter (· ≠ r) := by simp [remove, hline, hne]
  have hsleeps (w : Roster) (hw : w.wants next = some want) (hcalled : w.called next = false) :
      (w.step (.poll next)).2 = .pending := by
    rw [step_poll_of_asleep hw hcalled]
  have hgets (w : Roster) (hw : w.wants next = some want) (hcalled : w.called next = true)
      (htext : w.text ≠ []) : (w.step (.poll next)).2 = .text (want.given w.text) := by
    have hserved : (w.remove next).text ≠ [] := htext
    rw [step_poll_of_called hw hcalled, attempt_of_text hserved]
    rfl
  constructor
  · rw [hsends.step_eq, call_of_cons hline]
    refine hsleeps _ ((wants_remove _ hne).trans hwant) ((called_remove _ hne).trans ?_)
    simp [hne, hu.asleep next hmem]
  · rw [(hsends.remove hop).step_eq, call_of_cons hfirst]
    exact ⟨_, hgets _ ((u.wants_remove hne).trans hwant) (by simp) hsends.text_ne_nil⟩

/-- Who waits leaves no trace but itself. -/
theorem remove_of_pending (h : (v.attempt r want).2 = .pending) :
    (v.attempt r want).1.remove r = v.remove r := by
  by_cases htext : v.text = []
  · cases hclosed : v.closed with
    | true =>
      rw [attempt_of_closed htext hclosed] at h
      cases h
    | false =>
      rw [attempt_of_open htext hclosed]
      exact v.remove_enqueue_self r want
  · rw [attempt_of_text htext] at h
    cases h

theorem remove_step_poll (h : (v.step (.poll r)).2 = .pending) :
    (v.step (.poll r)).1.remove r = v.remove r := by
  cases hwants : v.wants r with
  | none => rw [step_poll_of_absent hwants]
  | some want =>
    cases hcalled : v.called r with
    | false => rw [step_poll_of_asleep hwants hcalled]
    | true =>
      rw [step_poll_of_called hwants hcalled] at h ⊢
      rw [remove_of_pending h, remove_remove]

end Roster

namespace Bench

variable {b c : Bench} {v : Roster} {op : Op} {r x : String} {want : Want} {ops : List Op}

/-! ## Benches and rosters -/

theorem Shows.sound (h : b.Shows v) (hb : b.Agrees) : v.Sound := by
  have hmem {x : String} (hx : x ∈ v.line) := (h.stream.queue.mem_line_iff hb.distinct).1 hx
  refine ⟨?_, fun x hx => ?_, fun x hx hnone => ?_⟩
  · have hmap : (v.line.map b.ticket?).Nodup := by
      rw [h.stream.queue.line]
      refine List.Pairwise.map _ (fun w w' hlt heq => ?_) hb.order.sorted
      exact Nat.ne_of_lt hlt (Option.some.inj heq)
    exact List.Pairwise.of_map b.ticket?
      (fun x y (hne : b.ticket? x ≠ b.ticket? y) heq => hne (congrArg _ heq)) hmap
  · obtain ⟨n, hn, hlive⟩ := hmem hx
    rw [Bool.eq_false_iff]
    intro hcalled
    obtain ⟨m, hm, hwoken⟩ := (h.stream.queue.called x).1 hcalled
    obtain rfl : m = n := Option.some.inj (hm.symm.trans hn)
    exact hb.order.apart m hwoken hlive
  · obtain ⟨n, hn, -⟩ := hmem hx
    rw [h.wants, Option.map_eq_none_iff] at hnone
    simp [ticket?, hnone] at hn

/-- Nobody misses a reader who is not there. -/
theorem Shows.remove_eq (h : b.Shows v) (hb : b.Agrees) (habsent : b.reader? r = none) :
    v.remove r = v := by
  have hticket : b.ticket? r = none := by rw [ticket?, habsent]; rfl
  have hline : r ∉ v.line := by
    intro hr
    obtain ⟨n, hn, -⟩ := (h.stream.queue.mem_line_iff hb.distinct).1 hr
    rw [hticket] at hn
    cases hn
  have hcalled : v.called r = false := by
    rw [Bool.eq_false_iff, ne_eq, h.stream.queue.called]
    simp [hticket]
  have hwants : v.wants r = none := by rw [h.wants, habsent]; rfl
  refine Roster.ext rfl rfl ?_ (funext fun x => ?_) (funext fun x => ?_)
  · rw [Roster.remove, List.filter_eq_self]
    intro x hx
    rw [decide_eq_true_eq]
    rintro rfl
    exact hline hx
  · by_cases hx : x = r
    · simp [Roster.remove, hx, hcalled]
    · exact v.called_remove hx
  · by_cases hx : x = r
    · simp [Roster.remove, hx, hwants]
    · exact v.wants_remove hx

/-- Rosters of benches at which nobody has come yet. -/
theorem Fresh.shows (h : b.Fresh) : ∃ v, b.Shows v := by
  refine ⟨⟨b.stream.text, b.stream.closed, [], fun _ => false, fun _ => none⟩, ⟨rfl, rfl, ?_⟩, ?_, ?_⟩
  · constructor
    · rw [Stream.live, h.waiters]
      rfl
    · simp [h.woken]
  · simp [reader?, h.readers]
  · simp [reader?, h.readers]

theorem Calm.step (h : b.Calm) (hop : op ≠ .cancel) : (b.step op).1.Calm := by
  obtain ⟨hminds, hfired⟩ := (b.turn_step op).cancellation_cases
  rw [Calm, hminds, hfired.resolve_right hop]
  exact h

/-- The operation wakes the reader while somebody else stays in the queue. -/
def Diverts (b : Bench) (op : Op) (r : String) : Prop :=
  b.Hails op r ∧ (b.step op).1.stream.live ≠ []

/-- Who is sent a wake-up is not who is polled. -/
theorem Hails.reader?_ne (h : b.Hails op r) (hb : b.Agrees) : op.reader? ≠ some r := by
  obtain ⟨n, hn, -, hwoken⟩ := h
  have hturn := b.turn_step op
  obtain ⟨name, hname⟩ := ((hturn.agrees hb).expects n).1 (.inr hwoken)
  have hcalled : (b.step op).1.Called name := ⟨n, hname, by simp [Stream.calls, hwoken]⟩
  have hother : op.reader? ≠ some name := fun hop => hturn.not_called hb hop hcalled
  rw [hturn.ticket_eq hother] at hname
  exact hb.distinct name r n hname hn ▸ hother

theorem Shows.diverts_iff (h : b.Shows v) (hb : b.Agrees) (hcalm : b.Calm)
    (hop : op.reader? ≠ some r) : b.Diverts op r ↔ ∃ next, v.Diverts op r next := by
  obtain ⟨hnext, -⟩ := h.step hb hcalm op
  have hline : (v.step op).1.line = [] ↔ (b.step op).1.stream.live = [] := by
    rw [← List.map_eq_nil_iff, hnext.stream.queue.line, List.map_eq_nil_iff]
  rw [Roster.diverts_iff (h.sound hb) hop, Bool.eq_false_iff, ne_eq, h.stream.queue.called,
    hnext.stream.queue.called, (b.turn_step op).ticket_eq hop, ne_eq, hline]
  constructor
  · rintro ⟨⟨n, hn, hasleep, hwoken⟩, hlive⟩
    refine ⟨fun ⟨m, hm, hmem⟩ => hasleep ?_, ⟨n, hn, hwoken⟩, hlive⟩
    exact Option.some.inj (hm.symm.trans hn) ▸ hmem
  · rintro ⟨hasleep, ⟨n, hn, hwoken⟩, hlive⟩
    exact ⟨⟨n, hn, fun hmem => hasleep ⟨n, hn, hmem⟩, hwoken⟩, hlive⟩

/-! ## One bench beside another without the reader -/

/-- The second bench is the first without the reader, whatever the tickets are. -/
def Mirrors (r : String) (b c : Bench) : Prop := ∃ v, b.Shows v ∧ c.Shows (v.remove r)

/-- A reader that comes and waits changes nothing for the others. -/
theorem mirrors_start (h : b.Shows v) (hb : b.Agrees) (hcalm : b.Calm)
    (habsent : b.reader? r = none) (hpending : (b.step (.start r want)).2 = .pending) :
    Mirrors r (b.step (.start r want)).1 b := by
  obtain ⟨hnext, hanswer⟩ := h.step hb hcalm (.start r want)
  refine ⟨_, hnext, ?_⟩
  have hsame : (v.step (.start r want)).1.remove r = v := by
    have hpending' : ((v.remove r).attempt r want).2 = .pending := hanswer ▸ hpending
    rw [Roster.step, Roster.remove_of_pending hpending', Roster.remove_remove,
      h.remove_eq hb habsent]
  rw [hsame]
  exact h

namespace Mirrors

/-- And so does a poll after which it waits on. -/
theorem poll (h : Mirrors r b c) (hb : b.Agrees) (hcalm : b.Calm)
    (hpending : (b.step (.poll r)).2 = .pending) : Mirrors r (b.step (.poll r)).1 c := by
  obtain ⟨v, hv, hc⟩ := h
  obtain ⟨hnext, hanswer⟩ := hv.step hb hcalm (.poll r)
  refine ⟨_, hnext, ?_⟩
  rw [Roster.remove_step_poll (hanswer ▸ hpending)]
  exact hc

/-- What is not about the reader is the same on both, if it diverts no wake-up. -/
theorem step (h : Mirrors r b c) (hb : b.Agrees) (hb' : c.Agrees) (hcalm : b.Calm)
    (hcalm' : c.Calm) (hop : op.reader? ≠ some r) (hkeeps : ¬ b.Diverts op r) :
    Mirrors r (b.step op).1 (c.step op).1 ∧ (b.step op).2 = (c.step op).2 := by
  obtain ⟨v, hv, hc⟩ := h
  obtain ⟨hnext, hanswer⟩ := hv.step hb hcalm op
  obtain ⟨hnext', hanswer'⟩ := hc.step hb' hcalm' op
  rw [hv.diverts_iff hb hcalm hop, not_exists] at hkeeps
  rw [Roster.step_remove hop hkeeps] at hnext' hanswer'
  exact ⟨⟨_, hnext, hnext'⟩, hanswer.trans hanswer'.symm⟩

/-- When the reader is dropped, nothing tells the two apart. -/
theorem drop (h : Mirrors r b c) (hb : b.Agrees) :
    ∃ v, (b.step (.drop r)).1.Shows v ∧ c.Shows v := by
  obtain ⟨v, hv, hc⟩ := h
  exact ⟨_, hv.drop hb r, hc⟩

/-- If a wake-up is diverted to a reader and the reader is dropped, somebody waits on beside text who
would have been given it. -/
theorem diverts (h : Mirrors r b c) (hb : b.Agrees) (hb' : c.Agrees) (hcalm : b.Calm)
    (hcalm' : c.Calm) (hdiverts : b.Diverts op r) :
    ∃ next value, (((b.step op).1.step (.drop r)).1.step (.poll next)).2 = .pending ∧
      ((c.step op).1.step (.poll next)).2 = .text value := by
  have hop := hdiverts.1.reader?_ne hb
  obtain ⟨v, hv, hc⟩ := h
  obtain ⟨hnext, -⟩ := hv.step hb hcalm op
  obtain ⟨hnext', -⟩ := hc.step hb' hcalm' op
  obtain ⟨next, hv'⟩ := (hv.diverts_iff hb hcalm hop).1 hdiverts
  obtain ⟨hpending, value, hvalue⟩ := hv'.poll (hv.sound hb) hop
  have hagrees := (b.turn_step op).agrees hb
  have hcancel : op ≠ .cancel := by
    rintro rfl
    obtain ⟨n, -, hasleep, hwoken⟩ := hdiverts.1
    exact hasleep hwoken
  refine ⟨next, value, ?_, ?_⟩
  · have hdropped : ((b.step op).1.step (.drop r)).1.Shows _ := hnext.drop hagrees r
    rw [← hpending]
    exact (hdropped.step (((b.step op).1.turn_step (.drop r)).agrees hagrees)
      ((hcalm.step hcancel).step (by simp)) (.poll next)).2
  · rw [← hvalue]
    exact (hnext'.step ((c.turn_step op).agrees hb') (hcalm'.step hcancel) (.poll next)).2

end Mirrors

/-! ## Runs with the reader and without it -/

/-- The answers of a run to what is not about the reader. -/
def others (b : Bench) (r : String) (ops : List Op) : List Answer :=
  ((b.run ops).2.filter (·.op.reader? ≠ some r)).map (·.answer)

/-- No wake-up is diverted to the reader in a run. -/
def Undiverted (b : Bench) (r : String) : List Op → Prop
  | [] => True
  | op :: ops => ¬ b.Diverts op r ∧ (b.step op).1.Undiverted r ops

instance (b : Bench) (op : Op) (r : String) : Decidable (b.Diverts op r) := by
  unfold Diverts Hails
  infer_instance

instance decidableUndiverted (r : String) :
    ∀ (b : Bench) (ops : List Op), Decidable (b.Undiverted r ops)
  | _, [] => .isTrue trivial
  | b, op :: ops =>
    have := decidableUndiverted r (b.step op).1 ops
    inferInstanceAs (Decidable (¬ b.Diverts op r ∧ (b.step op).1.Undiverted r ops))

/-- The reader comes and is dropped after a run in which it is not answered. Whatever follows, all
other answers are what they are without it. -/
def Unnoticed (b : Bench) (r : String) (want : Want) (ops : List Op) : Prop :=
  ∀ more, b.Quiet (ops ++ more) →
    b.others r (.start r want :: ops ++ [.drop r]) ++
        (b.after (.start r want :: ops ++ [.drop r])).answers more =
      b.answers (ops.filter (·.reader? ≠ some r) ++ more)

/-- The reader is only polled in a run, and is not answered. -/
structure Waits (b : Bench) (r : String) (ops : List Op) : Prop where
  polled : ∀ op ∈ ops, op.reader? = some r → op = .poll r
  pending : ∀ e ∈ (b.run ops).2, e.op.reader? = some r → e.answer = .pending

theorem Waits.head (h : b.Waits r (op :: ops)) (hop : op.reader? = some r) :
    op = .poll r ∧ (b.step op).2 = .pending :=
  ⟨h.polled op List.mem_cons_self hop, h.pending (b.entry op) List.mem_cons_self hop⟩

theorem Waits.tail (h : b.Waits r (op :: ops)) : (b.step op).1.Waits r ops :=
  ⟨fun op' hop' => h.polled op' (List.mem_cons_of_mem _ hop'),
    fun e he => h.pending e (List.mem_cons_of_mem _ he)⟩

theorem others_cons_self (b : Bench) (hop : op.reader? = some r) (ops : List Op) :
    b.others r (op :: ops) = (b.step op).1.others r ops := by
  simp [others, run, entry, hop]

theorem others_cons (b : Bench) (hop : op.reader? ≠ some r) (ops : List Op) :
    b.others r (op :: ops) = (b.step op).2 :: (b.step op).1.others r ops := by
  simp [others, run, entry, hop]

theorem Mirrors.run (h : Mirrors r b c) (hb : b.Agrees) (hb' : c.Agrees) (hquiet : b.Quiet ops)
    (hquiet' : c.Quiet (ops.filter (·.reader? ≠ some r))) (hwaits : b.Waits r ops)
    (hkeeps : b.Undiverted r ops) :
    Mirrors r (b.after ops) (c.after (ops.filter (·.reader? ≠ some r))) ∧
      b.others r ops = c.answers (ops.filter (·.reader? ≠ some r)) := by
  induction ops generalizing b c with
  | nil => exact ⟨h, rfl⟩
  | cons op ops ih =>
    have hagrees := (b.turn_step op).agrees hb
    by_cases hop : op.reader? = some r
    · obtain ⟨rfl, hpending⟩ := hwaits.head hop
      rw [List.filter_cons_of_neg (by simp [hop])] at hquiet' ⊢
      rw [others_cons_self b hop]
      exact ih (h.poll hb hquiet.calm hpending) hagrees hb' hquiet.tail hquiet' hwaits.tail
        hkeeps.2
    · rw [List.filter_cons_of_pos (by simp [hop])] at hquiet' ⊢
      obtain ⟨hnext, hanswer⟩ := h.step hb hb' hquiet.calm hquiet'.calm hop hkeeps.1
      obtain ⟨hafter, hothers⟩ := ih hnext hagrees ((c.turn_step op).agrees hb') hquiet.tail
        hquiet'.tail hwaits.tail hkeeps.2
      refine ⟨hafter, ?_⟩
      rw [others_cons b hop, hothers, hanswer]
      rfl

theorem others_append (b : Bench) (ops more : List Op) :
    b.others r (ops ++ more) = b.others r ops ++ (b.after ops).others r more := by
  rw [others, run_append, List.filter_append, List.map_append]
  rfl

theorem Undiverted.concat (h : b.Undiverted r ops) (hop : ¬ (b.after ops).Diverts op r) :
    b.Undiverted r (ops ++ [op]) := by
  induction ops generalizing b with
  | nil => exact ⟨hop, trivial⟩
  | cons first rest ih => exact ⟨h.1, ih h.2 hop⟩

theorem Undiverted.of_append {more : List Op} (h : b.Undiverted r (ops ++ more)) :
    b.Undiverted r ops := by
  induction ops generalizing b with
  | nil => trivial
  | cons op ops ih => exact ⟨h.1, ih h.2⟩

theorem Waits.of_append {more : List Op} (h : b.Waits r (ops ++ more)) : b.Waits r ops :=
  ⟨fun op hop => h.polled op (List.mem_append_left _ hop),
    fun e he => h.pending e (by rw [run_append]; exact List.mem_append_left _ he)⟩

section dropping

variable (h : b.Shows v) (hb : b.Agrees) (habsent : b.reader? r = none)
  (hpending : (b.step (.start r want)).2 = .pending)
  (hwaits : (b.step (.start r want)).1.Waits r ops)
  (hkeeps : (b.step (.start r want)).1.Undiverted r ops)

include h hb habsent hpending hwaits hkeeps

/-- While no wake-up is diverted to the reader, it makes no difference. -/
theorem mirrors_run (hquiet : b.Quiet ops) :
    Mirrors r ((b.step (.start r want)).1.after ops)
        (b.after (ops.filter (·.reader? ≠ some r))) ∧
      (b.step (.start r want)).1.others r ops = b.answers (ops.filter (·.reader? ≠ some r)) := by
  have hstarted : b.Quiet (.start r want :: ops) := hquiet.of_imp (by simp)
  have hfiltered : b.Quiet (ops.filter (·.reader? ≠ some r)) :=
    hquiet.of_imp fun hmem => (List.mem_filter.1 hmem).1
  exact (mirrors_start h hb hquiet.calm habsent hpending).run
    ((b.turn_step (.start r want)).agrees hb) hb hstarted.tail hfiltered hwaits hkeeps

theorem unnoticed_of_undiverted : b.Unnoticed r want ops := by
  intro more hquiet
  obtain ⟨hmirrors, hothers⟩ := mirrors_run h hb habsent hpending hwaits hkeeps
    (hquiet.of_imp (List.mem_append_left more))
  have hagrees : ((b.step (.start r want)).1.after ops).Agrees :=
    ((b.turn_step (.start r want)).agrees hb).after ops
  obtain ⟨u, hu, hu'⟩ := hmirrors.drop hagrees
  have hwith : b.Quiet (.start r want :: ops ++ [.drop r] ++ more) := hquiet.of_imp (by simp)
  have hwithout : b.Quiet (ops.filter (·.reader? ≠ some r) ++ more) := by
    refine hquiet.of_imp fun hmem => ?_
    rw [List.mem_append] at hmem ⊢
    exact hmem.imp_left fun hfilter => (List.mem_filter.1 hfilter).1
  have hdropped : b.after (.start r want :: ops ++ [.drop r]) =
      (((b.step (.start r want)).1.after ops).step (.drop r)).1 := after_append ..
  have hown : b.others r (.start r want :: ops ++ [.drop r]) =
      (b.step (.start r want)).1.others r ops := by
    rw [others_append, others_cons_self b rfl, others_cons_self _ rfl]
    exact List.append_nil _
  have hsame := (hu.run ((turn_step _ _).agrees hagrees) (hdropped ▸ hwith.after)).2
  have hsame' := (hu'.run (hb.after _) hwithout.after).2
  rw [hown, hothers, hdropped, hsame, ← hsame', answers_append]

theorem not_diverts_of_unnoticed (hquiet : b.Quiet (ops ++ [op]))
    (hnotice : b.Unnoticed r want (ops ++ [op])) :
    ¬ ((b.step (.start r want)).1.after ops).Diverts op r := by
  intro hdiverts
  have hstarted : b.Quiet (.start r want :: ops ++ [op]) := hquiet.of_imp (by simp)
  obtain ⟨hmirrors, -⟩ := mirrors_run h hb habsent hpending hwaits hkeeps
    (hquiet.of_imp (List.mem_append_left [op]))
  have hagrees : ((b.step (.start r want)).1.after ops).Agrees :=
    ((b.turn_step (.start r want)).agrees hb).after ops
  have hfiltered : b.Quiet (ops.filter (·.reader? ≠ some r) ++ []) := by
    refine hquiet.of_imp fun hmem => ?_
    rw [List.append_nil] at hmem
    exact List.mem_append_left _ (List.mem_filter.1 hmem).1
  obtain ⟨next, value, hsleeps, hgets⟩ := hmirrors.diverts hagrees (hb.after _)
    hstarted.after.calm hfiltered.after.calm hdiverts
  have hpoll := hnotice [.poll next] (hquiet.of_imp (by simp))
  have hop : op.reader? ≠ some r := hdiverts.1.reader?_ne hagrees
  have hwith : b.after (.start r want :: (ops ++ [op]) ++ [.drop r]) =
      ((((b.step (.start r want)).1.after ops).step op).1.step (.drop r)).1 := by
    rw [after_concat]
    exact congrArg (fun d => (step d (.drop r)).1) (after_concat ..)
  have hwithout : b.after ((ops ++ [op]).filter (·.reader? ≠ some r)) =
      ((b.after (ops.filter (·.reader? ≠ some r))).step op).1 := by
    rw [List.filter_append, List.filter_cons_of_pos (by simp [hop]), List.filter_nil, after_concat]
  rw [answers_append, hwith, hwithout] at hpoll
  have hlast := (List.append_inj' hpoll rfl).2
  have hanswer (d : Bench) : d.answers [.poll next] = [(d.step (.poll next)).2] := rfl
  rw [hanswer, hanswer, hsleeps, hgets] at hlast
  cases hlast

end dropping

/-- A reader comes, is polled or not, and is not answered. It can be dropped at any moment of this run
without anybody noticing if and only if no wake-up is diverted to it. -/
theorem unnoticed_iff_undiverted (b : Bench) (before ops : List Op) (r : String) (want : Want)
    (hfresh : b.Fresh) (hquiet : b.Quiet (before ++ ops))
    (habsent : (b.after before).reader? r = none)
    (hpending : ((b.after before).step (.start r want)).2 = .pending)
    (hwaits : ((b.after before).step (.start r want)).1.Waits r ops) :
    (∀ gone, gone <+: ops → (b.after before).Unnoticed r want gone) ↔
      ((b.after before).step (.start r want)).1.Undiverted r ops := by
  have hb := hfresh.agrees.after before
  obtain ⟨v, hv⟩ := hfresh.shows
  have hbefore : b.Quiet before := hquiet.of_imp (List.mem_append_left ops)
  have hshows := (hv.run hfresh.agrees hbefore).1
  constructor
  · intro hnotice
    -- the first diversion would be noticed
    have hgone (gone : List Op) (hgone : gone <+: ops) :
        ((b.after before).step (.start r want)).1.Undiverted r gone := by
      induction gone using List.reverseRecOn with
      | nil => trivial
      | append_singleton gone op ih =>
        have hkeeps := ih ((List.prefix_append gone [op]).trans hgone)
        obtain ⟨left, rfl⟩ := hgone
        rw [List.append_assoc] at hwaits
        have hcut : (b.after before).Quiet (gone ++ [op]) :=
          hquiet.after.of_imp (List.mem_append_left left)
        exact hkeeps.concat (not_diverts_of_unnoticed hshows hb habsent hpending
          hwaits.of_append hkeeps hcut (hnotice _ (List.prefix_append _ _)))
    exact hgone ops List.prefix_rfl
  · rintro hkeeps gone ⟨left, rfl⟩
    exact unnoticed_of_undiverted hshows hb habsent hpending hwaits.of_append hkeeps.of_append

/-- Text that somebody in front is woken for and somebody else takes, while the reader `r` waits. -/
def bypassedOps : List Op := [.start "b" .char, .write "xy", .readNow, .poll "r", .poll "a"]

theorem unnoticed_bypassed :
    others (after {} [.start "a" .char]) "r" (.start "r" .chunk :: bypassedOps ++ [.drop "r"]) ++
        (after (after {} [.start "a" .char])
          (.start "r" .chunk :: bypassedOps ++ [.drop "r"])).answers [.write "z", .poll "b"] =
      answers (after {} [.start "a" .char])
        (bypassedOps.filter (·.reader? ≠ some "r") ++ [.write "z", .poll "b"]) :=
  (unnoticed_iff_undiverted {} [.start "a" .char] bypassedOps "r" .chunk ⟨rfl, rfl, rfl⟩ (.inl rfl)
    (by decide) (by decide) ⟨by decide, by decide⟩).2 (by decide) bypassedOps List.prefix_rfl
    [.write "z", .poll "b"] (.inl rfl)

/-- A reader is dropped that was woken, and the next in the queue sleeps beside the text. -/
theorem dropped_while_woken : ¬∀ (b : Bench) (before ops : List Op) (r : String) (want : Want),
    b.Fresh → b.Quiet (before ++ ops) → (b.after before).reader? r = none →
      ((b.after before).step (.start r want)).2 = .pending →
      ((b.after before).step (.start r want)).1.Waits r ops →
        (b.after before).Unnoticed r want ops := by
  intro hall
  have hnotice := hall {} [] [.start "b" .chunk, .write "x"] "a" .chunk ⟨rfl, rfl, rfl⟩ (.inl rfl)
    rfl rfl ⟨by decide, by decide⟩ [.poll "b"] (.inl rfl)
  exact absurd hnotice (by decide)

end Bench

end PocketShell
