import PocketShell.Proofs.Run.Cancelling

/-!
# What a command does before it starts

A command looks up its variables and runs its substitutions, one after the other, and then starts its
words.

* `Job.expands` : the next thing to be done is of this kind;
* `Session.Expands` : a run of a job as far as it does nothing else. What was written in substitutions
  is listed in order;
* `Session.exists_expands` : every session that comes to its end begins with such a run.
-/

namespace PocketShell

/-- Whether the next thing a job does is to look up a variable, or to run something in a frame. -/
def Job.expands : Job → Bool
  | lookup .. => true
  | within .. => true
  | _ => false

namespace Session

variable {host : Host}

/-- A run of a job `p` in which variables are looked up and what stands in frames is run to its end,
in as many polls as that takes. It comes to `q`; what was written to the frames is `texts`. -/
inductive Expands (host : Host) : Job → Scene → List String → Job → Scene → Prop where
  | here (p : Job) (sc : Scene) : Expands host p sc [] p sc
  | lookup {name : String} {k : String → Job} {q : Job} {sc sc' : Scene} {texts : List String}
    (rest : Expands host (k (host.env name)) (sc.record (.env name)) texts q sc') :
    Expands host (.lookup name k) sc texts q sc'
  | finished {frame left : Frame} {inner q : Job} {k : Frame → Int → Job}
    {sc after sc₁ sc' : Scene} {status : Int} {texts : List String}
    (hpoll : inner.poll host (frame.enter sc) = (after, .finished status))
    (hleave : frame.leave sc after = (left, sc₁))
    (rest : Expands host (k left status) sc₁ texts q sc') :
    Expands host (.within frame inner k) sc (left.text :: texts) q sc'
  | again {frame left : Frame} {inner inner' q : Job} {k : Frame → Int → Job}
    {sc after sc₁ sc₂ sc' : Scene} {texts : List String}
    (hpoll : inner.poll host (frame.enter sc) = (after, .waiting inner') ∨
      inner.poll host (frame.enter sc) = (after, .interrupted inner'))
    (hleave : frame.leave sc after = (left, sc₁)) (hinterlude : sc₁.Interlude sc₂)
    (rest : Expands host (.within left inner' k) sc₂ texts q sc') :
    Expands host (.within frame inner k) sc texts q sc'

namespace Expands

variable {p q : Job} {sc sc' : Scene} {texts : List String}

/-- What does something else has been come to. -/
theorem eq_of_not_expands (h : Expands host p sc texts q sc') (hp : p.expands = false) :
    q = p ∧ texts = [] := by
  cases h with
  | here => exact ⟨rfl, rfl⟩
  | lookup | finished | again => cases hp

theorem of_lookup {name : String} {k : String → Job}
    (h : Expands host (.lookup name k) sc texts q sc') (hq : q.expands = false) :
    Expands host (k (host.env name)) (sc.record (.env name)) texts q sc' := by
  cases h with
  | here => cases hq
  | lookup rest => exact rest

/-- However often it was polled, what stands in a frame came to its end. -/
theorem of_within {frame : Frame} {inner : Job} {k : Frame → Int → Job}
    (h : Expands host (.within frame inner k) sc texts q sc') (hq : q.expands = false) :
    ∃ left status sc₁ rest, texts = left.text :: rest ∧
      Expands host (k left status) sc₁ rest q sc' := by
  generalize hp : Job.within frame inner k = p at h
  induction h generalizing frame inner with
  | here =>
    subst hp
    cases hq
  | lookup => cases hp
  | finished hpoll hleave rest ih =>
    cases hp
    exact ⟨_, _, _, _, rfl, rest⟩
  | again hpoll hleave hinterlude rest ih =>
    cases hp
    exact ih hq rfl

end Expands

/-! ## Sessions -/

/-- One poll comes to something else, or it ends inside a frame: then a run of what is left is a run
of the whole, whatever happens in between. -/
theorem expands_poll (host : Host) (p : Job) (sc : Scene) :
    (∃ texts q sc', Expands host p sc texts q sc' ∧ q.expands = false) ∨
      ∃ p' sc₁, (p.poll host sc = (sc₁, .waiting p') ∨ p.poll host sc = (sc₁, .interrupted p')) ∧
        ∀ sc₂ texts q sc', sc₁.Interlude sc₂ → Expands host p' sc₂ texts q sc' →
          ∃ texts', Expands host p sc texts' q sc' := by
  induction p generalizing sc with
  | lookup name k ih =>
    rcases ih (host.env name) (sc.record (.env name)) with
      ⟨texts, q, sc', hexpands, hq⟩ | ⟨p', sc₁, hpoll, hresume⟩
    · exact .inl ⟨texts, q, sc', .lookup hexpands, hq⟩
    · refine .inr ⟨p', sc₁, hpoll, fun sc₂ texts q sc' hinterlude hrest => ?_⟩
      obtain ⟨texts', hexpands⟩ := hresume sc₂ texts q sc' hinterlude hrest
      exact ⟨texts', .lookup hexpands⟩
  | within frame inner k _ ih =>
    rcases hinner : inner.poll host (frame.enter sc) with ⟨after, progress⟩
    rcases hleave : frame.leave sc after with ⟨left, sc₀⟩
    cases progress with
    | finished status =>
      have hpoll : (Job.within frame inner k).poll host sc = (k left status).poll host sc₀ := by
        simp only [Job.poll, hinner, hleave]
      rw [hpoll]
      rcases ih left status sc₀ with ⟨texts, q, sc', hexpands, hq⟩ | ⟨p', sc₁, hpoll, hresume⟩
      · exact .inl ⟨_, q, sc', .finished hinner hleave hexpands, hq⟩
      · refine .inr ⟨p', sc₁, hpoll, fun sc₂ texts q sc' hinterlude hrest => ?_⟩
        obtain ⟨texts', hexpands⟩ := hresume sc₂ texts q sc' hinterlude hrest
        exact ⟨_, .finished hinner hleave hexpands⟩
    -- the poll ends in the frame, and what is left is the frame with the rest of what stands in it
    | waiting inner' =>
      refine .inr ⟨.within left inner' k, sc₀, .inl ?_, fun sc₂ texts q sc' hinterlude hrest => ?_⟩
      · simp only [Job.poll, hinner, hleave]
      · exact ⟨texts, .again (.inl hinner) hleave hinterlude hrest⟩
    | interrupted inner' =>
      refine .inr ⟨.within left inner' k, sc₀, .inr ?_, fun sc₂ texts q sc' hinterlude hrest => ?_⟩
      · simp only [Job.poll, hinner, hleave]
      · exact ⟨texts, .again (.inr hinner) hleave hinterlude hrest⟩
  | exit | emit | openFile | exec | command | pipe | settle =>
    exact .inl ⟨[], _, sc, .here _ _, rfl⟩

/-- A session that comes to its end has come to something else than an expansion. -/
theorem exists_expands {n : Nat} {p : Job} {sc sc' : Scene} {events rest : List Event} {status : Int}
    (hjob : job host n p sc events = (sc', rest, .finished status)) :
    ∃ texts q after, Expands host p sc texts q after ∧ q.expands = false := by
  rw [← fst_watch] at hjob
  induction n generalizing p sc events with
  | zero => cases hjob
  | succ n ih =>
    rcases expands_poll host p sc with hexpands | ⟨p', sc₁, hpending, hresume⟩
    · exact hexpands
    · cases turn host p sc events with
      | finished hpoll hwatch =>
        rcases hpending with hpending | hpending <;> cases hpoll.symm.trans hpending
      | blocked hpoll hready hevents hwatch =>
        rw [hwatch] at hjob
        cases hjob
      | @goesOn q' sc₂ hpoll hwatch =>
        rw [hwatch] at hjob
        obtain ⟨rfl, rfl⟩ : p' = q' ∧ sc₁ = sc₂ := by
          rcases hpoll with ⟨hpoll, -⟩ | hpoll <;> rcases hpending with hpending | hpending <;>
            cases hpoll.symm.trans hpending <;> exact ⟨rfl, rfl⟩
        obtain ⟨texts, q, after, hexpands, hq⟩ := ih hjob
        obtain ⟨texts', hwhole⟩ := hresume _ texts q after ⟨id, rfl⟩ hexpands
        exact ⟨texts', q, after, hwhole, hq⟩
      | event hpoll hready hevents hwatch =>
        rw [hwatch] at hjob
        obtain ⟨texts, q, after, hexpands, hq⟩ := ih hjob
        rcases hpending with hpending | hpending
        · cases hpoll.symm.trans hpending
          obtain ⟨texts', hwhole⟩ := hresume _ texts q after (interlude_applyEvent _ _) hexpands
          exact ⟨texts', q, after, hwhole, hq⟩
        · cases hpoll.symm.trans hpending

end Session

end PocketShell
