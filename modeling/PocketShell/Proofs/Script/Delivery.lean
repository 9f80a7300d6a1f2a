import PocketShell.Proofs.Script.Outcomes

/-!
# Scripts that arrive in pieces

A script is read in the same way however its text is cut into pieces, and whenever they arrive.

* `Source.tokens` : reads tokens from a source until there is none;
* `Source.Alike` : two sources give the same text. A token is the same token in both, or is missing in
  both in the same place (`alike_next`);
* `Source.tokens_alike`, `Forest.parseFrom_alike` : so are all tokens, and what is parsed;
* `Forest.parse_of_delivers` : a text that is written in pieces and a text that is there at once.
-/

namespace PocketShell

namespace Source

/-! ## Reading tokens to the end -/

/-- The next token: the text up to a single quote, or an ordinary one. -/
def next (verbatim : Bool) (s : Source) : Source × Except Halt Token :=
  if verbatim then s.verbatim else s.token

theorem size_next {verbatim : Bool} {s t : Source} {token : Token}
    (h : s.next verbatim = (t, .ok token)) : t.size < s.size := by
  unfold next at h
  split at h
  · exact size_verbatim h
  · exact size_token h

/-- Reads tokens until there is none. Says why there is none, and where. Whether the next token is the
text up to a single quote may depend on all tokens before it, which are given newest first. -/
def tokens (verbatim : List Token → Bool) (before : List Token) (s : Source) :
    List Token × Halt × Position :=
  match _hn : s.next (verbatim before) with
  | (t, .error halt) => (before.reverse, halt, t.position)
  | (t, .ok token) => tokens verbatim (token :: before) t
termination_by s.size
decreasing_by exact size_next _hn

section step

variable {s t : Source} {verbatim : List Token → Bool} {before : List Token} {token : Token}
  {halt : Halt}

theorem tokens_step (h : s.next (verbatim before) = (t, .ok token)) :
    s.tokens verbatim before = t.tokens verbatim (token :: before) := by
  rw [tokens]
  split
  · simp_all
  · rename_i heq
    rw [h] at heq
    obtain ⟨rfl, hd⟩ := Prod.mk.inj heq
    obtain rfl := Except.ok.inj hd
    rfl

theorem tokens_end (h : s.next (verbatim before) = (t, .error halt)) :
    s.tokens verbatim before = (before.reverse, halt, t.position) := by
  rw [tokens]
  split <;> simp_all

end step

/-! ## Two sources of the same text -/

/-- Two sources that give the same text from the same position on. -/
def Alike (s s' : Source) : Prop := ∃ t : Tape, s.Shows t ∧ s'.Shows t

/-- What becomes of the next token in two sources of the same text. -/
inductive AlikeNext (verbatim : Bool) (s s' : Source) : Prop where
  | both {t t' : Source} {token : Token} (hs : s.next verbatim = (t, .ok token))
    (hs' : s'.next verbatim = (t', .ok token)) (halike : Alike t t')
  | neither {t t' : Source} {cause : Fault}
    (hcause : cause = .endOfStream ∨ cause = .unexpectedEnd)
    (hs : s.next verbatim = (t, .error (.fault cause)))
    (hs' : s'.next verbatim = (t', .error (.fault cause))) (hposition : t.position = t'.position)

variable {s s' : Source}

/-- Reading a token from two sources, when both read it as from their tape. -/
theorem alikeNext_of_yields {verbatim : Bool} {t : Tape} {r : Except Fault (Token × Tape)}
    (hs : Yields (s.next verbatim) r) (hs' : Yields (s'.next verbatim) r)
    (hcause : ∀ cause, r = .error cause → cause = .endOfStream ∨ cause = .unexpectedEnd)
    (hhalts : ∀ cause, r = .error cause →
      (s.next verbatim).1.position = t.last ∧ (s'.next verbatim).1.position = t.last) :
    AlikeNext verbatim s s' := by
  cases r with
  | ok next =>
    obtain ⟨token, left⟩ := next
    exact .both (Prod.ext rfl hs.1) (Prod.ext rfl hs'.1) ⟨left, hs.2, hs'.2⟩
  | error cause =>
    obtain ⟨hlast, hlast'⟩ := hhalts cause rfl
    exact .neither (hcause cause rfl) (Prod.ext rfl hs) (Prod.ext rfl hs') (hlast.trans hlast'.symm)

theorem alike_next (verbatim : Bool) (h : Alike s s') : AlikeNext verbatim s s' := by
  obtain ⟨t, hs, hs'⟩ := h
  cases verbatim with
  | true =>
    refine alikeNext_of_yields (t := t) (verbatim_of_shows hs) (verbatim_of_shows hs') ?_ ?_
    · intro cause hcause
      exact .inr (Tape.verbatim_error hcause)
    · intro cause hcause
      exact ⟨verbatim_halts hs hcause, verbatim_halts hs' hcause⟩
  | false =>
    refine alikeNext_of_yields (t := t) (token_of_shows hs) (token_of_shows hs') ?_ ?_
    · intro cause hcause
      exact Tape.tokenFrom_error hcause
    · intro cause hcause
      exact ⟨token_halts hs hcause, token_halts hs' hcause⟩

theorem tokens_alike (verbatim : List Token → Bool) (before : List Token) (h : Alike s s') :
    s.tokens verbatim before = s'.tokens verbatim before := by
  induction hn : s.size using Nat.strongRecOn generalizing s s' before with
  | ind n ih =>
    subst hn
    cases alike_next (verbatim before) h with
    | @both t t' token hs hs' halike =>
      rw [tokens_step hs, tokens_step hs']
      exact ih t.size (size_next hs) (token :: before) halike rfl
    | neither _ hs hs' hposition => rw [tokens_end hs, tokens_end hs', hposition]

theorem alike_of_delivers {minds : Bool} {c : Cancellation} {writes : List String}
    {events : List Event} (hquiet : (minds && c.fired) = false)
    (h : Event.Delivers events writes) :
    Alike { stream := { cancellable := minds }, cancellation := c, events := events }
      (ofText (String.join writes)) := by
  refine ⟨⟨{}, (String.join writes).toList⟩, ?_, shows_ofText _⟩
  rw [String.toList_join]
  exact shows_of_delivers (.of_fresh rfl rfl) rfl hquiet h {}

end Source

namespace Forest

variable {s s' : Source}

theorem parseFrom_alike (f : Forest) (context : NodeId) (h : Source.Alike s s') :
    (f.parseFrom context s).2 = (f.parseFrom context s').2 := by
  induction hn : s.size using Nat.strongRecOn generalizing f context s s' with
  | ind n ih =>
    subst hn
    cases Source.alike_next (f.wantsVerbatim context) h with
    | @both t t' token hs hs' halike =>
      rcases hfeed : f.feed context token with ⟨f', cause | context'⟩
      · have hrefused : (f.feed context token).2 = .error cause := by rw [hfeed]
        rw [parseFrom_refused hs hrefused, parseFrom_refused hs' hrefused]
      · rw [parseFrom_step hs hfeed, parseFrom_step hs' hfeed]
        exact ih t.size (Source.size_next hs) f' context' halike rfl
    | @neither t t' cause hcause hs hs' hposition =>
      rcases hcause with rfl | rfl
      · cases hcomplete : f.checkComplete context with
        | ok _ => rw [parseFrom_end hs hcomplete, parseFrom_end hs' hcomplete]
        | error cause =>
          rw [parseFrom_cutShort hs hcomplete, parseFrom_cutShort hs' hcomplete, hposition]
      · rw [parseFrom_fault hs rfl, parseFrom_fault hs' rfl, hposition]

/-- A text that is written in pieces while the reader waits is read as the text that is there at
once, token by token and as a script. -/
theorem parse_of_delivers (minds : Bool) (c : Cancellation) (hquiet : (minds && c.fired) = false)
    (writes : List String) (events : List Event) (h : Event.Delivers events writes) :
    parse { stream := { cancellable := minds }, cancellation := c, events := events } =
        parse (Source.ofText (String.join writes)) ∧
      ∀ verbatim, Source.tokens verbatim []
          { stream := { cancellable := minds }, cancellation := c, events := events } =
        Source.tokens verbatim [] (Source.ofText (String.join writes)) := by
  have halike := Source.alike_of_delivers hquiet h
  exact ⟨parseFrom_alike {} root halike, fun verbatim => Source.tokens_alike verbatim [] halike⟩

/-- A script that is cut inside a word, quotes, operators and a continued line end. -/
def cutWrites : List String := ["ec", "", "ho 'a|", "b' |", "| \\", "\nx$", "(y >", "> f)"]

def cutEvents : List Event :=
  [.both (.write "ec") (.write ""), .write "ho 'a|",
    .both (.write "b' |") (.both (.write "| \\") (.write "\nx$")), .write "(y >",
    .both (.write "> f)") .close]

theorem parse_of_delivers_cutWrites :
    (true && ({} : Cancellation).fired) = false ∧ Event.Delivers cutEvents cutWrites ∧
      parse { stream := { cancellable := true }, events := cutEvents } =
        parse (Source.ofText (String.join cutWrites)) ∧
      ∀ verbatim,
        Source.tokens verbatim [] { stream := { cancellable := true }, events := cutEvents } =
          Source.tokens verbatim [] (Source.ofText (String.join cutWrites)) :=
  ⟨rfl, rfl, parse_of_delivers true {} rfl cutWrites cutEvents rfl⟩

end Forest

end PocketShell
