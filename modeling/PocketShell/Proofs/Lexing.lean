import PocketShell.Token.Reading
import PocketShell.Proofs.Delivery

/-!
# Tokens of a text

A source is a text with a position, when all of the text and its end are there or still to come. How
much of it is there already makes no difference to what is read.

* `Tape` : what is left of a text, and where it begins;
* `Tape.word`, `Tape.token`, `Tape.verbatim` : tokens, by recursion on the text;
* `Source.Shows` : a source is a tape;
* `Source.token_of_shows`, `Source.verbatim_of_shows` : reading tokens from a source is reading them
  from its tape.
-/

namespace PocketShell

/-! ## Tapes -/

/-- The position after some characters. -/
def Position.past (p : Position) (cs : List Char) : Position := cs.foldl Position.after p

theorem Position.past_cons (p : Position) (c : Char) (cs : List Char) :
    p.past (c :: cs) = (p.after c).past cs := rfl

/-- What is left of a text, and its position. -/
structure Tape where
  position : Position := {}
  chars : List Char

namespace Tape

/-- An operator as long as possible: its kind, the characters that make it longer, and what is left
after them. -/
def munch (kind : TokenKind) : List Char → TokenKind × List Char × List Char
  | [] => (kind, [], [])
  | c :: cs =>
    match kind.longer? with
    | none => (kind, [], c :: cs)
    | some (more, longer) =>
      if c = more then
        let (kind, taken, rest) := munch longer cs
        (kind, c :: taken, rest)
      else (kind, [], c :: cs)

/-- The rest of a word: its characters, without backslashes and continued line ends. -/
def word (p : Position) : List Char → Except Fault (List Char × Tape)
  | [] => .ok ([], ⟨p, []⟩)
  | c :: cs =>
    if c = '\\' then
      match cs with
      | [] => .error .unexpectedEnd
      | d :: ds =>
        (word ((p.after c).after d) ds).map fun (value, t) =>
          (if d = '\n' then value else d :: value, t)
    else if isWordChar c then (word (p.after c) cs).map fun (value, t) => (c :: value, t)
    else .ok ([], ⟨p, c :: cs⟩)

/-- The next token. -/
def tokenFrom (p : Position) : List Char → Except Fault (Token × Tape)
  | [] => .error .endOfStream
  | c :: cs =>
    match TokenKind.ofStart? c with
    | some .backslash =>
      match cs with
      | [] => .error .unexpectedEnd
      | d :: ds =>
        if d = '\n' then tokenFrom ((p.after c).after d) ds
        else
          (word ((p.after c).after d) ds).map fun (value, t) =>
            (⟨.identifier, String.ofList (d :: value), p⟩, t)
    | some kind =>
      let (kind, taken, rest) := munch kind cs
      .ok (⟨kind, String.ofList (c :: taken), p⟩, ⟨(p.after c).past taken, rest⟩)
    | none =>
      if isGap c then
        .ok (⟨.whitespace, String.ofList (c :: cs.takeWhile isGap), p⟩,
          ⟨(p.after c).past (cs.takeWhile isGap), cs.dropWhile isGap⟩)
      else
        (word (p.after c) cs).map fun (value, t) =>
          (⟨.identifier, String.ofList (c :: value), p⟩, t)

def token (t : Tape) : Except Fault (Token × Tape) := tokenFrom t.position t.chars

/-- The text up to the next single quote, which is taken as well. -/
def verbatim (t : Tape) : Except Fault (Token × Tape) :=
  let text := t.chars.takeWhile isNotQuote
  match t.chars.dropWhile isNotQuote with
  | [] => .error .unexpectedEnd
  | c :: rest =>
    .ok (⟨.identifier, String.ofList text, t.position⟩, ⟨(t.position.past text).after c, rest⟩)

end Tape

/-! ## Sources that are tapes -/

/-- A source gives what is left of a text, and then the end. -/
structure Source.Shows (s : Source) (t : Tape) : Prop where
  idle : s.stream.Awaited none
  quiet : (s.stream.cancellable && s.cancellation.fired) = false
  supplies : s.stream.Supplies s.events t.chars
  position : s.position = t.position

namespace Source

variable {s : Source} {p : Position} {c : Char} {cs : List Char}

theorem shows_ofText (text : String) : (ofText text).Shows ⟨{}, text.toList⟩ where
  idle := Stream.awaited_ofText text
  quiet := Bool.and_false _
  supplies := Stream.supplies_ofText text []
  position := rfl

theorem shows_of_delivers {stream : Stream} {cancellation : Cancellation} {events : List Event}
    {writes : List String} (hidle : stream.Awaited none) (hopen : stream.closed = false)
    (hquiet : (stream.cancellable && cancellation.fired) = false)
    (h : Event.Delivers events writes) (p : Position) :
    Shows ⟨stream, cancellation, events, p⟩
      ⟨p, stream.text ++ writes.flatMap String.toList⟩ where
  idle := hidle
  quiet := hquiet
  supplies := .coming hopen h rfl
  position := rfl

/-- What is left once a read has been served. -/
theorem shows_served {u t : Stream} {cancellation : Cancellation} {rest : List Event} {want : Want}
    {answer : String} (hidle : u.Awaited none) (hquiet : (u.cancellable && cancellation.fired) = false)
    (hsupplies : u.Supplies rest cs) (hserve : want.serve u = some (answer, t)) :
    ∃ left, cs = want.taken answer ++ left ∧
      ∀ p, Shows ⟨t, cancellation, rest, p⟩ ⟨p, left⟩ := by
  obtain ⟨left, hleft, ht⟩ := hsupplies.take (Want.closed_serve hserve) (Want.text_serve hserve)
  refine ⟨left, hleft, fun p => ⟨hidle.serve hserve, ?_, ht, rfl⟩⟩
  show (t.cancellable && cancellation.fired) = false
  rw [Want.cancellable_serve hserve, hquiet]

theorem peek_cons (h : s.Shows ⟨p, c :: cs⟩) :
    ∃ s', s.peek = (s', .ok c) ∧ s'.Shows ⟨p, c :: cs⟩ := by
  have hp : s.position = p := h.position
  cases request_of_supplies Stream.peekChar?_eq_none_iff h.quiet h.idle h.supplies s.position with
  | @served u t a rest hidle hminds hsupplies hserve hanswer =>
    have hs : Want.peek.serve u = some (a.toString, t) := by simp [Want.serve, hserve]
    have hquiet : (u.cancellable && s.cancellation.fired) = false := by rw [hminds, h.quiet]
    obtain ⟨left, hleft, hshows⟩ := shows_served hidle hquiet hsupplies hs
    obtain rfl : c :: cs = left := hleft
    have hhead : u.text.head? = some a := by
      rw [Stream.peekChar?, Option.map_eq_some_iff] at hserve
      obtain ⟨_, hfront, heq⟩ := hserve
      rw [← Stream.front?_eq_head?, hfront, (Prod.mk.inj heq).1]
    obtain rfl : c = a := hsupplies.head_eq hhead
    exact ⟨_, hanswer, hp ▸ hshows s.position⟩
  | ended _ _ _ hempty => cases hempty

theorem read_cons (h : s.Shows ⟨p, c :: cs⟩) :
    ∃ s', s.read = (s', .ok c) ∧ s'.Shows ⟨p.after c, cs⟩ := by
  have hp : s.position = p := h.position
  cases request_of_supplies Stream.takeChar?_eq_none_iff h.quiet h.idle h.supplies s.position with
  | @served u t a rest hidle hminds hsupplies hserve hanswer =>
    have hs : Want.char.serve u = some (a.toString, t) := by simp [Want.serve, hserve]
    have hquiet : (u.cancellable && s.cancellation.fired) = false := by rw [hminds, h.quiet]
    obtain ⟨left, hleft, hshows⟩ := shows_served hidle hquiet hsupplies hs
    obtain ⟨rfl, rfl⟩ : c = a ∧ cs = left := by simpa [Want.taken, Char.toString] using hleft
    refine ⟨_, by rw [read, hanswer], ?_⟩
    rw [← hp]
    exact hshows (s.position.after c)
  | ended _ _ _ hempty => cases hempty

/-- Nothing is served at the end of a text. -/
theorem request_nil {serve : Stream → Option (Char × Stream)}
    (hserve : ∀ s, serve s = none ↔ s.text = []) (h : s.Shows ⟨p, []⟩) :
    ∃ s', request serve s.position s.events s.stream s.cancellation none =
      (s', .error (.fault .endOfStream)) ∧ s'.Shows ⟨p, []⟩ := by
  cases request_of_supplies hserve h.quiet h.idle h.supplies s.position with
  | @served u t a rest hidle hminds hsupplies hs hanswer =>
    have hempty : u.text = [] := hsupplies.text_eq_nil
    rw [(hserve u).2 hempty] at hs
    cases hs
  | ended hidle hminds hsupplies _ hanswer =>
    exact ⟨_, hanswer, hidle, by rw [hminds, h.quiet], hsupplies, h.position⟩

theorem peek_nil (h : s.Shows ⟨p, []⟩) :
    ∃ s', s.peek = (s', .error (.fault .endOfStream)) ∧ s'.Shows ⟨p, []⟩ :=
  request_nil Stream.peekChar?_eq_none_iff h

theorem read_nil (h : s.Shows ⟨p, []⟩) :
    ∃ s', s.read = (s', .error (.fault .endOfStream)) ∧ s'.Shows ⟨p, []⟩ := by
  obtain ⟨s', hrequest, h'⟩ := request_nil Stream.takeChar?_eq_none_iff h
  exact ⟨s', by rw [read, hrequest], h'⟩

/-! ## One step of a loop -/

section step

variable {s₁ s₂ : Source} {halt : Halt} {q : Char → Bool} {d : Char} {kind : TokenKind}
  {value : List Char} {token unit : Token}

theorem scan_end (hp : s.peek = (s₁, .error halt)) : s.scan q = (s₁, [], some halt) := by
  unfold scan
  split <;> simp_all

theorem scan_stop (hp : s.peek = (s₁, .ok c)) (hc : q c = false) :
    s.scan q = (s₁, [], none) := by
  unfold scan
  split <;> simp_all

theorem scan_step (hp : s.peek = (s₁, .ok c)) (hc : q c = true) (hr : s₁.read = (s₂, .ok d)) :
    s.scan q = ((s₂.scan q).1, d :: (s₂.scan q).2.1, (s₂.scan q).2.2) := by
  rw [scan]
  split
  · simp_all
  · rename_i heq
    rw [hp] at heq
    obtain ⟨rfl, hd⟩ := Prod.mk.inj heq
    obtain rfl := Except.ok.inj hd
    simp only [hc, if_true]
    split
    · simp_all
    · simp_all

theorem munch_end (hp : s.peek = (s₁, .error halt)) (hend : halt.isEnd = true) :
    s.munch kind value = (if kind.longer?.isSome then s₁ else s, .ok (kind, value)) := by
  unfold munch
  cases kind.longer? with
  | none => rfl
  | some next => simp only; split <;> simp_all

theorem munch_stop {more : Char} {longer : TokenKind} (hk : kind.longer? = some (more, longer))
    (hp : s.peek = (s₁, .ok c)) (hc : c ≠ more) : s.munch kind value = (s₁, .ok (kind, value)) := by
  unfold munch
  simp only [hk]
  split <;> simp_all

theorem munch_step {longer : TokenKind} (hk : kind.longer? = some (c, longer))
    (hp : s.peek = (s₁, .ok c)) (hr : s₁.read = (s₂, .ok d)) :
    s.munch kind value = s₂.munch longer (value ++ [d]) := by
  rw [munch]
  simp only [hk]
  split
  · simp_all
  · rename_i heq
    rw [hp] at heq
    obtain ⟨rfl, hd⟩ := Prod.mk.inj heq
    obtain rfl := Except.ok.inj hd
    simp only [if_true]
    split <;> simp_all

theorem extend_end (hp : s.peek = (s₁, .error halt)) (hend : halt.isEnd = true) :
    s.extend token = (s₁, .ok token) := by
  unfold extend
  split <;> simp_all

theorem extend_stop (hp : s.peek = (s₁, .ok c)) (hc : joins token.kind c = false) :
    s.extend token = (s₁, .ok token) := by
  unfold extend
  split <;> simp_all

theorem extend_fail (hp : s.peek = (s₁, .ok c)) (hc : joins token.kind c = true)
    (hu : s₁.unit = (s₂, .error halt)) : s.extend token = (s₂, .error halt) := by
  rw [extend]
  split
  · simp_all
  · rename_i heq
    rw [hp] at heq
    obtain ⟨rfl, hd⟩ := Prod.mk.inj heq
    obtain rfl := Except.ok.inj hd
    simp only [hc, if_true]
    split <;> simp_all

theorem extend_step (hp : s.peek = (s₁, .ok c)) (hc : joins token.kind c = true)
    (hu : s₁.unit = (s₂, .ok unit)) :
    s.extend token = s₂.extend (if unit.kind = .backslash then token
      else { token with kind := unit.kind, value := token.value ++ unit.value }) := by
  rw [extend]
  split
  · simp_all
  · rename_i heq
    rw [hp] at heq
    obtain ⟨rfl, hd⟩ := Prod.mk.inj heq
    obtain rfl := Except.ok.inj hd
    simp only [hc, if_true]
    split <;> simp_all

end step

/-! ## Runs of characters and operators -/

theorem scan_of_shows (q : Char → Bool) (h : s.Shows ⟨p, cs⟩) :
    ∃ s', s.scan q = (s', cs.takeWhile q,
        if cs.dropWhile q = [] then some (.fault .endOfStream) else none) ∧
      s'.Shows ⟨p.past (cs.takeWhile q), cs.dropWhile q⟩ := by
  induction cs generalizing s p with
  | nil =>
    obtain ⟨s', hpeek, h'⟩ := peek_nil h
    exact ⟨s', scan_end hpeek, h'⟩
  | cons c cs ih =>
    obtain ⟨s₁, hpeek, h₁⟩ := peek_cons h
    cases hc : q c with
    | true =>
      obtain ⟨s₂, hread, h₂⟩ := read_cons h₁
      obtain ⟨s₃, hscan, h₃⟩ := ih h₂
      refine ⟨s₃, ?_, ?_⟩
      · rw [scan_step hpeek hc hread, hscan, List.takeWhile_cons_of_pos hc,
          List.dropWhile_cons_of_pos hc]
      · rw [List.takeWhile_cons_of_pos hc, List.dropWhile_cons_of_pos hc]
        exact h₃
    | false =>
      refine ⟨s₁, ?_, ?_⟩
      · simp [scan_stop hpeek hc, hc]
      · simpa [hc, Position.past] using h₁

theorem munch_of_shows (kind : TokenKind) (value : List Char) (h : s.Shows ⟨p, cs⟩) :
    ∃ s', s.munch kind value =
        (s', .ok ((Tape.munch kind cs).1, value ++ (Tape.munch kind cs).2.1)) ∧
      s'.Shows ⟨p.past (Tape.munch kind cs).2.1, (Tape.munch kind cs).2.2⟩ := by
  induction cs generalizing s p kind value with
  | nil =>
    obtain ⟨s', hpeek, h'⟩ := peek_nil h
    refine ⟨if kind.longer?.isSome then s' else s, ?_, ?_⟩
    · rw [munch_end hpeek rfl]
      simp [Tape.munch]
    · split
      · exact h'
      · exact h
  | cons c cs ih =>
    cases hk : kind.longer? with
    | none =>
      refine ⟨s, ?_, ?_⟩
      · unfold munch
        simp [Tape.munch, hk]
      · simpa [Tape.munch, hk, Position.past] using h
    | some next =>
      obtain ⟨more, longer⟩ := next
      obtain ⟨s₁, hpeek, h₁⟩ := peek_cons h
      by_cases hc : c = more
      · subst hc
        obtain ⟨s₂, hread, h₂⟩ := read_cons h₁
        obtain ⟨s₃, hmunch, h₃⟩ := ih longer (value ++ [c]) h₂
        refine ⟨s₃, ?_, ?_⟩
        · rw [munch_step hk hpeek hread, hmunch]
          simp [Tape.munch, hk]
        · simpa [Tape.munch, hk, Position.past] using h₃
      · refine ⟨s₁, ?_, ?_⟩
        · simp [munch_stop hk hpeek hc, Tape.munch, hk, hc]
        · simpa [Tape.munch, hk, hc, Position.past] using h₁

/-! ## Units -/

/-- A unit begins by taking its first character. -/
theorem unit_of_shows (h : s.Shows ⟨p, c :: cs⟩) :
    ∃ s₂ : Source, s₂.Shows ⟨p.after c, cs⟩ ∧ s.unit = match TokenKind.ofStart? c with
      | some .backslash => s₂.escapedChar p
      | some kind =>
        match s₂.munch kind [c] with
        | (s₃, .error halt) => (s₃, .error halt)
        | (s₃, .ok (kind, value)) => (s₃, .ok ⟨kind, String.ofList value, p⟩)
      | none =>
        if isGap c then s₂.run p .whitespace isGap c else s₂.run p .identifier isWordChar c := by
  obtain ⟨s₁, hpeek, h₁⟩ := peek_cons h
  obtain ⟨s₂, hread, h₂⟩ := read_cons h₁
  refine ⟨s₂, h₂, ?_⟩
  have hp : s₁.position = p := h₁.position
  rw [unit, hpeek]
  simp only [hread]
  subst hp
  rfl

theorem escapedChar_cons (start : Position) (h : s.Shows ⟨p, c :: cs⟩) :
    ∃ s', s.escapedChar start =
        (s', .ok ⟨if c = '\n' then .backslash else .identifier, c.toString, start⟩) ∧
      s'.Shows ⟨p.after c, cs⟩ := by
  obtain ⟨s', hread, h'⟩ := read_cons h
  exact ⟨s', by rw [escapedChar, hread], h'⟩

theorem escapedChar_nil (start : Position) (h : s.Shows ⟨p, []⟩) :
    ∃ s', s.escapedChar start = (s', .error (.fault .unexpectedEnd)) ∧ s'.Shows ⟨p, []⟩ := by
  obtain ⟨s', hread, h'⟩ := read_nil h
  refine ⟨s', ?_, h'⟩
  rw [escapedChar, hread]
  rfl

theorem run_of_shows (start : Position) (kind : TokenKind) (q : Char → Bool) (first : Char)
    (h : s.Shows ⟨p, cs⟩) :
    ∃ s', s.run start kind q first =
        (s', .ok ⟨kind, String.ofList (first :: cs.takeWhile q), start⟩) ∧
      s'.Shows ⟨p.past (cs.takeWhile q), cs.dropWhile q⟩ := by
  obtain ⟨s', hscan, h'⟩ := scan_of_shows q h
  refine ⟨s', ?_, h'⟩
  rw [run, hscan]
  by_cases hrest : cs.dropWhile q = []
  · simp [hrest, Halt.isEnd, Fault.isEnd]
  · simp [hrest]

end Source

/-! ## Words -/

theorem isWordChar_iff {c : Char} :
    isWordChar c = true ↔ isGap c = false ∧ TokenKind.ofStart? c = none := by
  simp [isWordChar, startsOperator]

theorem ofStart?_of_isGap {c : Char} (hc : isGap c = true) : TokenKind.ofStart? c = none := by
  simp only [isGap, Bool.or_eq_true, decide_eq_true_eq] at hc
  rcases hc with (rfl | rfl) | rfl <;> rfl

namespace Tape

variable {p : Position} {c d : Char} {cs ds : List Char}

theorem word_escape_nil : word p ['\\'] = .error .unexpectedEnd := by
  simp [word]

theorem word_escape : word p ('\\' :: d :: ds) =
    (word ((p.after '\\').after d) ds).map fun (value, t) =>
      (if d = '\n' then value else d :: value, t) := by
  simp [word]

theorem ne_backslash_of_isWordChar (hc : isWordChar c = true) : c ≠ '\\' := by
  rintro rfl
  exact absurd hc (by decide)

theorem word_char (hc : isWordChar c = true) : word p (c :: cs) =
    (word (p.after c) cs).map fun (value, t) => (c :: value, t) := by
  conv => lhs; unfold word
  rw [if_neg (ne_backslash_of_isWordChar hc), if_pos hc]

theorem word_stop (hc : isWordChar c = false) (hescape : c ≠ '\\') :
    word p (c :: cs) = .ok ([], ⟨p, c :: cs⟩) := by
  conv => lhs; unfold word
  rw [if_neg hescape, if_neg (by simp [hc])]

theorem word_append {run : List Char} (rest : List Char) (hrun : run.all isWordChar = true) :
    word p (run ++ rest) = (word (p.past run) rest).map fun (value, t) => (run ++ value, t) := by
  induction run generalizing p with
  | nil =>
    rw [List.nil_append, show p.past [] = p from rfl]
    cases word p rest <;> rfl
  | cons c run ih =>
    rw [List.all_cons, Bool.and_eq_true] at hrun
    rw [List.cons_append, word_char hrun.1, ih hrun.2, Position.past_cons]
    cases word ((p.after c).past run) rest <;> rfl

end Tape

namespace Source

variable {s : Source} {p : Position} {c : Char} {cs : List Char}

/-- A unit that begins with a word character is a run of them. -/
theorem unit_word (hc : isWordChar c = true) (h : s.Shows ⟨p, c :: cs⟩) :
    ∃ s', s.unit = (s', .ok ⟨.identifier, String.ofList (c :: cs.takeWhile isWordChar), p⟩) ∧
      s'.Shows ⟨(p.after c).past (cs.takeWhile isWordChar), cs.dropWhile isWordChar⟩ := by
  obtain ⟨s₂, h₂, hunit⟩ := unit_of_shows h
  obtain ⟨hgap, hstart⟩ := isWordChar_iff.1 hc
  obtain ⟨s', hrun, h'⟩ := run_of_shows p .identifier isWordChar c h₂
  refine ⟨s', ?_, h'⟩
  rw [hunit, hstart]
  simp only [hgap, Bool.false_eq_true, if_false, hrun]

theorem unit_gap (hc : isGap c = true) (h : s.Shows ⟨p, c :: cs⟩) :
    ∃ s', s.unit = (s', .ok ⟨.whitespace, String.ofList (c :: cs.takeWhile isGap), p⟩) ∧
      s'.Shows ⟨(p.after c).past (cs.takeWhile isGap), cs.dropWhile isGap⟩ := by
  obtain ⟨s₂, h₂, hunit⟩ := unit_of_shows h
  obtain ⟨s', hrun, h'⟩ := run_of_shows p .whitespace isGap c h₂
  refine ⟨s', ?_, h'⟩
  rw [hunit, ofStart?_of_isGap hc]
  simp only [hc, if_true, hrun]

theorem unit_operator {kind : TokenKind} (hc : TokenKind.ofStart? c = some kind)
    (hbackslash : kind ≠ .backslash) (h : s.Shows ⟨p, c :: cs⟩) :
    ∃ s', s.unit = (s', .ok ⟨(Tape.munch kind cs).1,
        String.ofList (c :: (Tape.munch kind cs).2.1), p⟩) ∧
      s'.Shows ⟨(p.after c).past (Tape.munch kind cs).2.1, (Tape.munch kind cs).2.2⟩ := by
  obtain ⟨s₂, h₂, hunit⟩ := unit_of_shows h
  obtain ⟨s', hmunch, h'⟩ := munch_of_shows kind [c] h₂
  refine ⟨s', ?_, h'⟩
  rw [hunit, hc]
  simp only [hmunch]
  rfl

/-- Extending a word gives these characters more and leaves a tape, or has this fault. -/
def Extends (s : Source) (token : Token) : Except Fault (List Char × Tape) → Prop
  | .ok (value, t) =>
    ∃ s', s.extend token =
      (s', .ok { token with value := token.value ++ String.ofList value }) ∧ s'.Shows t
  | .error cause => ∃ s', s.extend token = (s', .error (.fault cause))

/-- Characters that were added before. -/
theorem Extends.more {s' : Source} {token : Token} {r : Except Fault (List Char × Tape)}
    (added : List Char)
    (hstep : s.extend token =
      s'.extend { token with value := token.value ++ String.ofList added })
    (h : s'.Extends { token with value := token.value ++ String.ofList added } r) :
    s.Extends token (r.map fun r => (added ++ r.1, r.2)) := by
  cases r with
  | error cause =>
    obtain ⟨s'', hs''⟩ := h
    exact ⟨s'', hstep.trans hs''⟩
  | ok r =>
    obtain ⟨s'', hs'', hshows⟩ := h
    refine ⟨s'', hstep.trans (hs''.trans ?_), hshows⟩
    rw [String.append_assoc, ← String.ofList_append]

/-- One step of extending a word in front of a text: the word ends here, or the text breaks off, or the
word gets some more characters and goes on behind those that were taken for them. -/
inductive Extending (s : Source) (token : Token) (p : Position) (cs : List Char) : Prop where
  | ends {s' : Source} (hstep : s.extend token = (s', .ok token)) (h : s'.Shows ⟨p, cs⟩)
    (hword : Tape.word p cs = .ok ([], ⟨p, cs⟩))
  | breaksOff {s' : Source} (hstep : s.extend token = (s', .error (.fault .unexpectedEnd)))
    (hlast : s'.position = p.past cs) (hword : Tape.word p cs = .error .unexpectedEnd)
  | goesOn {s' : Source} (added : List Char) {taken rest : List Char} (hcs : cs = taken ++ rest)
    (hlt : rest.length < cs.length)
    (hstep : s.extend token = s'.extend { token with value := token.value ++ String.ofList added })
    (h : s'.Shows ⟨p.past taken, rest⟩)
    (hword : Tape.word p cs = (Tape.word (p.past taken) rest).map fun r => (added ++ r.1, r.2))

theorem extending_of_shows {token : Token} (htoken : token.kind = .identifier)
    (h : s.Shows ⟨p, cs⟩) : s.Extending token p cs := by
  cases cs with
  | nil =>
    obtain ⟨s', hpeek, h'⟩ := peek_nil h
    exact .ends (extend_end hpeek rfl) h' rfl
  | cons c cs =>
    obtain ⟨s₁, hpeek, h₁⟩ := peek_cons h
    by_cases hescape : c = '\\'
    · subst hescape
      have hjoins : joins token.kind '\\' = true := by simp [joins, htoken]
      obtain ⟨s₂, h₂, hunit⟩ := unit_of_shows h₁
      cases cs with
      | nil =>
        obtain ⟨s₃, hescaped, h₃⟩ := escapedChar_nil p h₂
        exact .breaksOff (extend_fail hpeek hjoins (hunit.trans hescaped)) h₃.position
          Tape.word_escape_nil
      | cons d ds =>
        obtain ⟨s₃, hescaped, h₃⟩ := escapedChar_cons p h₂
        have hstep := extend_step hpeek hjoins (hunit.trans hescaped)
        have hlt : ds.length < ('\\' :: d :: ds).length := by
          rw [List.length_cons, List.length_cons]
          omega
        have htaken : '\\' :: d :: ds = ['\\', d] ++ ds := rfl
        by_cases hd : d = '\n'
        · refine .goesOn [] htaken hlt ?_ h₃ (Tape.word_escape.trans ?_)
          · simpa [hd] using hstep
          · simp only [hd, if_true]
            rfl
        · refine .goesOn [d] htaken hlt ?_ h₃ (Tape.word_escape.trans ?_)
          · simpa [hd, htoken] using hstep
          · simp only [hd, if_false]
            rfl
    · cases hword : isWordChar c with
      | true =>
        have hjoins : joins token.kind c = true := by simp [joins, htoken, hword]
        obtain ⟨s₂, hunit, h₂⟩ := unit_word hword h₁
        have hstep := extend_step hpeek hjoins hunit
        have hsplit : c :: cs = (c :: cs.takeWhile isWordChar) ++ cs.dropWhile isWordChar := by
          rw [List.cons_append, List.takeWhile_append_dropWhile]
        have hlt : (cs.dropWhile isWordChar).length < (c :: cs).length :=
          Nat.lt_succ_of_le (List.dropWhile_suffix isWordChar).length_le
        refine .goesOn (c :: cs.takeWhile isWordChar) hsplit hlt ?_ h₂ ?_
        · simpa [htoken] using hstep
        · conv => lhs; rw [hsplit, Tape.word_append _ (by simp [hword])]
      | false =>
        have hjoins : joins token.kind c = false := by simp [joins, htoken, hword, hescape]
        exact .ends (extend_stop hpeek hjoins) h₁ (Tape.word_stop hword hescape)

/-- A word is extended by what belongs to it. -/
theorem extends_of_shows {token : Token} (htoken : token.kind = .identifier)
    (h : s.Shows ⟨p, cs⟩) : s.Extends token (Tape.word p cs) := by
  -- a step takes a whole run of word characters, so the induction is on the length of the text
  induction hn : cs.length using Nat.strongRecOn generalizing s p cs token with
  | ind n ih =>
    subst hn
    cases extending_of_shows htoken h with
    | ends hstep h' hword =>
      rw [hword]
      exact ⟨_, by simpa using hstep, h'⟩
    | breaksOff hstep _ hword =>
      rw [hword]
      exact ⟨_, hstep⟩
    | goesOn _ _ hlt hstep h' hword =>
      rw [hword]
      exact Extends.more _ hstep (ih _ hlt htoken h' rfl)

/-! ## Tokens -/

section step

variable {s₁ : Source} {halt : Halt} {u : Token}

theorem token_fail (hu : s.unit = (s₁, .error halt)) : s.token = (s₁, .error halt) := by
  rw [token]
  split <;> simp_all

/-- What becomes of the first unit. -/
theorem token_unit (hu : s.unit = (s₁, .ok u)) : s.token = match u.kind with
    | .backslash => s₁.token
    | .identifier | .whitespace => s₁.extend u
    | _ => (s₁, .ok u) := by
  rw [token]
  split
  · simp_all
  · rename_i heq
    rw [hu] at heq
    obtain ⟨rfl, hd⟩ := Prod.mk.inj heq
    obtain rfl := Except.ok.inj hd
    rfl

end step

end Source

/-- The kinds of operators. -/
def TokenKind.isOperator : TokenKind → Bool
  | identifier | whitespace | backslash => false
  | _ => true

theorem TokenKind.isOperator_longer {kind longer : TokenKind} {c : Char}
    (h : kind.longer? = some (c, longer)) : longer.isOperator = true := by
  cases kind <;> simp_all [longer?] <;> (obtain ⟨-, rfl⟩ := h; rfl)

theorem TokenKind.eq_of_ofStart?_backslash {c : Char} (h : ofStart? c = some .backslash) :
    c = '\\' := by
  unfold ofStart? at h
  split at h <;> simp_all

theorem TokenKind.isOperator_start {kind : TokenKind} {c : Char} (h : ofStart? c = some kind)
    (hbackslash : kind ≠ .backslash) : kind.isOperator = true := by
  unfold ofStart? at h
  split at h <;> simp_all [isOperator] <;> (obtain rfl := h; rfl)

namespace Tape

variable {p : Position} {c d : Char} {cs ds : List Char}

theorem isOperator_munch {kind : TokenKind} (h : kind.isOperator = true) (cs : List Char) :
    (munch kind cs).1.isOperator = true := by
  induction cs generalizing kind with
  | nil => exact h
  | cons c cs ih =>
    simp only [munch]
    cases hk : kind.longer? with
    | none => exact h
    | some next =>
      simp only
      split
      · exact ih (TokenKind.isOperator_longer hk)
      · exact h

theorem tokenFrom_continued :
    tokenFrom p ('\\' :: '\n' :: ds) = tokenFrom ((p.after '\\').after '\n') ds := by
  simp [tokenFrom, TokenKind.ofStart?]

theorem tokenFrom_escape (hd : d ≠ '\n') : tokenFrom p ('\\' :: d :: ds) =
    (word ((p.after '\\').after d) ds).map fun (value, t) =>
      (⟨.identifier, String.ofList (d :: value), p⟩, t) := by
  simp [tokenFrom, TokenKind.ofStart?, hd]

theorem tokenFrom_operator {kind : TokenKind} (hc : TokenKind.ofStart? c = some kind)
    (hbackslash : kind ≠ .backslash) : tokenFrom p (c :: cs) =
      .ok (⟨(munch kind cs).1, String.ofList (c :: (munch kind cs).2.1), p⟩,
        ⟨(p.after c).past (munch kind cs).2.1, (munch kind cs).2.2⟩) := by
  unfold tokenFrom
  simp only [hc]

theorem tokenFrom_gap (hc : isGap c = true) : tokenFrom p (c :: cs) =
    .ok (⟨.whitespace, String.ofList (c :: cs.takeWhile isGap), p⟩,
      ⟨(p.after c).past (cs.takeWhile isGap), cs.dropWhile isGap⟩) := by
  unfold tokenFrom
  simp only [ofStart?_of_isGap hc, hc, if_true]

theorem tokenFrom_word (hc : isWordChar c = true) : tokenFrom p (c :: cs) =
    (word (p.after c) cs).map fun (value, t) => (⟨.identifier, String.ofList (c :: value), p⟩, t) := by
  obtain ⟨hgap, hstart⟩ := isWordChar_iff.1 hc
  unfold tokenFrom
  simp [hstart, hgap]

end Tape

namespace Source

variable {s : Source} {p : Position} {c : Char} {cs : List Char}

theorem token_operator {s₁ : Source} {u : Token} (hu : s.unit = (s₁, .ok u))
    (hop : u.kind.isOperator = true) : s.token = (s₁, .ok u) := by
  rw [token_unit hu]
  split <;> simp_all [TokenKind.isOperator]

/-- An answer of a source is this token and leaves a tape, or is this fault. -/
def Yields (answer : Source × Except Halt Token) : Except Fault (Token × Tape) → Prop
  | .ok (token, t) => answer.2 = .ok token ∧ answer.1.Shows t
  | .error cause => answer.2 = .error (.fault cause)

/-- A word that begins with these characters. -/
theorem yields_word {token : Token} (first : List Char) (hkind : token.kind = .identifier)
    (hvalue : token.value = String.ofList first) (h : s.Shows ⟨p, cs⟩) :
    Yields (s.extend token) ((Tape.word p cs).map fun (value, t) =>
      ({ token with value := String.ofList (first ++ value) }, t)) := by
  have hextends := extends_of_shows hkind h
  revert hextends
  cases Tape.word p cs with
  | error cause =>
    rintro ⟨s', hs'⟩
    exact congrArg Prod.snd hs'
  | ok r =>
    rintro ⟨s', hs', hshows⟩
    refine ⟨(congrArg Prod.snd hs').trans ?_, by rw [hs']; exact hshows⟩
    rw [hvalue, ← String.ofList_append]

theorem head_dropWhile_isGap {rest : List Char} (h : cs.dropWhile isGap = c :: rest) :
    isGap c = false := by
  have := List.head?_dropWhile_not isGap cs
  rw [h] at this
  simpa using this

/-- White space that nothing more belongs to. -/
theorem yields_gap {token : Token} (hkind : token.kind = .whitespace) (h : s.Shows ⟨p, cs⟩)
    (hstop : ∀ c rest, cs = c :: rest → isGap c = false) :
    Yields (s.extend token) (.ok (token, ⟨p, cs⟩)) := by
  cases cs with
  | nil =>
    obtain ⟨s', hpeek, h'⟩ := peek_nil h
    rw [extend_end hpeek rfl]
    exact ⟨rfl, h'⟩
  | cons c rest =>
    obtain ⟨s', hpeek, h'⟩ := peek_cons h
    rw [extend_stop hpeek (by simp [joins, hkind, hstop c rest rfl])]
    exact ⟨rfl, h'⟩

/-- The first step of reading a token from a text: there is no token, or it is a whole token, or the
first characters of a word, or a continued line end in front of the token. -/
inductive Beginning (s : Source) (p : Position) (cs : List Char) : Prop where
  | fails {s' : Source} {cause : Fault} (hstep : s.token = (s', .error (.fault cause)))
    (hlast : s'.position = p.past cs) (htoken : Tape.tokenFrom p cs = .error cause)
  | whole {s' : Source} {token : Token} {t : Tape} (hstep : s.token = (s', .ok token))
    (h : s'.Shows t) (htoken : Tape.tokenFrom p cs = .ok (token, t))
  | word {s' : Source} (first : List Char) {taken rest : List Char} (hcs : cs = taken ++ rest)
    (hstep : s.token = s'.extend ⟨.identifier, String.ofList first, p⟩)
    (h : s'.Shows ⟨p.past taken, rest⟩)
    (htoken : Tape.tokenFrom p cs = (Tape.word (p.past taken) rest).map fun r =>
      (⟨.identifier, String.ofList (first ++ r.1), p⟩, r.2))
  | skips {s' : Source} {taken rest : List Char} (hcs : cs = taken ++ rest)
    (hlt : rest.length < cs.length) (hstep : s.token = s'.token)
    (h : s'.Shows ⟨p.past taken, rest⟩)
    (htoken : Tape.tokenFrom p cs = Tape.tokenFrom (p.past taken) rest)

theorem beginning_of_shows (h : s.Shows ⟨p, cs⟩) : s.Beginning p cs := by
  cases cs with
  | nil =>
    obtain ⟨s', hpeek, h'⟩ := peek_nil h
    have hunit : s.unit = (s', .error (.fault .endOfStream)) := by rw [unit, hpeek]
    exact .fails (token_fail hunit) h'.position rfl
  | cons c cs =>
    cases hstart : TokenKind.ofStart? c with
    | none =>
      cases hgap : isGap c with
      | true =>
        obtain ⟨s₁, hunit, h₁⟩ := unit_gap hgap h
        have hyields : Yields s.token (Tape.tokenFrom p (c :: cs)) := by
          rw [Tape.tokenFrom_gap hgap, token_unit hunit]
          exact yields_gap rfl h₁ fun c rest => head_dropWhile_isGap
        rw [Tape.tokenFrom_gap hgap] at hyields
        exact .whole (Prod.ext rfl hyields.1) hyields.2 (Tape.tokenFrom_gap hgap)
      | false =>
        have hword := isWordChar_iff.2 ⟨hgap, hstart⟩
        obtain ⟨s₁, hunit, h₁⟩ := unit_word hword h
        have hsplit : c :: cs = (c :: cs.takeWhile isWordChar) ++ cs.dropWhile isWordChar := by
          rw [List.cons_append, List.takeWhile_append_dropWhile]
        have hrun := Tape.word_append (p := p.after c) (cs.dropWhile isWordChar)
          (List.all_takeWhile (p := isWordChar) (l := cs))
        rw [List.takeWhile_append_dropWhile] at hrun
        refine .word (c :: cs.takeWhile isWordChar) hsplit (token_unit hunit) h₁ ?_
        rw [Tape.tokenFrom_word hword, hrun, Position.past_cons]
        cases Tape.word _ (cs.dropWhile isWordChar) <;> rfl
    | some kind =>
      by_cases hkind : kind = .backslash
      · obtain rfl := TokenKind.eq_of_ofStart?_backslash (hstart.trans (congrArg some hkind))
        obtain ⟨s₁, h₁, hunit⟩ := unit_of_shows h
        cases cs with
        | nil =>
          obtain ⟨s₂, hescaped, h₂⟩ := escapedChar_nil p h₁
          exact .fails (token_fail (hunit.trans hescaped)) h₂.position rfl
        | cons d ds =>
          obtain ⟨s₂, hescaped, h₂⟩ := escapedChar_cons p h₁
          have hfirst := token_unit (hunit.trans hescaped)
          have htaken : '\\' :: d :: ds = ['\\', d] ++ ds := rfl
          by_cases hd : d = '\n'
          · subst hd
            have hlt : ds.length < ('\\' :: '\n' :: ds).length := by
              rw [List.length_cons, List.length_cons]
              omega
            exact .skips htaken hlt hfirst h₂ Tape.tokenFrom_continued
          · rw [if_neg hd] at hfirst
            exact .word [d] htaken hfirst h₂ (Tape.tokenFrom_escape hd)
      · obtain ⟨s₁, hunit, h₁⟩ := unit_operator hstart hkind h
        have hop := Tape.isOperator_munch (TokenKind.isOperator_start hstart hkind) cs
        exact .whole (token_operator hunit hop) h₁ (Tape.tokenFrom_operator hstart hkind)

/-- Reading a token from a source is reading it from its tape. -/
theorem token_of_shows {t : Tape} (h : s.Shows t) : Yields s.token t.token := by
  obtain ⟨p, cs⟩ := t
  -- a continued line end is skipped, so the induction is on the length of the text
  induction hn : cs.length using Nat.strongRecOn generalizing s p cs with
  | ind n ih =>
    subst hn
    rw [Tape.token]
    cases beginning_of_shows h with
    | fails hstep _ htoken =>
      rw [htoken, hstep]
      rfl
    | whole hstep h' htoken =>
      rw [htoken, hstep]
      exact ⟨rfl, h'⟩
    | word _ _ hstep h' htoken =>
      rw [htoken, hstep]
      exact yields_word _ rfl rfl h'
    | skips _ hlt hstep h' htoken =>
      rw [htoken, hstep]
      exact ih _ hlt _ _ h' rfl

/-- Reading up to a single quote from a source is reading it from its tape. -/
theorem verbatim_of_shows {t : Tape} (h : s.Shows t) : Yields s.verbatim t.verbatim := by
  obtain ⟨p, cs⟩ := t
  obtain ⟨s', hscan, h'⟩ := scan_of_shows isNotQuote h
  simp only [verbatim, hscan, Tape.verbatim]
  cases hrest : cs.dropWhile isNotQuote with
  | nil => rfl
  | cons c rest =>
    rw [hrest] at h'
    obtain ⟨s'', hread, h''⟩ := read_cons h'
    simp only [reduceCtorEq, if_false, hread]
    exact ⟨by rw [h.position], h''⟩

end Source

end PocketShell
