import PocketShell.Proofs.Lexing

/-!
# Texts that go on

What is read of a text, wherever it stands and whatever follows it.

* `Position.Parallel` : a relation between positions in two texts that both keep as they go on, such
  as being some lines apart;
* `Tape.alike_tokenFrom`, `Tape.alike_verbatim` : of the same text the same tokens are read in both;
* `EndsTokens` : the characters that no token before them goes on with, such as a line break;
* `Tape.tokenFrom_behind`, `Tape.verbatim_behind` : the tokens of a text are read before such a
  character as well, and where the text has no more the next one begins (`tokenFrom_of_end`);
* `Tape.last` : the position at the end of a text, which reading does not change. There all faults
  are found (`Source.token_halts`, `Source.verbatim_halts`).
-/

namespace PocketShell

/-! ## Positions -/

namespace Position

/-- The same column, some lines further down. -/
def down (n : Nat) (p : Position) : Position := { p with line := p.line + n }

/-- A relation between positions that no character breaks. -/
def Parallel (R : Position → Position → Prop) : Prop :=
  ∀ p q c, R p q → R (p.after c) (q.after c)

theorem parallel_down (n : Nat) : Parallel fun p q => q = p.down n := by
  rintro p q c rfl
  unfold after down
  split
  · simp only [Nat.add_right_comm]
  · rfl

theorem Parallel.past {R : Position → Position → Prop} (hR : Parallel R) {p q : Position}
    (h : R p q) (cs : List Char) : R (p.past cs) (q.past cs) := by
  induction cs generalizing p q with
  | nil => exact h
  | cons c cs ih => exact ih (hR p q c h)

theorem past_append (p : Position) (cs ds : List Char) :
    p.past (cs ++ ds) = (p.past cs).past ds := List.foldl_append

theorem line_past (p : Position) (cs : List Char) :
    (p.past cs).line = p.line + cs.count '\n' := by
  induction cs generalizing p with
  | nil => rfl
  | cons c cs ih =>
    rw [past_cons, ih, after, List.count_cons]
    by_cases hc : c = '\n'
    · simp only [hc, if_true, beq_self_eq_true]
      omega
    · have hne : (c == '\n') = false := by simp [hc]
      simp only [hc, hne, if_false, Bool.false_eq_true]
      omega

end Position

/-! ## The same text elsewhere -/

/-- The same token in two places. -/
structure Token.Alike (R : Position → Position → Prop) (a b : Token) : Prop where
  kind : b.kind = a.kind
  value : b.value = a.value
  position : R a.position b.position

namespace Tape

/-- The same text is left in two places. -/
structure Alike (R : Position → Position → Prop) (t u : Tape) : Prop where
  chars : u.chars = t.chars
  position : R t.position u.position

/-- The same was read in two places, and the same is left. -/
inductive Both {α : Type} (R : Position → Position → Prop) (S : α → α → Prop) :
    Except Fault (α × Tape) → Except Fault (α × Tape) → Prop where
  | ok {a b : α} {t u : Tape} (hread : S a b) (hleft : Alike R t u) :
    Both R S (.ok (a, t)) (.ok (b, u))
  | error (cause : Fault) : Both R S (.error cause) (.error cause)

variable {R : Position → Position → Prop} {p q : Position} {cs : List Char} {t u : Tape}

theorem Both.ok_left {α : Type} {S : α → α → Prop} {a : α} {y : Except Fault (α × Tape)}
    (h : Both R S (.ok (a, t)) y) : ∃ b u, y = .ok (b, u) ∧ S a b ∧ Alike R t u := by
  cases h with
  | ok hread hleft => exact ⟨_, _, rfl, hread, hleft⟩

theorem Both.error_left {α : Type} {S : α → α → Prop} {cause : Fault}
    {y : Except Fault (α × Tape)} (h : Both R S (.error cause) y) : y = .error cause := by
  cases h
  rfl

theorem Both.map {α β : Type} {S : α → α → Prop} {S' : β → β → Prop}
    {x y : Except Fault (α × Tape)} (h : Both R S x y) (f g : α → β)
    (hS : ∀ a b, S a b → S' (f a) (g b)) :
    Both R S' (x.map fun (a, t) => (f a, t)) (y.map fun (b, u) => (g b, u)) := by
  cases h with
  | ok hread hleft => exact .ok (hS _ _ hread) hleft
  | error cause => exact .error cause

theorem both_word (hR : Position.Parallel R) (h : R p q) (cs : List Char) :
    Both R Eq (word p cs) (word q cs) := by
  fun_induction word p cs generalizing q with
  | case1 p => exact .ok rfl ⟨rfl, h⟩
  | case2 p =>
    rw [word_escape_nil]
    exact .error _
  | case3 p d ds ih =>
    rw [word_escape]
    have hboth := ih (hR _ _ _ (hR _ _ _ h))
    exact hboth.map (fun value => if d = '\n' then value else d :: value) _
      fun a b hab => congrArg _ hab
  | case4 p c cs hescape hc ih =>
    rw [word_char hc]
    have hboth := ih (hR _ _ _ h)
    exact hboth.map (c :: ·) _ fun a b hab => congrArg _ hab
  | case5 p c cs hescape hc =>
    rw [word_stop (Bool.eq_false_iff.2 hc) hescape]
    exact .ok rfl ⟨rfl, h⟩

theorem both_word_token (hR : Position.Parallel R) (h : R p q) (c : Char) {p' q' : Position}
    (h' : R p' q') (cs : List Char) :
    Both R (Token.Alike R)
      ((word p cs).map fun (value, t) => (⟨.identifier, String.ofList (c :: value), p'⟩, t))
      ((word q cs).map fun (value, t) => (⟨.identifier, String.ofList (c :: value), q'⟩, t)) := by
  refine (both_word hR h cs).map (fun value => Token.mk .identifier (String.ofList (c :: value)) p')
    (fun value => Token.mk .identifier (String.ofList (c :: value)) q') ?_
  rintro value _ rfl
  exact ⟨rfl, rfl, h'⟩

theorem alike_tokenFrom (hR : Position.Parallel R) (h : R p q) (cs : List Char) :
    Both R (Token.Alike R) (tokenFrom p cs) (tokenFrom q cs) := by
  fun_induction tokenFrom p cs generalizing q with
  | case1 p => exact .error _
  | case2 p c hc =>
    obtain rfl := TokenKind.eq_of_ofStart?_backslash hc
    exact .error _
  | case3 p c hc ds ih =>
    obtain rfl := TokenKind.eq_of_ofStart?_backslash hc
    rw [tokenFrom_continued]
    exact ih (hR _ _ _ (hR _ _ _ h))
  | case4 p c hc d ds hd =>
    obtain rfl := TokenKind.eq_of_ofStart?_backslash hc
    rw [tokenFrom_escape hd]
    exact both_word_token hR (hR _ _ _ (hR _ _ _ h)) d h ds
  | case5 p c cs start hstart hc kind taken rest hmunch =>
    rw [tokenFrom_operator hc hstart, hmunch]
    exact .ok ⟨rfl, rfl, h⟩ ⟨rfl, hR.past (hR _ _ _ h) taken⟩
  | case6 p c cs hc hgap =>
    rw [tokenFrom_gap hgap]
    exact .ok ⟨rfl, rfl, h⟩ ⟨rfl, hR.past (hR _ _ _ h) _⟩
  | case7 p c cs hc hgap =>
    rw [tokenFrom_word (isWordChar_iff.2 ⟨Bool.eq_false_iff.2 hgap, hc⟩)]
    exact both_word_token hR (hR _ _ _ h) c h cs

theorem alike_verbatim (hR : Position.Parallel R) (h : Alike R t u) :
    Both R (Token.Alike R) t.verbatim u.verbatim := by
  obtain ⟨p, cs⟩ := t
  obtain ⟨q, ds⟩ := u
  obtain ⟨rfl, hposition⟩ := h
  simp only [verbatim]
  cases ds.dropWhile isNotQuote with
  | nil => exact .error _
  | cons c rest => exact .ok ⟨rfl, rfl, hposition⟩ ⟨rfl, hR _ _ _ (hR.past hposition _)⟩

end Tape

/-! ## Before a character that ends tokens -/

/-- No token before this character goes on with it. -/
structure EndsTokens (e : Char) : Prop where
  word : isWordChar e = false
  escape : e ≠ '\\'
  gap : isGap e = false
  longer : ∀ kind more longer, TokenKind.longer? kind = some (more, longer) → e ≠ more

theorem endsTokens_of_mem {e : Char} (h : e ∈ ['\n', ')', '\x60']) : EndsTokens e := by
  simp only [List.mem_cons, List.not_mem_nil, or_false] at h
  rcases h with rfl | rfl | rfl
  all_goals
    refine ⟨by decide, by decide, by decide, fun kind more longer h => ?_⟩
    rintro rfl
    cases kind <;> simp [TokenKind.longer?] at h

namespace Tape

variable {p : Position} {cs rest value : List Char} {t : Tape} {token : Token} {e : Char}

/-- The tape with more text behind it. -/
def behind (t : Tape) (rest : List Char) : Tape := ⟨t.position, t.chars ++ rest⟩

theorem munch_behind (he : EndsTokens e) (kind : TokenKind) (cs rest : List Char) :
    munch kind (cs ++ e :: rest) =
      ((munch kind cs).1, (munch kind cs).2.1, (munch kind cs).2.2 ++ e :: rest) := by
  induction cs generalizing kind with
  | nil =>
    rw [List.nil_append, munch, munch]
    cases hk : kind.longer? with
    | none => rfl
    | some next =>
      obtain ⟨more, longer⟩ := next
      simp only [he.longer kind more longer hk, if_false]
      rfl
  | cons c cs ih =>
    rw [List.cons_append, munch, munch]
    cases hk : kind.longer? with
    | none => rfl
    | some next =>
      obtain ⟨more, longer⟩ := next
      by_cases hc : c = more
      · simp only [hc, if_true, ih]
      · simp only [hc, if_false, List.cons_append]

/-- A word that was made something of. -/
theorem word_of_map_eq_ok {α : Type} {make : List Char × Tape → α} {a : α}
    (h : (word p cs).map make = .ok a) :
    ∃ value t, word p cs = .ok (value, t) ∧ make (value, t) = a := by
  cases hw : word p cs with
  | error cause =>
    rw [hw] at h
    cases h
  | ok r =>
    rw [hw] at h
    exact ⟨r.1, r.2, rfl, Except.ok.inj h⟩

theorem word_behind (he : EndsTokens e) (h : word p cs = .ok (value, t)) :
    word p (cs ++ e :: rest) = .ok (value, t.behind (e :: rest)) := by
  fun_induction word p cs generalizing value t with
  | case1 p =>
    obtain ⟨rfl, rfl⟩ := Prod.mk.inj (Except.ok.inj h)
    exact word_stop he.word he.escape
  | case2 p => cases h
  | case3 p d ds ih =>
    rw [List.cons_append, List.cons_append, word_escape]
    obtain ⟨value, t, hw, hmake⟩ := word_of_map_eq_ok h
    obtain ⟨rfl, rfl⟩ := Prod.mk.inj hmake
    rw [ih hw]
    rfl
  | case4 p c cs hescape hc ih =>
    rw [List.cons_append, word_char hc]
    obtain ⟨value, t, hw, hmake⟩ := word_of_map_eq_ok h
    obtain ⟨rfl, rfl⟩ := Prod.mk.inj hmake
    rw [ih hw]
    rfl
  | case5 p c cs hescape hc =>
    obtain ⟨rfl, rfl⟩ := Prod.mk.inj (Except.ok.inj h)
    exact word_stop (Bool.eq_false_iff.2 hc) hescape

theorem takeWhile_behind {q : Char → Bool} (he : q e = false) (cs rest : List Char) :
    (cs ++ e :: rest).takeWhile q = cs.takeWhile q ∧
      (cs ++ e :: rest).dropWhile q = cs.dropWhile q ++ e :: rest := by
  induction cs with
  | nil => simp [he]
  | cons c cs ih =>
    cases hc : q c with
    | true => simpa [hc] using ih
    | false => simp [hc]

theorem tokenFrom_behind (he : EndsTokens e) (h : tokenFrom p cs = .ok (token, t)) :
    tokenFrom p (cs ++ e :: rest) = .ok (token, t.behind (e :: rest)) := by
  fun_induction tokenFrom p cs with
  | case1 p => cases h
  | case2 p c hc => cases h
  | case3 p c hc ds ih =>
    obtain rfl := TokenKind.eq_of_ofStart?_backslash hc
    rw [List.cons_append, List.cons_append, tokenFrom_continued, ih h]
  | case4 p c hc d ds hd =>
    obtain rfl := TokenKind.eq_of_ofStart?_backslash hc
    rw [List.cons_append, List.cons_append, tokenFrom_escape hd]
    obtain ⟨value, t, hw, hmake⟩ := word_of_map_eq_ok h
    obtain ⟨rfl, rfl⟩ := Prod.mk.inj hmake
    rw [word_behind he hw]
    rfl
  | case5 p c cs start hstart hc kind taken left hmunch =>
    obtain ⟨rfl, rfl⟩ := Prod.mk.inj (Except.ok.inj h)
    rw [List.cons_append, tokenFrom_operator hc hstart, munch_behind he, hmunch]
    rfl
  | case6 p c cs hc hgap =>
    obtain ⟨rfl, rfl⟩ := Prod.mk.inj (Except.ok.inj h)
    obtain ⟨htake, hdrop⟩ := takeWhile_behind (q := isGap) he.gap cs rest
    rw [List.cons_append, tokenFrom_gap hgap, htake, hdrop]
    rfl
  | case7 p c cs hc hgap =>
    rw [List.cons_append, tokenFrom_word (isWordChar_iff.2 ⟨Bool.eq_false_iff.2 hgap, hc⟩)]
    obtain ⟨value, t, hw, hmake⟩ := word_of_map_eq_ok h
    obtain ⟨rfl, rfl⟩ := Prod.mk.inj hmake
    rw [word_behind he hw]
    rfl

theorem word_error {cause : Fault} (h : word p cs = .error cause) : cause = .unexpectedEnd := by
  fun_induction word p cs with
  | case1 p => cases h
  | case2 p => exact (Except.error.inj h).symm
  | case3 p d ds ih =>
    cases hw : word ((p.after '\\').after d) ds with
    | error cause' =>
      rw [hw] at h
      exact ih (hw.trans h)
    | ok r =>
      rw [hw] at h
      cases h
  | case4 p c cs hescape hc ih =>
    cases hw : word (p.after c) cs with
    | error cause' =>
      rw [hw] at h
      exact ih (hw.trans h)
    | ok r =>
      rw [hw] at h
      cases h
  | case5 p c cs hescape hc => cases h

theorem word_map_error {α : Type} {make : List Char × Tape → α} {cause : Fault}
    (h : (word p cs).map make = .error cause) :
    word p cs = .error .unexpectedEnd ∧ cause = .unexpectedEnd := by
  cases hw : word p cs with
  | error cause' =>
    rw [hw] at h
    obtain rfl := word_error hw
    exact ⟨rfl, (Except.error.inj h).symm⟩
  | ok r =>
    rw [hw] at h
    cases h

theorem tokenFrom_error {cause : Fault} (h : tokenFrom p cs = .error cause) :
    cause = .endOfStream ∨ cause = .unexpectedEnd := by
  fun_induction tokenFrom p cs with
  | case1 p => exact .inl (Except.error.inj h).symm
  | case2 p c hc => exact .inr (Except.error.inj h).symm
  | case3 p c hc ds ih => exact ih h
  | case4 p c hc d ds hd => exact .inr (word_map_error h).2
  | case5 p c cs start hstart hc kind taken left hmunch => cases h
  | case6 p c cs hc hgap => cases h
  | case7 p c cs hc hgap => exact .inr (word_map_error h).2

theorem verbatim_error {cause : Fault} (h : t.verbatim = .error cause) :
    cause = .unexpectedEnd := by
  unfold verbatim at h
  cases hrest : t.chars.dropWhile isNotQuote with
  | nil =>
    rw [hrest] at h
    exact (Except.error.inj h).symm
  | cons c rest =>
    rw [hrest] at h
    cases h

/-- Where a text has no more tokens, the tokens of what follows begin. -/
theorem tokenFrom_of_end (h : tokenFrom p cs = .error .endOfStream) (rest : List Char) :
    tokenFrom p (cs ++ rest) = tokenFrom (p.past cs) rest := by
  fun_induction tokenFrom p cs with
  | case1 p => rfl
  | case2 p c hc => cases h
  | case3 p c hc ds ih =>
    obtain rfl := TokenKind.eq_of_ofStart?_backslash hc
    rw [List.cons_append, List.cons_append, tokenFrom_continued, ih h]
    rfl
  | case4 p c hc d ds hd => cases (word_map_error h).2
  | case5 p c cs start hstart hc kind taken left hmunch => cases h
  | case6 p c cs hc hgap => cases h
  | case7 p c cs hc hgap => cases (word_map_error h).2

theorem verbatim_behind {t' : Tape} (h : t.verbatim = .ok (token, t')) (rest : List Char) :
    (t.behind rest).verbatim = .ok (token, t'.behind rest) := by
  obtain ⟨p, cs⟩ := t
  cases hrest : cs.dropWhile isNotQuote with
  | nil =>
    simp only [verbatim, hrest] at h
    cases h
  | cons c left =>
    have hlength :=
      congrArg List.length (List.takeWhile_append_dropWhile (p := isNotQuote) (l := cs))
    rw [hrest, List.length_append, List.length_cons] at hlength
    have htake : (cs ++ rest).takeWhile isNotQuote = cs.takeWhile isNotQuote := by
      rw [List.takeWhile_append, if_neg (by omega)]
    have hdrop : (cs ++ rest).dropWhile isNotQuote = c :: (left ++ rest) := by
      rw [List.dropWhile_append, hrest]
      rfl
    simp only [verbatim, behind, hrest, htake, hdrop] at h ⊢
    obtain ⟨rfl, rfl⟩ := Prod.mk.inj (Except.ok.inj h)
    rfl

/-! ## The end of a text -/

/-- The position at the end of a text. -/
def last (t : Tape) : Position := t.position.past t.chars

theorem Alike.last {R : Position → Position → Prop} {u : Tape} (h : Alike R t u)
    (hR : Position.Parallel R) : R t.last u.last := by
  unfold Tape.last
  rw [h.chars]
  exact hR.past h.position t.chars

theorem munch_split (kind : TokenKind) (cs : List Char) :
    cs = (munch kind cs).2.1 ++ (munch kind cs).2.2 := by
  fun_induction munch kind cs with
  | case1 => rfl
  | case2 => rfl
  | case3 kind c cs longer hk kind' taken rest hmunch ih =>
    rw [hmunch] at ih
    simp [← ih]
  | case4 => rfl

theorem word_split (h : word p cs = .ok (value, t)) :
    ∃ taken, cs = taken ++ t.chars ∧ t.position = p.past taken := by
  fun_induction word p cs generalizing value t with
  | case1 p =>
    obtain ⟨rfl, rfl⟩ := Prod.mk.inj (Except.ok.inj h)
    exact ⟨[], rfl, rfl⟩
  | case2 p => cases h
  | case3 p d ds ih =>
    obtain ⟨value, t, hw, hmake⟩ := word_of_map_eq_ok h
    obtain ⟨rfl, rfl⟩ := Prod.mk.inj hmake
    obtain ⟨taken, htaken, hposition⟩ := ih hw
    exact ⟨'\\' :: d :: taken, by rw [htaken]; rfl, hposition⟩
  | case4 p c cs hescape hc ih =>
    obtain ⟨value, t, hw, hmake⟩ := word_of_map_eq_ok h
    obtain ⟨rfl, rfl⟩ := Prod.mk.inj hmake
    obtain ⟨taken, htaken, hposition⟩ := ih hw
    exact ⟨c :: taken, by rw [htaken]; rfl, hposition⟩
  | case5 p c cs hescape hc =>
    obtain ⟨rfl, rfl⟩ := Prod.mk.inj (Except.ok.inj h)
    exact ⟨[], rfl, rfl⟩

/-- A token takes some characters, and the rest of the text follows. -/
theorem tokenFrom_split (h : tokenFrom p cs = .ok (token, t)) :
    ∃ taken, taken ≠ [] ∧ cs = taken ++ t.chars ∧ t.position = p.past taken := by
  fun_induction tokenFrom p cs with
  | case1 p => cases h
  | case2 p c hc => cases h
  | case3 p c hc ds ih =>
    obtain ⟨taken, -, htaken, hposition⟩ := ih h
    exact ⟨c :: '\n' :: taken, by simp, by rw [htaken]; rfl, hposition⟩
  | case4 p c hc d ds hd =>
    obtain ⟨value, t, hw, hmake⟩ := word_of_map_eq_ok h
    obtain ⟨rfl, rfl⟩ := Prod.mk.inj hmake
    obtain ⟨taken, htaken, hposition⟩ := word_split hw
    exact ⟨c :: d :: taken, by simp, by rw [htaken]; rfl, hposition⟩
  | case5 p c cs start hstart hc kind taken left hmunch =>
    obtain ⟨rfl, rfl⟩ := Prod.mk.inj (Except.ok.inj h)
    have hsplit := munch_split start cs
    rw [hmunch] at hsplit
    exact ⟨c :: taken, by simp, by rw [hsplit]; rfl, rfl⟩
  | case6 p c cs hc hgap =>
    obtain ⟨rfl, rfl⟩ := Prod.mk.inj (Except.ok.inj h)
    refine ⟨c :: cs.takeWhile isGap, by simp, ?_, rfl⟩
    rw [List.cons_append, List.takeWhile_append_dropWhile]
  | case7 p c cs hc hgap =>
    obtain ⟨value, t, hw, hmake⟩ := word_of_map_eq_ok h
    obtain ⟨rfl, rfl⟩ := Prod.mk.inj hmake
    obtain ⟨taken, htaken, hposition⟩ := word_split hw
    exact ⟨c :: taken, by simp, by rw [htaken]; rfl, hposition⟩

theorem verbatim_split {t' : Tape} (h : t.verbatim = .ok (token, t')) :
    ∃ taken, taken ≠ [] ∧ t.chars = taken ++ t'.chars ∧ t'.position = t.position.past taken := by
  obtain ⟨p, cs⟩ := t
  cases hrest : cs.dropWhile isNotQuote with
  | nil =>
    simp only [verbatim, hrest] at h
    cases h
  | cons c left =>
    simp only [verbatim, hrest] at h
    obtain ⟨rfl, rfl⟩ := Prod.mk.inj (Except.ok.inj h)
    refine ⟨cs.takeWhile isNotQuote ++ [c], by simp, ?_, ?_⟩
    · rw [List.append_assoc, List.singleton_append, ← hrest, List.takeWhile_append_dropWhile]
    · rw [Position.past_append]
      rfl

end Tape

namespace Source

variable {s : Source} {p : Position} {cs : List Char} {cause : Fault}

/-- A word that cannot be read to its end leaves nothing of the text. -/
theorem extend_halts {token : Token} (htoken : token.kind = .identifier) (hs : s.Shows ⟨p, cs⟩)
    (h : Tape.word p cs = .error cause) : (s.extend token).1.position = p.past cs := by
  induction hn : cs.length using Nat.strongRecOn generalizing s p cs token with
  | ind n ih =>
    subst hn
    cases extending_of_shows htoken hs with
    | ends _ _ hword =>
      rw [hword] at h
      cases h
    | breaksOff hstep hlast _ =>
      rw [hstep]
      exact hlast
    | goesOn _ hcs hlt hstep h' hword =>
      rw [hword] at h
      obtain ⟨hfault, rfl⟩ := Tape.word_map_error h
      rw [hstep, hcs, Position.past_append]
      exact ih _ hlt htoken h' hfault rfl

/-- A fault is found at the end of the text. -/
theorem token_halts {t : Tape} (hs : s.Shows t) (h : t.token = .error cause) :
    s.token.1.position = t.last := by
  obtain ⟨p, cs⟩ := t
  induction hn : cs.length using Nat.strongRecOn generalizing s p cs with
  | ind n ih =>
    subst hn
    rw [Tape.token] at h
    rw [Tape.last]
    cases beginning_of_shows hs with
    | fails hstep hlast _ =>
      rw [hstep]
      exact hlast
    | whole _ _ htoken =>
      rw [htoken] at h
      cases h
    | word _ hcs hstep h' htoken =>
      rw [htoken] at h
      rw [hstep, hcs, Position.past_append]
      exact extend_halts rfl h' (Tape.word_map_error h).1
    | skips hcs hlt hstep h' htoken =>
      rw [htoken] at h
      rw [hstep, hcs, Position.past_append]
      exact ih _ hlt _ _ h' h rfl

theorem verbatim_halts {t : Tape} (hs : s.Shows t) (h : t.verbatim = .error cause) :
    s.verbatim.1.position = t.last := by
  obtain ⟨p, cs⟩ := t
  obtain ⟨s', hscan, h'⟩ := scan_of_shows isNotQuote hs
  cases hrest : cs.dropWhile isNotQuote with
  | nil =>
    rw [hrest] at h'
    simp only [verbatim, hscan, hrest, if_true]
    have hall := List.takeWhile_append_dropWhile (p := isNotQuote) (l := cs)
    rw [hrest, List.append_nil] at hall
    rw [h'.position, hall]
    rfl
  | cons c rest =>
    simp only [Tape.verbatim, hrest] at h
    cases h

end Source

end PocketShell
