import PocketShell.Proofs.Lexing.MaximalMunch

/-!
# Continued line ends leave no trace

A backslash at the end of a line may be put into a text anywhere but inside an operator or a gap, and
behind no backslash that would escape it. No token changes by it.

* `Token.CutBy` : a text ends strictly inside a token;
* `Tape.Mends` : the same was read from a text and from the text with a continued line end in it;
* `Tape.mends_word`, `Tape.mends_tokenFrom` : words go on behind it, and other tokens end before it;
* `Tape.Lexed.mends` : so all tokens of the two texts are the same.
-/

namespace PocketShell

/-- Whether tokens of this kind have no escapes in them, so that their value is their text. -/
def TokenKind.isSolid (kind : TokenKind) : Bool := kind.isOperator || kind = .whitespace

/-- The end of a text that begins at `p` is strictly inside the token: the token begins `n`
characters into the text and ends behind it. -/
def Token.CutBy (p : Position) (text : List Char) (token : Token) : Prop :=
  ∃ n < text.length, token.position = p.past (text.take n) ∧
    text.length < n + token.value.toList.length

instance (p : Position) (text : List Char) (token : Token) : Decidable (token.CutBy p text) :=
  inferInstanceAs (Decidable (∃ n, n < text.length ∧ token.position = p.past (text.take n) ∧
    text.length < n + token.value.toList.length))

theorem Token.CutBy.behind {p : Position} {text : List Char} {token : Token} (first : List Char)
    (h : token.CutBy (p.past first) text) : token.CutBy p (first ++ text) := by
  obtain ⟨n, hn, hposition, hlength⟩ := h
  refine ⟨first.length + n, ?_, ?_, ?_⟩
  · rw [List.length_append]
    omega
  · rw [hposition, List.take_length_add_append, Position.past_append]
  · rw [List.length_append]
    omega

/-- Positions that need have nothing to do with each other. -/
def Anywhere (_ _ : Position) : Prop := True

theorem parallel_anywhere : Position.Parallel Anywhere := fun _ _ _ _ => trivial

namespace Tape

variable {p q : Position} {before after : List Char}

/-- The same was read from a text and from the same text with a continued line end before `after`.
That line end was passed in the second text, or both have the same text left before it. -/
inductive Mends {α : Type} (S : α → α → Prop) (p : Position) (before after : List Char) :
    Except Fault (α × Tape) → Except Fault (α × Tape) → Prop where
  | past {a b : α} {t u : Tape} (hread : S a b) (hchars : u.chars = t.chars) :
    Mends S p before after (.ok (a, t)) (.ok (b, u))
  | ahead {a b : α} (taken left : List Char) (q : Position) (hread : S a b)
    (hbefore : before = taken ++ left) (hwhole : breaksOff left = false) :
    Mends S p before after (.ok (a, ⟨p.past taken, left ++ after⟩))
      (.ok (b, ⟨q, left ++ '\\' :: '\n' :: after⟩))
  | error (cause : Fault) : Mends S p before after (.error cause) (.error cause)

theorem Both.mends {α : Type} {R : Position → Position → Prop} {S : α → α → Prop}
    {x y : Except Fault (α × Tape)} (h : Both R S x y) : Mends S p before after x y := by
  cases h with
  | ok hread hleft => exact .past hread hleft.chars
  | error cause => exact .error cause

theorem Mends.map {α β : Type} {S : α → α → Prop} {S' : β → β → Prop}
    {x y : Except Fault (α × Tape)} (h : Mends S p before after x y) (f g : α → β)
    (hS : ∀ a b, S a b → S' (f a) (g b)) :
    Mends S' p before after (x.map fun (a, t) => (f a, t)) (y.map fun (b, u) => (g b, u)) := by
  cases h with
  | past hread hchars => exact .past (hS _ _ hread) hchars
  | ahead taken left q hread hbefore hwhole => exact .ahead taken left q (hS _ _ hread) hbefore hwhole
  | error cause => exact .error cause

/-- Some characters stand before all that was read. -/
theorem Mends.behind {α : Type} {S : α → α → Prop} {x y : Except Fault (α × Tape)}
    (first : List Char) (h : Mends S (p.past first) before after x y) :
    Mends S p (first ++ before) after x y := by
  cases h with
  | past hread hchars => exact .past hread hchars
  | ahead taken left q hread hbefore hwhole =>
    rw [← Position.past_append]
    exact .ahead (first ++ taken) left q hread (by rw [hbefore, List.append_assoc]) hwhole
  | error cause => exact .error cause

/-- A word goes on behind a continued line end. -/
theorem mends_word (p q : Position) (after : List Char) (h : breaksOff before = false) :
    Mends Eq p before after (word p (before ++ after))
      (word q (before ++ '\\' :: '\n' :: after)) := by
  fun_induction breaksOff before generalizing p q with
  | case1 =>
    rw [List.nil_append, List.nil_append, word_escape]
    have hboth : Both _ Eq (word p after) (word ((q.after '\\').after '\n') after) :=
      both_word parallel_anywhere trivial after
    revert hboth
    cases word ((q.after '\\').after '\n') after with
    | error cause => exact Both.mends
    | ok r => exact Both.mends
  | case2 => cases h
  | case3 d ds ih =>
    rw [List.cons_append, List.cons_append, List.cons_append, List.cons_append, word_escape,
      word_escape]
    have hrest := ih (p.past ['\\', d]) ((q.after '\\').after d) h
    exact (hrest.behind ['\\', d]).map (fun value => if d = '\n' then value else d :: value) _
      fun a b hab => congrArg _ hab
  | case4 c cs hc ih =>
    rw [List.cons_append, List.cons_append]
    cases hword : isWordChar c with
    | true =>
      rw [word_char hword, word_char hword]
      have hrest := ih (p.past [c]) (q.after c) h
      exact (hrest.behind [c]).map (c :: ·) _ fun a b hab => congrArg _ hab
    | false =>
      rw [word_stop hword hc, word_stop hword hc]
      have hstop : breaksOff (c :: cs) = false := (breaksOff_char hc).trans h
      exact .ahead [] (c :: cs) q rfl rfl hstop

section munch

variable {kind kind' longer : TokenKind} {c : Char} {cs taken left : List Char}

theorem munch_of_stop (h : ∀ c ∈ cs.head?, ∀ longer, kind.longer? ≠ some (c, longer)) :
    munch kind cs = (kind, [], cs) := by
  cases cs with
  | nil => rfl
  | cons c cs =>
    rw [munch]
    cases hk : kind.longer? with
    | none => rfl
    | some next =>
      obtain ⟨more, longer⟩ := next
      have hc : c ≠ more := by
        rintro rfl
        exact h c rfl longer hk
      simp only [hc, if_false]

theorem munch_of_longer (h : kind.longer? = some (c, longer)) (cs : List Char) :
    munch kind (c :: cs) =
      ((munch longer cs).1, c :: (munch longer cs).2.1, (munch longer cs).2.2) := by
  rw [munch]
  simp only [h, if_true]

/-- An operator goes on with the next character, or it ends. -/
theorem munch_cases (kind : TokenKind) (cs : List Char) :
    (∀ c ∈ cs.head?, ∀ longer, kind.longer? ≠ some (c, longer)) ∨
      ∃ c rest longer, cs = c :: rest ∧ kind.longer? = some (c, longer) := by
  cases cs with
  | nil => exact .inl (by simp)
  | cons c rest =>
    by_cases h : ∃ longer, kind.longer? = some (c, longer)
    · obtain ⟨longer, hk⟩ := h
      exact .inr ⟨c, rest, longer, rfl, hk⟩
    · refine .inl fun d hd longer hk => h ⟨longer, ?_⟩
      obtain rfl : c = d := by simpa using hd
      exact hk

/-- No operator goes on with a backslash. -/
theorem munch_backslash (h : munch kind (taken ++ (left ++ after)) = (kind', taken, left ++ after))
    (rest : List Char) :
    munch kind (taken ++ (left ++ '\\' :: rest)) = (kind', taken, left ++ '\\' :: rest) := by
  induction taken generalizing kind with
  | nil =>
    rcases munch_cases kind (left ++ after) with hstop | ⟨c, rest', longer, hleft, hk⟩
    · rw [List.nil_append, munch_of_stop hstop] at h
      obtain rfl := (Prod.mk.inj h).1
      refine munch_of_stop fun c hc longer hk => ?_
      cases left with
      | nil =>
        obtain rfl : '\\' = c := by simpa using hc
        cases kind <;> simp [TokenKind.longer?] at hk
      | cons d left => exact hstop c hc longer hk
    · rw [List.nil_append, hleft, munch_of_longer hk] at h
      simp at h
  | cons c taken ih =>
    rcases munch_cases kind (c :: (taken ++ (left ++ after))) with
      hstop | ⟨_, _, longer, heq, hk⟩
    · rw [List.cons_append, munch_of_stop hstop] at h
      simp at h
    · obtain ⟨rfl, rfl⟩ := List.cons.inj heq
      rw [List.cons_append, munch_of_longer hk] at h
      simp only [Prod.mk.injEq, List.cons.injEq, true_and] at h
      rw [List.cons_append, munch_of_longer hk, ih (Prod.ext h.1 (Prod.ext h.2.1 h.2.2))]

end munch

/-- What was taken before the end of `before` leaves something of it. -/
theorem exists_left {taken rest : List Char} (h : before ++ after = taken ++ rest)
    (hlength : taken.length ≤ before.length) :
    ∃ left, before = taken ++ left ∧ rest = left ++ after := by
  obtain ⟨left, rfl⟩ := List.prefix_of_prefix_length_le (h ▸ List.prefix_append taken rest)
    (List.prefix_append before after) hlength
  rw [List.append_assoc] at h
  exact ⟨left, rfl, (List.append_cancel_left h).symm⟩

theorem breaksOff_left {taken left : List Char} (h : breaksOff (taken ++ left) = false)
    (hescape : '\\' ∉ taken) : breaksOff left = false := by
  rwa [breaksOff_append (breaksOff_of_not_mem hescape)] at h

/-- The token of a word whose rest has been read. -/
theorem Mends.token {x y : Except Fault (List Char × Tape)} (h : Mends Eq p before after x y)
    (c : Char) (start start' : Position) :
    Mends (Token.Alike Anywhere) p before after
      (x.map fun (value, t) => (⟨.identifier, String.ofList (c :: value), start⟩, t))
      (y.map fun (value, t) => (⟨.identifier, String.ofList (c :: value), start'⟩, t)) := by
  refine h.map (fun value => Token.mk .identifier (String.ofList (c :: value)) start)
    (fun value => Token.mk .identifier (String.ofList (c :: value)) start') ?_
  rintro value _ rfl
  exact ⟨rfl, rfl, trivial⟩

/-- The end of `before` is not strictly inside the first token, unless that is a word. -/
def Uncut (p : Position) (before after : List Char) : Prop :=
  ∀ token t, tokenFrom p (before ++ after) = .ok (token, t) → token.kind.isSolid = true →
    ¬token.CutBy p before

theorem Uncut.behind (first : List Char) (h : Uncut p (first ++ before) after)
    (hfirst : tokenFrom p (first ++ (before ++ after)) =
      tokenFrom (p.past first) (before ++ after)) :
    Uncut (p.past first) before after := by
  intro token t htoken hsolid hcut
  rw [← hfirst, ← List.append_assoc] at htoken
  exact h token t htoken hsolid (hcut.behind first)

/-- A token that begins at once. -/
theorem Uncut.length_le {c : Char} {cs value : List Char} {kind : TokenKind} {t : Tape}
    (h : Uncut p (c :: cs) after) (hsolid : kind.isSolid = true)
    (htoken : tokenFrom p (c :: (cs ++ after)) = .ok (⟨kind, String.ofList (c :: value), p⟩, t)) :
    value.length ≤ cs.length := by
  refine Nat.le_of_not_lt fun hlt => h _ t htoken hsolid ⟨0, Nat.succ_pos _, rfl, ?_⟩
  rw [String.toList_ofList, List.length_cons, List.length_cons]
  omega

section token

variable {c : Char} {cs : List Char}

/-- An operator ends before the continued line end. -/
theorem mends_operator {kind : TokenKind} (hstart : TokenKind.ofStart? c = some kind)
    (hbackslash : kind ≠ .backslash) (q : Position) (h : breaksOff cs = false)
    (huncut : Uncut p (c :: cs) after) :
    Mends (Token.Alike Anywhere) p (c :: cs) after (tokenFrom p (c :: (cs ++ after)))
      (tokenFrom q (c :: (cs ++ '\\' :: '\n' :: after))) := by
  have htoken : tokenFrom p (c :: (cs ++ after)) = _ := tokenFrom_operator hstart hbackslash
  have hop := isOperator_munch (TokenKind.isOperator_start hstart hbackslash) (cs ++ after)
  have hescape := backslash_not_mem_munch kind (cs ++ after)
  have hsplit := munch_split kind (cs ++ after)
  rw [htoken, tokenFrom_operator hstart hbackslash]
  rcases hmunch : munch kind (cs ++ after) with ⟨kind', taken, rest⟩
  rw [hmunch] at htoken hop hescape hsplit
  have hsolid : kind'.isSolid = true := by rw [TokenKind.isSolid, hop, Bool.true_or]
  obtain ⟨left, rfl, rfl⟩ := exists_left hsplit (huncut.length_le hsolid htoken)
  rw [List.append_assoc] at hmunch
  rw [List.append_assoc, munch_backslash hmunch]
  exact .ahead (c :: taken) left _ ⟨rfl, rfl, trivial⟩ rfl (breaksOff_left h hescape)

/-- A gap ends before the continued line end. -/
theorem mends_gap (hgap : isGap c = true) (q : Position) (h : breaksOff cs = false)
    (huncut : Uncut p (c :: cs) after) :
    Mends (Token.Alike Anywhere) p (c :: cs) after (tokenFrom p (c :: (cs ++ after)))
      (tokenFrom q (c :: (cs ++ '\\' :: '\n' :: after))) := by
  have htoken : tokenFrom p (c :: (cs ++ after)) = _ := tokenFrom_gap hgap
  have hall : ((cs ++ after).takeWhile isGap).all isGap = true := List.all_takeWhile
  have hstop := run_stops isGap (cs ++ after)
  have hsplit : cs ++ after = _ ++ (cs ++ after).dropWhile isGap :=
    List.takeWhile_append_dropWhile.symm
  have hlength := huncut.length_le rfl htoken
  rw [htoken, tokenFrom_gap hgap]
  generalize (cs ++ after).takeWhile isGap = taken at *
  generalize (cs ++ after).dropWhile isGap = rest at *
  obtain ⟨left, rfl, rfl⟩ := exists_left hsplit hlength
  have hstop' : ∀ d ∈ (left ++ '\\' :: '\n' :: after).head?, isGap d = false := by
    cases left with
    | nil => simp [isGap]
    | cons d left => exact hstop
  have hescape : '\\' ∉ taken := fun hmem =>
    absurd (List.all_eq_true.1 hall _ hmem) (by decide)
  have htake := takeWhile_run hall hstop'
  have hdrop := List.takeWhile_append_dropWhile (p := isGap)
    (l := taken ++ (left ++ '\\' :: '\n' :: after))
  rw [htake] at hdrop
  rw [List.append_assoc, htake, List.append_cancel_left hdrop]
  exact .ahead (c :: taken) left _ ⟨rfl, rfl, trivial⟩ rfl (breaksOff_left h hescape)

/-- The first token is the same in both texts. -/
theorem mends_tokenFrom (p q : Position) (h : breaksOff before = false)
    (huncut : Uncut p before after) :
    Mends (Token.Alike Anywhere) p before after (tokenFrom p (before ++ after))
      (tokenFrom q (before ++ '\\' :: '\n' :: after)) := by
  fun_induction breaksOff before generalizing p q with
  | case1 =>
    rw [List.nil_append, List.nil_append, tokenFrom_continued]
    exact (alike_tokenFrom parallel_anywhere trivial after).mends
  | case2 => cases h
  | case3 d ds ih =>
    rw [List.cons_append, List.cons_append, List.cons_append, List.cons_append]
    by_cases hd : d = '\n'
    · subst hd
      rw [tokenFrom_continued, tokenFrom_continued]
      have hrest := ih (p.past ['\\', '\n']) ((q.after '\\').after '\n') h
        (huncut.behind ['\\', '\n'] tokenFrom_continued)
      exact hrest.behind ['\\', '\n']
    · rw [tokenFrom_escape hd, tokenFrom_escape hd]
      have hrest := mends_word (p.past ['\\', d]) ((q.after '\\').after d) after h
      exact (hrest.behind ['\\', d]).token d p q
  | case4 c cs hc ih =>
    rw [List.cons_append, List.cons_append]
    cases hstart : TokenKind.ofStart? c with
    | some kind =>
      refine mends_operator hstart ?_ q h huncut
      rintro rfl
      exact hc (TokenKind.eq_of_ofStart?_backslash hstart)
    | none =>
      cases hgap : isGap c with
      | true => exact mends_gap hgap q h huncut
      | false =>
        have hword := isWordChar_iff.2 ⟨hgap, hstart⟩
        rw [tokenFrom_word hword, tokenFrom_word hword]
        have hrest := mends_word (p.past [c]) (q.after c) after h
        exact (hrest.behind [c]).token c p q

end token

end Tape

/-! ## All tokens -/

/-- A token without its position. -/
def Token.content (token : Token) : TokenKind × String := (token.kind, token.value)

theorem Token.Alike.content_eq {R : Position → Position → Prop} {a b : Token} (h : Alike R a b) :
    a.content = b.content := by
  rw [content, content, h.kind, h.value]

namespace Tape.Lexed

variable {t u : Tape} {tokens tokens' : List Token} {cause cause' : Fault} {before after : List Char}

theorem of_error (h : Lexed t tokens cause) (hstop : t.token = .error cause') :
    tokens = [] ∧ cause = cause' := by
  cases h with
  | stop h => exact ⟨rfl, Except.error.inj (h.symm.trans hstop)⟩
  | token h _ => cases h.symm.trans hstop

theorem of_ok {token : Token} (h : Lexed t tokens cause) (hnext : t.token = .ok (token, u)) :
    ∃ rest, tokens = token :: rest ∧ Lexed u rest cause := by
  cases h with
  | stop h => cases h.symm.trans hnext
  | token h hrest =>
    obtain ⟨rfl, rfl⟩ := Prod.mk.inj (Except.ok.inj (h.symm.trans hnext))
    exact ⟨_, rfl, hrest⟩

theorem both_token (hchars : u.chars = t.chars) :
    Both Anywhere (Token.Alike Anywhere) t.token u.token := by
  rw [Tape.token, Tape.token, hchars]
  exact alike_tokenFrom parallel_anywhere trivial t.chars

/-- The same text has the same tokens anywhere. -/
theorem alike (h : Lexed t tokens cause) (h' : Lexed u tokens' cause') (hchars : u.chars = t.chars) :
    cause' = cause ∧ tokens'.map Token.content = tokens.map Token.content := by
  induction h generalizing u tokens' with
  | @stop t cause h =>
    have hboth := both_token hchars
    rw [h] at hboth
    obtain ⟨rfl, rfl⟩ := h'.of_error hboth.error_left
    exact ⟨rfl, rfl⟩
  | @token t t' token tokens cause h _ ih =>
    have hboth := both_token hchars
    rw [h] at hboth
    obtain ⟨token', u', hnext, htoken, hleft⟩ := hboth.ok_left
    obtain ⟨rest, rfl, hrest'⟩ := h'.of_ok hnext
    obtain ⟨hcause, htokens⟩ := ih hrest' hleft.chars
    rw [List.map_cons, List.map_cons, htokens, htoken.content_eq]
    exact ⟨hcause, rfl⟩

theorem mends_token (ht : t.chars = before ++ after)
    (hu : u.chars = before ++ '\\' :: '\n' :: after) (hwhole : breaksOff before = false)
    (huncut : ∀ token t', t.token = .ok (token, t') → token.kind.isSolid = true →
      ¬token.CutBy t.position before) :
    Mends (Token.Alike Anywhere) t.position before after t.token u.token := by
  unfold Tape.token at huncut ⊢
  rw [ht] at huncut ⊢
  rw [hu]
  exact mends_tokenFrom t.position u.position hwhole huncut

/-- A continued line end changes no token. -/
theorem mends (h : Lexed t tokens cause) (h' : Lexed u tokens' cause')
    (ht : t.chars = before ++ after) (hu : u.chars = before ++ '\\' :: '\n' :: after)
    (hwhole : breaksOff before = false)
    (huncut : ∀ token ∈ tokens, token.kind.isSolid = true → ¬token.CutBy t.position before) :
    cause' = cause ∧ tokens'.map Token.content = tokens.map Token.content := by
  induction h generalizing u tokens' before with
  | @stop t cause h =>
    have hmends := mends_token ht hu hwhole fun token t' htoken => by cases h.symm.trans htoken
    rw [h] at hmends
    generalize hnext : u.token = next at hmends
    cases hmends
    obtain ⟨rfl, rfl⟩ := h'.of_error hnext
    exact ⟨rfl, rfl⟩
  | @token t t' token tokens cause h hrest ih =>
    obtain ⟨hfirst, hall⟩ := List.forall_mem_cons.1 huncut
    have hmends := mends_token ht hu hwhole fun token₁ t₁ htoken => by
      obtain ⟨rfl, rfl⟩ := Prod.mk.inj (Except.ok.inj (h.symm.trans htoken))
      exact hfirst
    rw [h] at hmends
    generalize hnext : u.token = next at hmends
    cases hmends with
    | past hread hchars =>
      obtain ⟨rest, rfl, hrest'⟩ := h'.of_ok hnext
      obtain ⟨hcause, htokens⟩ := hrest.alike hrest' hchars
      rw [List.map_cons, List.map_cons, htokens, hread.content_eq]
      exact ⟨hcause, rfl⟩
    | ahead taken left q hread hbefore hleft =>
      subst hbefore
      obtain ⟨rest, rfl, hrest'⟩ := h'.of_ok hnext
      obtain ⟨hcause, htokens⟩ := ih hrest' rfl rfl hleft fun token htoken hsolid hcut =>
        hall token htoken hsolid (hcut.behind taken)
      rw [List.map_cons, List.map_cons, htokens, hread.content_eq]
      exact ⟨hcause, rfl⟩

end Tape.Lexed

/-- **Continued line ends leave no trace.** Put into a text at any place that is not strictly inside
an operator or a gap, and not behind a backslash that escapes what follows it, a continued line end
changes no kind and no value of a token, and not how the text ends. -/
theorem tokensOf_continued (before after : String) (hwhole : breaksOff before.toList = false)
    (huncut : ∀ token ∈ (tokensOf (before ++ after)).1,
      token.kind.isOperator = true ∨ token.kind = .whitespace → ¬token.CutBy {} before.toList) :
    (tokensOf (before ++ "\\\n" ++ after)).1.map Token.content =
        (tokensOf (before ++ after)).1.map Token.content ∧
      (tokensOf (before ++ "\\\n" ++ after)).2.1 = (tokensOf (before ++ after)).2.1 := by
  obtain ⟨cause, hlexed, hhalt⟩ := exists_lexed_tokensOf (before ++ after)
  obtain ⟨cause', hlexed', hhalt'⟩ := exists_lexed_tokensOf (before ++ "\\\n" ++ after)
  have hchars : (before ++ "\\\n" ++ after).toList =
      before.toList ++ '\\' :: '\n' :: after.toList := by simp
  have hsolid : ∀ token ∈ (tokensOf (before ++ after)).1, token.kind.isSolid = true →
      ¬token.CutBy {} before.toList := fun token htoken hkind =>
    huncut token htoken (by simpa [TokenKind.isSolid] using hkind)
  obtain ⟨rfl, htokens⟩ := hlexed.mends hlexed' String.toList_append hchars hwhole hsolid
  exact ⟨htokens, hhalt'.trans hhalt.symm⟩

/-- Inside a word, behind an escape, in a text that breaks off. -/
theorem tokensOf_continued_word :
    breaksOff "<<a\\|".toList = false ∧
      (∀ token ∈ (tokensOf ("<<a\\|" ++ "b c\\")).1,
        token.kind.isOperator = true ∨ token.kind = .whitespace →
          ¬token.CutBy {} "<<a\\|".toList) ∧
      (tokensOf ("<<a\\|" ++ "\\\n" ++ "b c\\")).1.map Token.content =
        [(.ltLt, "<<"), (.identifier, "a|b"), (.whitespace, " ")] ∧
      (tokensOf ("<<a\\|" ++ "\\\n" ++ "b c\\")).2.1 = .fault .unexpectedEnd := by
  have hwhole : breaksOff "<<a\\|".toList = false := by decide
  have huncut : ∀ token ∈ (tokensOf ("<<a\\|" ++ "b c\\")).1,
      token.kind.isOperator = true ∨ token.kind = .whitespace →
        ¬token.CutBy {} "<<a\\|".toList := by decide +kernel
  obtain ⟨htokens, hhalt⟩ := tokensOf_continued "<<a\\|" "b c\\" hwhole huncut
  exact ⟨hwhole, huncut, htokens.trans (by decide +kernel), hhalt.trans (by decide +kernel)⟩

end PocketShell
