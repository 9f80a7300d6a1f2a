import PocketShell.Proofs.Lexing.Conservation

/-!
# Maximal munch

Without backslashes, a text is cut into the longest runs and the longest operators that it can be
cut into from left to right.

* `operators` : the texts of all operators. Every beginning of an operator is one as well
  (`operators_take`), and what makes an operator longer is one character (`longer?_iff_mem`);
* `Munches` : a unit is the longest one with which a text begins. There is at most one
  (`Munches.unique`);
* `Factors` : a text is cut into such units;
* `Tape.munches_munch` : making an operator longer character by character ends with the longest
  operator;
* `Lexed.factors` : tokens are such units.
-/

namespace PocketShell

/-! ## Operators -/

/-- All operators but the backslash. -/
def operators : List (List Char × TokenKind) :=
  [ (['('], .lparen), ([')'], .rparen), (['#'], .hash), ([';'], .semicolon), (['\n'], .newline),
    (['\''], .quote), (['"'], .dblQuote), (['\x60'], .backtick),
    (['|'], .pipe), (['|', '|'], .pipePipe),
    (['&'], .amp), (['&', '&'], .ampAmp),
    (['<'], .lt), (['<', '<'], .ltLt), (['<', '<', '<'], .ltLtLt),
    (['>'], .gt), (['>', '>'], .gtGt),
    (['$'], .dollar), (['$', '('], .dollarParen) ]

/-- Whether an operator begins with the character. -/
def beginsOperator (c : Char) : Bool := operators.any fun op => op.1.head? = some c

/-- The characters of words: they are no white space, and no operator begins with them. -/
def isPlainChar (c : Char) : Bool := !isGap c && !beginsOperator c

section operators

variable {c : Char} {value : List Char} {kind kind' : TokenKind}

/-- An operator has one kind. -/
theorem operators_unique (h : (value, kind) ∈ operators) (h' : (value, kind') ∈ operators) :
    kind = kind' := by
  have hall : ∀ op ∈ operators, ∀ op' ∈ operators, op.1 = op'.1 → op.2 = op'.2 := by decide
  exact hall _ h _ h' rfl

theorem operators_ne_nil (h : (value, kind) ∈ operators) : value ≠ [] := by
  have hall : ∀ op ∈ operators, op.1 ≠ [] := by decide
  exact hall _ h

theorem operators_kind (h : (value, kind) ∈ operators) :
    kind ≠ .whitespace ∧ kind ≠ .identifier := by
  have hall : ∀ op ∈ operators, op.2 ≠ .whitespace ∧ op.2 ≠ .identifier := by decide
  exact hall _ h

/-- The beginning of an operator is an operator. -/
theorem operators_take {n : Nat} (h : (value, kind) ∈ operators) (hn : 0 < n)
    (hlength : n ≤ value.length) : ∃ kind', (value.take n, kind') ∈ operators := by
  have hall : ∀ op ∈ operators, op.1.length ≤ 3 ∧
      ∀ n ∈ [1, 2, 3], ∃ op' ∈ operators, op'.1 = op.1.take n := by decide
  obtain ⟨hthree, htake⟩ : value.length ≤ 3 ∧ _ := hall _ h
  have hmem : n ∈ [1, 2, 3] := by
    simp only [List.mem_cons, List.not_mem_nil, or_false]
    omega
  obtain ⟨op, hop, heq⟩ := htake n hmem
  exact ⟨op.2, heq ▸ hop⟩

/-- What one more character makes of an operator. -/
theorem longer?_iff_mem (h : (value, kind) ∈ operators) :
    kind.longer? = some (c, kind') ↔ (value ++ [c], kind') ∈ operators := by
  constructor
  · intro hlonger
    have hall : ∀ op ∈ operators,
        op.2.longer?.all fun next => (op.1 ++ [next.1], next.2) ∈ operators := by decide
    have hnext := hall _ h
    rw [hlonger] at hnext
    exact of_decide_eq_true hnext
  · intro hlonger
    have hall : ∀ op ∈ operators, ∀ op' ∈ operators, op'.1 = op.1 ++ [op'.1.getLastD ' '] →
        op.2.longer? = some (op'.1.getLastD ' ', op'.2) := by decide
    have hnext := hall _ h _ hlonger
    rw [List.getLastD_concat] at hnext
    exact hnext rfl

theorem ofStart?_iff_mem : TokenKind.ofStart? c = some kind ∧ kind ≠ .backslash ↔
    ([c], kind) ∈ operators := by
  constructor
  · rintro ⟨hstart, hbackslash⟩
    unfold TokenKind.ofStart? at hstart
    split at hstart <;> simp_all [operators]
  · intro hmem
    have hall : ∀ op ∈ operators, op.1 = [op.1.headD ' '] →
        TokenKind.ofStart? (op.1.headD ' ') = some op.2 ∧ op.2 ≠ .backslash := by decide
    exact hall _ hmem rfl

/-- Words are made of the same characters, backslashes apart. -/
theorem isPlainChar_eq (hc : c ≠ '\\') : isPlainChar c = isWordChar c := by
  have hstart : beginsOperator c = startsOperator c := by
    rw [Bool.eq_iff_iff, beginsOperator, startsOperator, List.any_eq_true, Option.isSome_iff_exists]
    constructor
    · rintro ⟨⟨value, kind⟩, hmem, hhead⟩
      obtain ⟨rest, rfl⟩ := List.head?_eq_some_iff.1 (of_decide_eq_true hhead)
      obtain ⟨kind', hone⟩ := operators_take hmem Nat.one_pos (by simp)
      exact ⟨kind', (ofStart?_iff_mem.2 hone).1⟩
    · rintro ⟨kind, hkind⟩
      have hbackslash : kind ≠ .backslash := by
        rintro rfl
        exact hc (TokenKind.eq_of_ofStart?_backslash hkind)
      exact ⟨_, ofStart?_iff_mem.1 ⟨hkind, hbackslash⟩, by simp⟩
  rw [isPlainChar, isWordChar, hstart]

end operators

/-! ## Units -/

/-- A text begins with this unit, and with no longer one. -/
inductive Munches : TokenKind → List Char → List Char → Prop where
  | gap {value rest : List Char} (hne : value ≠ []) (hall : value.all isGap = true)
    (hstop : ∀ c ∈ rest.head?, isGap c = false) : Munches .whitespace value rest
  | word {value rest : List Char} (hne : value ≠ []) (hall : value.all isPlainChar = true)
    (hstop : ∀ c ∈ rest.head?, isPlainChar c = false) : Munches .identifier value rest
  | operator {kind : TokenKind} {value rest : List Char} (hmem : (value, kind) ∈ operators)
    (hlongest : ∀ op ∈ operators, op.1 <+: value ++ rest → op.1.length ≤ value.length) :
    Munches kind value rest

/-- A text is cut into such units. -/
inductive Factors : List Char → List (TokenKind × List Char) → Prop where
  | nil : Factors [] []
  | cons {kind : TokenKind} {value rest : List Char} {units : List (TokenKind × List Char)}
    (hfirst : Munches kind value rest) (hrest : Factors rest units) :
    Factors (value ++ rest) ((kind, value) :: units)

/-- A run of characters of a class that ends where the class does. -/
theorem takeWhile_run {p : Char → Bool} {run rest : List Char} (hall : run.all p = true)
    (hstop : ∀ c ∈ rest.head?, p c = false) : (run ++ rest).takeWhile p = run := by
  rw [List.takeWhile_append_of_pos (List.all_eq_true.1 hall)]
  cases rest with
  | nil => simp
  | cons c rest => simp [hstop c rfl]

namespace Munches

variable {kind kind' : TokenKind} {value value' rest rest' : List Char}

theorem ne_nil (h : Munches kind value rest) : value ≠ [] := by
  cases h with
  | gap hne => exact hne
  | word hne => exact hne
  | operator hmem => exact operators_ne_nil hmem

/-- The first character tells which kind of unit it is. -/
theorem first (h : Munches kind value rest) :
    ∃ c cs, value = c :: cs ∧ (isGap c = true ↔ kind = .whitespace) ∧
      (isPlainChar c = true ↔ kind = .identifier) := by
  obtain ⟨c, cs, rfl⟩ := List.exists_cons_of_ne_nil h.ne_nil
  refine ⟨c, cs, rfl, ?_⟩
  cases h with
  | gap _ hall =>
    rw [List.all_cons, Bool.and_eq_true] at hall
    simp [isPlainChar, hall.1]
  | word _ hall =>
    rw [List.all_cons, Bool.and_eq_true] at hall
    have hgap : isGap c = false := by
      rw [isPlainChar, Bool.and_eq_true, Bool.not_eq_true'] at hall
      exact hall.1.1
    simp [hall.1, hgap]
  | operator hmem =>
    have hall : ∀ op ∈ operators, isGap (op.1.headD ' ') = false ∧
        isPlainChar (op.1.headD ' ') = false := by decide
    obtain ⟨hgap, hplain⟩ : isGap c = false ∧ isPlainChar c = false := hall _ hmem
    simpa [hgap, hplain] using operators_kind hmem

theorem eq_takeWhile_isGap (h : Munches .whitespace value rest) :
    value = (value ++ rest).takeWhile isGap := by
  cases h with
  | gap _ hall hstop => exact (takeWhile_run hall hstop).symm
  | operator hmem => exact absurd rfl (operators_kind hmem).1

theorem eq_takeWhile_isPlainChar (h : Munches .identifier value rest) :
    value = (value ++ rest).takeWhile isPlainChar := by
  cases h with
  | word _ hall hstop => exact (takeWhile_run hall hstop).symm
  | operator hmem => exact absurd rfl (operators_kind hmem).2

theorem longest (h : Munches kind value rest) (hgap : kind ≠ .whitespace)
    (hword : kind ≠ .identifier) :
    (value, kind) ∈ operators ∧
      ∀ op ∈ operators, op.1 <+: value ++ rest → op.1.length ≤ value.length := by
  cases h with
  | gap => exact absurd rfl hgap
  | word => exact absurd rfl hword
  | operator hmem hlongest => exact ⟨hmem, hlongest⟩

/-- A text begins with one unit at most. -/
theorem unique (h : Munches kind value rest) (h' : Munches kind' value' rest')
    (heq : value ++ rest = value' ++ rest') : kind = kind' ∧ value = value' ∧ rest = rest' := by
  suffices hsame : kind = kind' ∧ value = value' from
    ⟨hsame.1, hsame.2, List.append_cancel_left (hsame.2 ▸ heq)⟩
  obtain ⟨c, cs, hvalue, hgap, hplain⟩ := h.first
  obtain ⟨d, ds, hvalue', hgap', hplain'⟩ := h'.first
  obtain rfl : c = d := by
    rw [hvalue, hvalue'] at heq
    exact (List.cons.inj heq).1
  by_cases hkind : kind = .whitespace
  · obtain rfl := hgap'.1 (hgap.2 hkind)
    subst hkind
    exact ⟨rfl, by rw [h.eq_takeWhile_isGap, heq, ← h'.eq_takeWhile_isGap]⟩
  · by_cases hword : kind = .identifier
    · obtain rfl := hplain'.1 (hplain.2 hword)
      subst hword
      exact ⟨rfl, by rw [h.eq_takeWhile_isPlainChar, heq, ← h'.eq_takeWhile_isPlainChar]⟩
    · have hkind' : kind' ≠ .whitespace := fun hk => hkind (hgap.1 (hgap'.2 hk))
      have hword' : kind' ≠ .identifier := fun hk => hword (hplain.1 (hplain'.2 hk))
      obtain ⟨hmem, hlongest⟩ := h.longest hkind hword
      obtain ⟨hmem', hlongest'⟩ := h'.longest hkind' hword'
      -- both operators begin the text, and neither is longer than the other
      have hle := hlongest _ hmem' (heq ▸ List.prefix_append value' rest')
      have hle' := hlongest' _ hmem (heq ▸ List.prefix_append value rest)
      obtain rfl := (List.append_inj heq (Nat.le_antisymm hle' hle)).1
      exact ⟨operators_unique hmem hmem', rfl⟩

end Munches

namespace Factors

variable {cs : List Char} {units units' : List (TokenKind × List Char)}

theorem cases_first (h : Factors cs units) : cs = [] ∧ units = [] ∨
    ∃ kind value rest left, cs = value ++ rest ∧ units = (kind, value) :: left ∧
      Munches kind value rest ∧ Factors rest left := by
  cases h with
  | nil => exact .inl ⟨rfl, rfl⟩
  | cons hfirst hrest => exact .inr ⟨_, _, _, _, rfl, rfl, hfirst, hrest⟩

/-- A text is cut into units in one way at most. -/
theorem unique (h : Factors cs units) (h' : Factors cs units') : units = units' := by
  induction h generalizing units' with
  | nil =>
    rcases h'.cases_first with ⟨-, rfl⟩ | ⟨_, _, _, _, hnil, -, hfirst, -⟩
    · rfl
    · exact absurd (List.append_eq_nil_iff.1 hnil.symm).1 hfirst.ne_nil
  | @cons kind value rest units hfirst _ ih =>
    rcases h'.cases_first with ⟨hnil, -⟩ | ⟨_, _, _, _, heq, rfl, hfirst', hrest'⟩
    · exact absurd (List.append_eq_nil_iff.1 hnil).1 hfirst.ne_nil
    · obtain ⟨rfl, rfl, rfl⟩ := hfirst.unique hfirst' heq
      rw [ih hrest']

end Factors

/-! ## Tokens are units -/

namespace Tape

variable {p : Position} {c : Char} {cs value : List Char} {t t' : Tape} {token : Token}
  {kind : TokenKind}

/-- An operator that the next character does not make longer is the longest one: of a longer one,
the part with one character more would be an operator as well. -/
theorem munches_of_stop (h : (value, kind) ∈ operators)
    (hnext : ∀ c ∈ cs.head?, ∀ longer, kind.longer? ≠ some (c, longer)) :
    Munches kind value cs := by
  refine .operator h fun op hop hprefix => Nat.le_of_not_lt fun hlt => ?_
  obtain ⟨kind', hlonger⟩ := operators_take hop (Nat.succ_pos value.length) hlt
  cases cs with
  | nil =>
    have hle := hprefix.length_le
    rw [List.append_nil] at hle
    omega
  | cons c cs =>
    have htake : op.1.take (value.length + 1) = value ++ [c] := by
      rw [List.prefix_iff_eq_take.1 hprefix, List.take_take, Nat.min_eq_left hlt,
        List.append_cons, List.take_left' (by simp)]
    rw [Nat.succ_eq_add_one, htake] at hlonger
    exact hnext c rfl kind' ((longer?_iff_mem h).2 hlonger)

/-- An operator that is made longer character by character ends as the longest one. -/
theorem munches_munch (h : (value, kind) ∈ operators) (cs : List Char) :
    Munches (munch kind cs).1 (value ++ (munch kind cs).2.1) (munch kind cs).2.2 := by
  fun_induction munch kind cs generalizing value with
  | case1 kind =>
    rw [List.append_nil]
    exact munches_of_stop h (by simp)
  | case2 kind c cs hk =>
    rw [List.append_nil]
    exact munches_of_stop h (by simp [hk])
  | case3 kind c cs longer hk kind' taken rest hmunch ih =>
    have hrest := ih ((longer?_iff_mem h).1 hk)
    rwa [hmunch, List.append_assoc] at hrest
  | case4 kind c cs more longer hk hc =>
    rw [List.append_nil]
    refine munches_of_stop h fun d hd longer' => ?_
    obtain rfl : c = d := by simpa using hd
    rw [hk]
    intro heq
    exact hc (Prod.mk.inj (Option.some.inj heq)).1.symm

/-- A token that is an operator has the text of that operator. -/
theorem mem_operators_of_token (h : tokenFrom p cs = .ok (token, t))
    (hop : token.kind.isOperator = true) : (token.value.toList, token.kind) ∈ operators := by
  fun_induction tokenFrom p cs with
  | case1 p => cases h
  | case2 p c hc => cases h
  | case3 p c hc ds ih => exact ih h
  | case4 p c hc d ds hd =>
    obtain ⟨value, t, -, hmake⟩ := word_of_map_eq_ok h
    obtain ⟨rfl, rfl⟩ := Prod.mk.inj hmake
    cases hop
  | case5 p c cs start hstart hc kind taken left hmunch =>
    obtain ⟨rfl, rfl⟩ := Prod.mk.inj (Except.ok.inj h)
    have hmunches := munches_munch (ofStart?_iff_mem.1 ⟨hc, hstart⟩) cs
    rw [hmunch] at hmunches
    rw [String.toList_ofList]
    refine (hmunches.longest ?_ ?_).1
    · rintro rfl
      cases hop
    · rintro rfl
      cases hop
  | case6 p c cs hc hgap =>
    obtain ⟨rfl, rfl⟩ := Prod.mk.inj (Except.ok.inj h)
    cases hop
  | case7 p c cs hc hgap =>
    obtain ⟨value, t, -, hmake⟩ := word_of_map_eq_ok h
    obtain ⟨rfl, rfl⟩ := Prod.mk.inj hmake
    cases hop

/-- Without backslashes, a word is a run of its characters. -/
theorem word_eq_takeWhile (h : '\\' ∉ cs) :
    word p cs = .ok (cs.takeWhile isWordChar,
      ⟨p.past (cs.takeWhile isWordChar), cs.dropWhile isWordChar⟩) := by
  induction cs generalizing p with
  | nil => rfl
  | cons c cs ih =>
    rw [List.mem_cons, not_or] at h
    cases hc : isWordChar c with
    | true =>
      rw [word_char hc, ih h.2, List.takeWhile_cons_of_pos hc, List.dropWhile_cons_of_pos hc]
      rfl
    | false =>
      rw [word_stop hc (Ne.symm h.1), List.takeWhile_cons_of_neg (by simp [hc]),
        List.dropWhile_cons_of_neg (by simp [hc])]
      rfl

/-- Without backslashes, a token is the unit with which the text begins. -/
theorem munches_token (hescape : '\\' ∉ cs) (h : tokenFrom p cs = .ok (token, t)) :
    cs = token.value.toList ++ t.chars ∧ Munches token.kind token.value.toList t.chars := by
  cases cs with
  | nil => cases h
  | cons c cs =>
    obtain ⟨hc, hcs⟩ := not_or.1 (mt List.mem_cons.2 hescape)
    cases hstart : TokenKind.ofStart? c with
    | some kind =>
      have hbackslash : kind ≠ .backslash := by
        rintro rfl
        exact hc (TokenKind.eq_of_ofStart?_backslash hstart).symm
      rw [tokenFrom_operator hstart hbackslash] at h
      obtain ⟨rfl, rfl⟩ := Prod.mk.inj (Except.ok.inj h)
      rw [String.toList_ofList]
      refine ⟨congrArg (c :: ·) (munch_split kind cs), ?_⟩
      exact munches_munch (ofStart?_iff_mem.1 ⟨hstart, hbackslash⟩) cs
    | none =>
      cases hgap : isGap c with
      | true =>
        rw [tokenFrom_gap hgap] at h
        obtain ⟨rfl, rfl⟩ := Prod.mk.inj (Except.ok.inj h)
        rw [String.toList_ofList, List.cons_append, List.takeWhile_append_dropWhile]
        exact ⟨rfl, .gap (by simp) (by simp [hgap]) (run_stops isGap cs)⟩
      | false =>
        have hword := isWordChar_iff.2 ⟨hgap, hstart⟩
        have hplain {d : Char} (hd : d ∈ c :: cs) : isPlainChar d = isWordChar d :=
          isPlainChar_eq fun heq => hescape (heq ▸ hd)
        rw [tokenFrom_word hword, word_eq_takeWhile hcs] at h
        obtain ⟨rfl, rfl⟩ := Prod.mk.inj (Except.ok.inj h)
        rw [String.toList_ofList, List.cons_append, List.takeWhile_append_dropWhile]
        refine ⟨rfl, .word (by simp) (List.all_eq_true.2 fun d hd => ?_) fun d hd => ?_⟩
        · have hrun : (c :: cs.takeWhile isWordChar).all isWordChar = true := by simp [hword]
          rw [hplain, List.all_eq_true.1 hrun d hd]
          exact (List.cons_subset_cons c (List.takeWhile_subset isWordChar)) hd
        · rw [hplain, run_stops isWordChar cs d hd]
          exact List.mem_cons_of_mem _ ((List.dropWhile_suffix isWordChar).subset
            (List.mem_of_mem_head? hd))

theorem Lexed.factors {tokens : List Token} {cause : Fault} (h : Lexed t tokens cause)
    (hescape : '\\' ∉ t.chars) :
    cause = .endOfStream ∧
      Factors t.chars (tokens.map fun token => (token.kind, token.value.toList)) := by
  induction h with
  | @stop t cause h =>
    obtain ⟨rfl, hchars⟩ := token_error_of_not_mem hescape h
    rw [hchars]
    exact ⟨rfl, .nil⟩
  | @token t t' token tokens cause h _ ih =>
    obtain ⟨hchars, hmunches⟩ := munches_token hescape h
    rw [hchars, List.mem_append, not_or] at hescape
    obtain ⟨hcause, hfactors⟩ := ih hescape.2
    rw [hchars, List.map_cons]
    exact ⟨hcause, .cons hmunches hfactors⟩

end Tape

/-- **Maximal munch.** The tokens of a text without backslashes are the one way to cut it, from left
to right, into the longest runs of white space, the longest runs of characters with which no
operator begins, and the longest operators; and the text is read to its end. -/
theorem tokensOf_maximalMunch (text : String) (hescape : '\\' ∉ text.toList) :
    (tokensOf text).2.1 = .fault .endOfStream ∧
      ∀ units, Factors text.toList units ↔
        units = (tokensOf text).1.map fun token => (token.kind, token.value.toList) := by
  obtain ⟨cause, hlexed, hhalt⟩ := exists_lexed_tokensOf text
  obtain ⟨rfl, hfactors⟩ := hlexed.factors hescape
  refine ⟨hhalt, fun units => ⟨fun h => h.unique hfactors, ?_⟩⟩
  rintro rfl
  exact hfactors

/-- Operators that begin like longer ones, beside each other and beside words. -/
theorem tokensOf_crowded : '\\' ∉ "|||<<<<$($a>>>&".toList ∧
    (tokensOf "|||<<<<$($a>>>&").2.1 = .fault .endOfStream ∧
    Factors "|||<<<<$($a>>>&".toList
      [(.pipePipe, ['|', '|']), (.pipe, ['|']), (.ltLtLt, ['<', '<', '<']), (.lt, ['<']),
        (.dollarParen, ['$', '(']), (.dollar, ['$']), (.identifier, ['a']), (.gtGt, ['>', '>']),
        (.gt, ['>']), (.amp, ['&'])] := by
  have hescape : '\\' ∉ "|||<<<<$($a>>>&".toList := by decide
  obtain ⟨hhalt, hfactors⟩ := tokensOf_maximalMunch "|||<<<<$($a>>>&" hescape
  exact ⟨hescape, hhalt, (hfactors _).2 (by decide +kernel)⟩

end PocketShell
