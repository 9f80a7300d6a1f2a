import PocketShell.Proofs.Script.Reading

/-!
# Reading the parts of a command

* `guarded` : a text with a backslash before the characters of a class;
* `Lexes` : the next token of a text, wherever the text stands;
* `Cursor.step_ident`, `Cursor.reads_quote`, `Cursor.reads_quotedText`, `Cursor.reaches_var` : what is
  read behind backslashes, between single quotes, between double quotes and behind a `$`;
* `Cursor.reaches_words` : words with single spaces between them.
-/

namespace PocketShell

/-! ## Texts with backslashes -/

/-- A text with a backslash before the characters of a class. -/
def guarded (q : Char → Bool) (cs : List Char) : List Char :=
  cs.flatMap fun c => if q c then ['\\', c] else [c]

section guarded

variable {q : Char → Bool} {c : Char} {cs rest : List Char} {p : Position}

theorem guarded_nil : guarded q [] = [] := rfl

theorem guarded_cons_of_pos (hc : q c = true) : guarded q (c :: cs) = '\\' :: c :: guarded q cs := by
  simp [guarded, hc]

theorem guarded_cons_of_neg (hc : q c = false) : guarded q (c :: cs) = c :: guarded q cs := by
  simp [guarded, hc]

theorem isWordChar_of_isNameChar (h : isNameChar c = true) : isWordChar c = true := by
  rw [isWordChar_iff]
  constructor
  · rw [← Bool.not_eq_true]
    intro hgap
    simp only [isGap, Bool.or_eq_true, decide_eq_true_eq] at hgap
    rcases hgap with (rfl | rfl) | rfl <;> exact absurd h (by decide)
  · unfold TokenKind.ofStart?
    split <;> first | rfl | exact absurd h (by decide)

/-- Whether a character goes on with a word, behind a backslash if it is of the class. -/
def goesOn (q : Char → Bool) (c : Char) : Bool := q c || isWordChar c

theorem word_of_bounded (h : Bounded rest = true) : Tape.word p rest = .ok ([], ⟨p, rest⟩) := by
  cases rest with
  | nil => rfl
  | cons c rest =>
    simp only [Bounded, Bool.and_eq_true, decide_eq_true_eq, Bool.not_eq_true'] at h
    exact Tape.word_stop h.2 h.1

/-- A class of characters that holds the backslash and no line break. -/
structure Guards (q : Char → Bool) : Prop where
  backslash : q '\\' = true
  newline : q '\n' = false

theorem Guards.ne_newline (hq : Guards q) (hc : q c = true) : c ≠ '\n' := by
  rintro rfl
  exact absurd (hc.symm.trans hq.newline) (by simp)

theorem Guards.ne_backslash (hq : Guards q) (hc : q c = false) : c ≠ '\\' := by
  rintro rfl
  exact absurd (hc.symm.trans hq.backslash) (by simp)

theorem bounded_guarded (hq : Guards q) (hrest : Bounded rest = true)
    (hcs : ∀ c ∈ cs.head?, goesOn q c = false) : Bounded (guarded q cs ++ rest) = true := by
  cases cs with
  | nil => exact hrest
  | cons c cs =>
    have hc : goesOn q c = false := hcs c rfl
    rw [goesOn, Bool.or_eq_false_iff] at hc
    rw [guarded_cons_of_neg hc.1]
    simp [Bounded, hc.2, hq.ne_backslash hc.1]

/-- The rest of a word in a text with backslashes. -/
theorem word_guarded (p : Position) (cs : List Char) (hq : Guards q)
    (hrest : Bounded rest = true) :
    ∃ p', Tape.word p (guarded q cs ++ rest) =
      .ok (cs.takeWhile (goesOn q), ⟨p', guarded q (cs.dropWhile (goesOn q)) ++ rest⟩) := by
  induction cs generalizing p with
  | nil => exact ⟨p, word_of_bounded hrest⟩
  | cons c cs ih =>
    cases hc : goesOn q c with
    | false =>
      refine ⟨p, ?_⟩
      rw [word_of_bounded (bounded_guarded hq hrest (by simp [hc]))]
      simp [hc]
    | true =>
      rw [List.takeWhile_cons_of_pos hc, List.dropWhile_cons_of_pos hc]
      cases hqc : q c with
      | true =>
        obtain ⟨p', hword⟩ := ih (p := (p.after '\\').after c)
        refine ⟨p', ?_⟩
        rw [guarded_cons_of_pos hqc, List.cons_append, List.cons_append, Tape.word_escape, hword]
        simp [Except.map, hq.ne_newline hqc]
      | false =>
        obtain ⟨p', hword⟩ := ih (p := p.after c)
        have hwordChar : isWordChar c = true := by simpa [goesOn, hqc] using hc
        refine ⟨p', ?_⟩
        rw [guarded_cons_of_neg hqc, List.cons_append, Tape.word_char hwordChar, hword]
        rfl

end guarded

/-! ## The next token -/

theorem munch_of_longer_none {kind : TokenKind} (hlonger : kind.longer? = none) (cs : List Char) :
    Tape.munch kind cs = (kind, [], cs) := by
  cases cs <;> simp [Tape.munch, hlonger]

/-- The next token of a text, and what is left after it. -/
def Lexes (text : List Char) (kind : TokenKind) (value rest : List Char) : Prop :=
  ∀ p, ∃ p', Tape.tokenFrom p text = .ok (⟨kind, String.ofList value, p⟩, ⟨p', rest⟩)

namespace Lexes

variable {q : Char → Bool} {c : Char} {cs rest : List Char} {kind : TokenKind}

theorem operator {kind' : TokenKind} {taken : List Char} (hc : TokenKind.ofStart? c = some kind)
    (hbackslash : kind ≠ .backslash) (hmunch : Tape.munch kind cs = (kind', taken, rest)) :
    Lexes (c :: cs) kind' (c :: taken) rest := by
  intro p
  refine ⟨(p.after c).past taken, ?_⟩
  rw [Tape.tokenFrom_operator hc hbackslash, hmunch]

/-- Operators that nothing makes longer. -/
theorem single (kind : TokenKind) (hc : TokenKind.ofStart? c = some kind) (hbackslash : kind ≠ .backslash)
    (hlonger : kind.longer? = none) : Lexes (c :: rest) kind [c] rest :=
  operator hc hbackslash (munch_of_longer_none hlonger rest)

theorem dollarParen : Lexes ('$' :: '(' :: rest) .dollarParen ['$', '('] rest := by
  have hmunch : Tape.munch .dollar ('(' :: rest) = (.dollarParen, ['('], rest) := by
    cases rest <;> simp [Tape.munch, TokenKind.longer?]
  exact operator rfl (by simp) hmunch

theorem dollar (hrest : rest.head? ≠ some '(') : Lexes ('$' :: rest) .dollar ['$'] rest := by
  have hmunch : Tape.munch .dollar rest = (.dollar, [], rest) := by
    cases rest with
    | nil => rfl
    | cons c rest =>
      have hc : c ≠ '(' := by simpa using hrest
      simp [Tape.munch, TokenKind.longer?, hc]
  exact operator rfl (by simp) hmunch

theorem gap (hc : isGap c = true) :
    Lexes (c :: cs) .whitespace (c :: cs.takeWhile isGap) (cs.dropWhile isGap) := by
  intro p
  exact ⟨(p.after c).past (cs.takeWhile isGap), Tape.tokenFrom_gap hc⟩

theorem space (hrest : ∀ c ∈ rest.head?, isGap c = false) :
    Lexes (' ' :: rest) .whitespace [' '] rest := by
  have htake : rest.takeWhile isGap = [] ∧ rest.dropWhile isGap = rest := by
    cases rest with
    | nil => exact ⟨rfl, rfl⟩
    | cons c rest => simp [hrest c rfl]
  have h : Lexes (' ' :: rest) .whitespace _ _ := gap rfl
  rwa [htake.1, htake.2] at h

/-- A word in a text with backslashes. -/
theorem guarded (cs : List Char) (hq : Guards q) (hc : goesOn q c = true)
    (hrest : Bounded rest = true) :
    Lexes (guarded q (c :: cs) ++ rest) .identifier (c :: cs.takeWhile (goesOn q))
      (PocketShell.guarded q (cs.dropWhile (goesOn q)) ++ rest) := by
  intro p
  cases hqc : q c with
  | true =>
    obtain ⟨p', hword⟩ := word_guarded ((p.after '\\').after c) cs hq hrest
    refine ⟨p', ?_⟩
    rw [guarded_cons_of_pos hqc, List.cons_append, List.cons_append,
      Tape.tokenFrom_escape (hq.ne_newline hqc), hword]
    rfl
  | false =>
    obtain ⟨p', hword⟩ := word_guarded (p.after c) cs hq hrest
    have hwordChar : isWordChar c = true := by simpa [goesOn, hqc] using hc
    refine ⟨p', ?_⟩
    rw [guarded_cons_of_neg hqc, List.cons_append, Tape.tokenFrom_word hwordChar, hword]
    rfl

/-- A name, and the word that it is part of. -/
theorem name {name : List Char} (cs : List Char) (hq : Guards q) (hne : name ≠ [])
    (hname : name.all isNameChar = true) (hrest : Bounded rest = true) :
    Lexes (name ++ (PocketShell.guarded q cs ++ rest)) .identifier (name ++ cs.takeWhile (goesOn q))
      (PocketShell.guarded q (cs.dropWhile (goesOn q)) ++ rest) := by
  intro p
  obtain ⟨n, ns, rfl⟩ := List.exists_cons_of_ne_nil hne
  rw [List.all_cons, Bool.and_eq_true, List.all_eq_true] at hname
  have hrun : ns.all isWordChar = true :=
    List.all_eq_true.2 fun c hc => isWordChar_of_isNameChar (hname.2 c hc)
  obtain ⟨p', hword⟩ := word_guarded ((p.after n).past ns) cs hq hrest
  refine ⟨p', ?_⟩
  rw [List.cons_append, Tape.tokenFrom_word (isWordChar_of_isNameChar hname.1),
    Tape.word_append _ hrun, hword]
  rfl

end Lexes

/-! ## Between double quotes -/

/-- The tokens that are text between double quotes. -/
def TokenKind.isInert : TokenKind → Bool
  | dblQuote | dollar | dollarParen | backtick => false
  | _ => true

/-- A class of characters that holds all that mean something between double quotes. -/
structure GuardsQuoted (q : Char → Bool) : Prop extends Guards q where
  dblQuote : q '"' = true
  dollar : q '$' = true
  backtick : q '\x60' = true

/-- All characters but line breaks. -/
def isInline (c : Char) : Bool := c ≠ '\n'

theorem guards_isInline : GuardsQuoted isInline := ⟨⟨rfl, rfl⟩, rfl, rfl, rfl⟩

/-- What may follow text between double quotes: their end, or something to expand. -/
def EndsText (rest : List Char) : Prop := ∃ rest', rest = '"' :: rest' ∨ rest = '$' :: rest'

theorem EndsText.bounded {rest : List Char} (h : EndsText rest) : Bounded rest = true := by
  obtain ⟨rest', rfl | rfl⟩ := h <;> rfl

theorem TokenKind.isInert_longer {kind longer : TokenKind} {more : Char}
    (h : kind.longer? = some (more, longer)) (hkind : kind.isInert = true) :
    longer.isInert = true ∧ more ≠ '\\' ∧ more ≠ '"' ∧ more ≠ '$' := by
  cases kind <;> simp_all [longer?, isInert] <;> (obtain ⟨rfl, rfl⟩ := h; decide)

theorem TokenKind.start_of_not_isInert {kind : TokenKind} {c : Char}
    (h : ofStart? c = some kind) (hkind : kind.isInert = false) : c = '"' ∨ c = '$' ∨ c = '\x60' := by
  unfold ofStart? at h
  split at h <;> simp_all [isInert] <;> subst h <;> simp at hkind

section quoted

variable {q : Char → Bool} {c : Char} {cs rest : List Char} {kind : TokenKind}

/-- An operator is not made longer by what follows the text. -/
theorem munch_guarded (q : Char → Bool) (hkind : kind.isInert = true) (cs : List Char) :
    ∃ kind' v w, cs = v ++ w ∧ kind'.isInert = true ∧ ∀ rest, EndsText rest →
      Tape.munch kind (guarded q cs ++ rest) = (kind', v, guarded q w ++ rest) := by
  induction cs generalizing kind with
  | nil =>
    refine ⟨kind, [], [], rfl, hkind, fun rest hrest => ?_⟩
    rw [guarded_nil, List.nil_append]
    cases hlonger : kind.longer? with
    | none => exact munch_of_longer_none hlonger rest
    | some next =>
      obtain ⟨-, -, hquote, hdollar⟩ := TokenKind.isInert_longer hlonger hkind
      obtain ⟨rest', rfl | rfl⟩ := hrest
      · simp [Tape.munch, hlonger, hquote.symm]
      · simp [Tape.munch, hlonger, hdollar.symm]
  | cons c cs ih =>
    cases hlonger : kind.longer? with
    | none => exact ⟨kind, [], c :: cs, rfl, hkind, fun rest _ => munch_of_longer_none hlonger _⟩
    | some next =>
      obtain ⟨more, longer⟩ := next
      obtain ⟨hinert, hbackslash, -⟩ := TokenKind.isInert_longer hlonger hkind
      cases hqc : q c with
      | true =>
        refine ⟨kind, [], c :: cs, rfl, hkind, fun rest _ => ?_⟩
        rw [guarded_cons_of_pos hqc]
        simp [Tape.munch, hlonger, hbackslash.symm]
      | false =>
        by_cases hc : c = more
        · obtain ⟨kind', v, w, rfl, hkind', hmunch⟩ := ih hinert
          refine ⟨kind', c :: v, w, rfl, hkind', fun rest hrest => ?_⟩
          rw [guarded_cons_of_neg hqc, List.cons_append]
          simp [Tape.munch, hlonger, hc, hmunch rest hrest]
        · refine ⟨kind, [], c :: cs, rfl, hkind, fun rest _ => ?_⟩
          rw [guarded_cons_of_neg hqc]
          simp [Tape.munch, hlonger, hc]

theorem gap_guarded (q : Char → Bool) (cs : List Char) :
    ∃ v w, cs = v ++ w ∧ ∀ rest, EndsText rest → (guarded q cs ++ rest).takeWhile isGap = v ∧
      (guarded q cs ++ rest).dropWhile isGap = guarded q w ++ rest := by
  induction cs with
  | nil =>
    refine ⟨[], [], rfl, fun rest hrest => ?_⟩
    obtain ⟨rest', rfl | rfl⟩ := hrest <;> exact ⟨rfl, rfl⟩
  | cons c cs ih =>
    cases hqc : q c with
    | true =>
      refine ⟨[], c :: cs, rfl, fun rest _ => ?_⟩
      rw [guarded_cons_of_pos hqc]
      exact ⟨rfl, rfl⟩
    | false =>
      rw [guarded_cons_of_neg hqc]
      cases hgap : isGap c with
      | true =>
        obtain ⟨v, w, rfl, hvw⟩ := ih
        refine ⟨c :: v, w, rfl, fun rest hrest => ?_⟩
        rw [List.cons_append, List.takeWhile_cons_of_pos hgap, List.dropWhile_cons_of_pos hgap,
          (hvw rest hrest).1, (hvw rest hrest).2]
        exact ⟨rfl, rfl⟩
      | false =>
        refine ⟨[], c :: cs, rfl, fun rest _ => ?_⟩
        rw [guarded_cons_of_neg hqc]
        simp [hgap]

/-- The next token between double quotes is text. -/
theorem lexes_quoted (hq : GuardsQuoted q) (c : Char) (cs : List Char) :
    ∃ kind v w, cs = v ++ w ∧ kind.isInert = true ∧ ∀ rest, EndsText rest →
      Lexes (guarded q (c :: cs) ++ rest) kind (c :: v) (guarded q w ++ rest) := by
  cases hgoes : goesOn q c with
  | true =>
    exact ⟨.identifier, _, _, List.takeWhile_append_dropWhile.symm, rfl, fun rest hrest =>
      Lexes.guarded cs hq.toGuards hgoes hrest.bounded⟩
  | false =>
    rw [goesOn, Bool.or_eq_false_iff] at hgoes
    obtain ⟨hqc, hword⟩ := hgoes
    rw [guarded_cons_of_neg hqc]
    cases hgap : isGap c with
    | true =>
      obtain ⟨v, w, rfl, hvw⟩ := gap_guarded q cs
      refine ⟨.whitespace, v, w, rfl, rfl, fun rest hrest => ?_⟩
      have h : Lexes (c :: (guarded q (v ++ w) ++ rest)) .whitespace _ _ := Lexes.gap hgap
      rwa [(hvw rest hrest).1, (hvw rest hrest).2] at h
    | false =>
      cases hstart : TokenKind.ofStart? c with
      | none => rw [isWordChar_iff.2 ⟨hgap, hstart⟩] at hword; cases hword
      | some kind =>
        have hbackslash : kind ≠ .backslash := by
          rintro rfl
          exact hq.ne_backslash hqc (TokenKind.eq_of_ofStart?_backslash hstart)
        have hkind : kind.isInert = true := by
          rw [← Bool.not_eq_false]
          intro hkind
          rcases TokenKind.start_of_not_isInert hstart hkind with rfl | rfl | rfl
          · exact absurd (hqc.symm.trans hq.dblQuote) (by simp)
          · exact absurd (hqc.symm.trans hq.dollar) (by simp)
          · exact absurd (hqc.symm.trans hq.backtick) (by simp)
        obtain ⟨kind', v, w, rfl, hkind', hmunch⟩ := munch_guarded q hkind cs
        exact ⟨kind', v, w, rfl, hkind', fun rest hrest =>
          Lexes.operator hstart hbackslash (hmunch rest hrest)⟩

end quoted

/-! ## Reading parts -/

/-- Parts of a word that stand for themselves. -/
def idents (pieces : List (List Char)) : List Tree :=
  pieces.map fun v => .leaf (.ident (String.ofList v))

/-- A text in one piece; the empty text has none. -/
def sole (cs : List Char) : List (List Char) := if cs = [] then [] else [cs]

namespace Cursor

open Relation

variable {c c' : Cursor} {q : Char → Bool} {kind : Sequence} {target : Bool} {older parts : List Tree}
  {path : List Crumb} {text value cs rest : List Char} {tokenKind : TokenKind}

theorem step_of_lexes (h : Lexes text tokenKind value rest) (hc : c.wantsVerbatim = false)
    (hfeed : ∀ p, c.feed ⟨tokenKind, String.ofList value, p⟩ = .ok c') :
    Step (c, text) (c', rest) := by
  intro p
  obtain ⟨p', hp'⟩ := h p
  refine ⟨_, p', ?_, hfeed p⟩
  simp only [nextToken, hc]
  exact hp'

/-- A word behind backslashes. -/
theorem step_ident {ch : Char} (hkind : kind.isHolder = true) (hq : Guards q)
    (hcs : (ch :: cs).all (goesOn q) = true) (hrest : Bounded rest = true) :
    Step (⟨.seq kind older, path⟩, guarded q (ch :: cs) ++ rest)
      (⟨.seq kind (.leaf (.ident (String.ofList (ch :: cs))) :: older), path⟩, rest) := by
  rw [List.all_cons, Bool.and_eq_true] at hcs
  have h := Lexes.guarded cs hq hcs.1 hrest
  have hall : ∀ c ∈ cs, goesOn q c = true := List.all_eq_true.1 hcs.2
  have htake : (cs ++ []).takeWhile (goesOn q) = cs ++ [] := List.takeWhile_append_of_pos hall
  have hdrop : (cs ++ []).dropWhile (goesOn q) = [] := List.dropWhile_append_of_pos hall
  rw [List.append_nil] at htake hdrop
  rw [htake, hdrop] at h
  exact step_of_lexes h rfl fun p => feedSequence_identifier hkind rfl

/-- Text between single quotes. -/
theorem reads_quote (hcs : '\'' ∉ cs) :
    Reads (⟨.seq (.command target) older, path⟩, '\'' :: (cs ++ '\'' :: rest))
      (⟨.seq (.command target) (.leaf (.quote (String.ofList cs)) :: older), path⟩, rest) := by
  have hopen : Step (⟨.seq (.command target) older, path⟩, '\'' :: (cs ++ '\'' :: rest))
      (⟨.leaf (.quote ""), .seq (.command target) older :: path⟩, cs ++ '\'' :: rest) :=
    step_of_lexes (Lexes.single .quote rfl (by simp) rfl) rfl fun p => rfl
  have hnot : ∀ c ∈ cs, isNotQuote c = true := by
    intro c hc
    simp only [isNotQuote, ne_eq, decide_not, Bool.not_eq_true', decide_eq_false_iff_not]
    rintro rfl
    exact hcs hc
  have htake : (cs ++ '\'' :: rest).takeWhile isNotQuote = cs := by
    rw [List.takeWhile_append_of_pos hnot, List.takeWhile_cons_of_neg (by decide), List.append_nil]
  have hdrop : (cs ++ '\'' :: rest).dropWhile isNotQuote = '\'' :: rest := by
    rw [List.dropWhile_append_of_pos hnot, List.dropWhile_cons_of_neg (by decide)]
  refine ReflTransGen.head hopen (ReflTransGen.single fun p => ?_)
  refine ⟨⟨.identifier, String.ofList cs, p⟩, (p.past cs).after '\'', ?_, rfl⟩
  simp only [nextToken, wantsVerbatim, if_true, Tape.verbatim, htake, hdrop]

/-- Double quotes around what is read as these parts. -/
theorem Reaches.dblQuote
    (h : Reaches ⟨.seq .dblQuote [], .seq (.command target) older :: path⟩ text
      ⟨.seq .dblQuote parts.reverse, .seq (.command target) older :: path⟩ ('"' :: rest)) :
    Reads (⟨.seq (.command target) older, path⟩, '"' :: text)
      (⟨.seq (.command target) (.seq .dblQuote parts :: older), path⟩, rest) := by
  have hopen : Step (⟨.seq (.command target) older, path⟩, '"' :: text)
      (⟨.seq .dblQuote [], .seq (.command target) older :: path⟩, text) :=
    step_of_lexes (Lexes.single .dblQuote rfl (by simp) rfl) rfl fun _ => rfl
  have hclose : Step (⟨.seq .dblQuote parts.reverse, .seq (.command target) older :: path⟩, '"' :: rest)
      (⟨.seq (.command target) (.seq .dblQuote parts.reverse.reverse :: older), path⟩, rest) :=
    step_of_lexes (Lexes.single .dblQuote rfl (by simp) rfl) rfl fun _ => rfl
  rw [List.reverse_reverse] at hclose
  exact ReflTransGen.head hopen (h.step rfl hclose)

/-- Text between double quotes. The pieces that it is read in do not depend on what follows. -/
theorem reads_quotedText (hq : GuardsQuoted q) (cs : List Char) :
    ∃ pieces, pieces.flatten = cs ∧ ∀ older path rest, EndsText rest →
      Reads (⟨.seq .dblQuote older, path⟩, guarded q cs ++ rest)
        (⟨.seq .dblQuote ((idents pieces).reverse ++ older), path⟩, rest) := by
  -- a token takes several characters, so the induction is on the length of the text
  induction hn : cs.length using Nat.strongRecOn generalizing cs with
  | ind n ih =>
    subst hn
    cases cs with
    | nil => exact ⟨[], rfl, fun older path rest _ => ReflTransGen.refl⟩
    | cons c cs =>
      obtain ⟨kind, v, w, rfl, hkind, hlexes⟩ := lexes_quoted hq c cs
      have hlt : w.length < (c :: (v ++ w)).length := by
        rw [List.length_cons, List.length_append]
        omega
      obtain ⟨pieces, hpieces, hreads⟩ := ih w.length hlt w rfl
      refine ⟨(c :: v) :: pieces, by simp [hpieces], fun older path rest hrest => ?_⟩
      have hstep : Step (⟨.seq .dblQuote older, path⟩, guarded q (c :: (v ++ w)) ++ rest)
          (⟨.seq .dblQuote (.leaf (.ident (String.ofList (c :: v))) :: older), path⟩,
            guarded q w ++ rest) := by
        refine step_of_lexes (hlexes rest hrest) rfl fun p => ?_
        cases kind <;> first | rfl | cases hkind
      refine ReflTransGen.head hstep ?_
      rw [idents, List.map_cons, List.reverse_cons, List.append_assoc]
      exact hreads _ path rest hrest

/-- A variable takes the name that a word begins with. -/
theorem feed_name {name v : List Char} (hkind : kind.isHolder = true) (hne : name ≠ [])
    (hname : name.all isNameChar = true) (hv : ∀ c ∈ v.head?, isNameChar c = false) (p : Position) :
    feed ⟨.leaf (.var ""), .seq kind older :: path⟩ ⟨.identifier, String.ofList (name ++ v), p⟩ =
      if v = [] then .ok ⟨.leaf (.var (String.ofList name)), .seq kind older :: path⟩
      else .ok ⟨.seq kind (idents [v] ++ .leaf (.var (String.ofList name)) :: older), path⟩ := by
  have hmatched : (name ++ v).takeWhile isNameChar = name := by
    rw [List.takeWhile_append_of_pos (List.all_eq_true.1 hname)]
    cases v with
    | nil => simp
    | cons c v => simp [hv c rfl]
  simp only [feed, feedVariable, if_true, String.toList_empty, String.toList_ofList,
    List.nil_append, hmatched, List.isEmpty_iff, hne, if_false, List.length_append,
    List.drop_left]
  by_cases hempty : v = []
  · simp [hempty]
  · have hlt : name.length < name.length + v.length :=
      Nat.lt_add_of_pos_right (List.length_pos_of_ne_nil hempty)
    rw [if_pos hlt, if_neg hempty]
    exact feedSequence_identifier hkind rfl

/-- A variable, and the text that is one token with its name. -/
theorem reaches_var {name : List Char} (hkind : kind.isHolder = true) (hq : Guards q) (hne : name ≠ [])
    (hname : name.all isNameChar = true) (hcs : ∀ c ∈ cs.head?, isNameChar c = false)
    (hrest : Bounded rest = true) :
    Reaches ⟨.seq kind older, path⟩ ('$' :: (name ++ (guarded q cs ++ rest)))
      ⟨.seq kind (idents (sole (cs.takeWhile (goesOn q))) ++ .leaf (.var (String.ofList name)) :: older),
        path⟩ (guarded q (cs.dropWhile (goesOn q)) ++ rest) := by
  have hparen : (name ++ (guarded q cs ++ rest)).head? ≠ some '(' := by
    obtain ⟨n, ns, rfl⟩ := List.exists_cons_of_ne_nil hne
    rw [List.cons_append, List.head?_cons, ne_eq, Option.some.injEq]
    rintro rfl
    cases hname
  have hdollar : Step (⟨.seq kind older, path⟩, '$' :: (name ++ (guarded q cs ++ rest)))
      (⟨.leaf (.var ""), .seq kind older :: path⟩, name ++ (guarded q cs ++ rest)) := by
    refine step_of_lexes (Lexes.dollar hparen) rfl fun p => ?_
    cases kind <;> first | rfl | cases hkind
  have hlexes := Lexes.name cs hq hne hname hrest
  have hv : ∀ c ∈ (cs.takeWhile (goesOn q)).head?, isNameChar c = false := by
    cases cs with
    | nil => simp
    | cons d ds =>
      rw [List.takeWhile_cons]
      split
      · exact hcs
      · simp
  refine Reads.trans_reaches (ReflTransGen.single hdollar) ?_
  generalize cs.takeWhile (goesOn q) = v at hlexes hv ⊢
  have hfeed : ∀ p, feed ⟨.leaf (.var ""), .seq kind older :: path⟩ _ = _ := feed_name hkind hne hname hv
  by_cases hempty : v = []
  · -- the cursor stays in the variable, for its name may go on
    simp only [sole, hempty, if_true] at hfeed hlexes ⊢
    refine ⟨_, ReflTransGen.single (step_of_lexes hlexes rfl hfeed), ?_⟩
    have hname : (String.ofList name).isEmpty = false := by
      simpa [String.isEmpty_iff] using hne
    simp [settle, hname, idents]
  · simp only [sole, hempty, if_false] at hfeed ⊢
    exact Reads.reaches (ReflTransGen.single (step_of_lexes hlexes rfl hfeed))

end Cursor

/-! ## Where commands begin -/

/-- Whether a text begins with a part of a command. -/
def Opens : List Char → Bool
  | '\\' :: d :: _ => d ≠ '\n'
  | c :: _ => c = '\'' || c = '"' || c = '$' || c = '('
  | [] => false

def TokenKind.opensCommand : TokenKind → Bool
  | identifier | quote | dblQuote | dollar | dollarParen | lparen => true
  | _ => false

section opens

variable {text rest : List Char}

theorem opens_append (h : Opens text = true) : Opens (text ++ rest) = true := by
  unfold Opens at h
  split at h
  · exact h
  · simp only [Bool.or_eq_true, decide_eq_true_eq] at h
    rcases h with ((rfl | rfl) | rfl) | rfl <;> rfl
  · cases h

theorem isGap_of_opens (h : Opens text = true) : ∀ c ∈ text.head?, isGap c = false := by
  unfold Opens at h
  split at h
  · simp [isGap]
  · simp only [Bool.or_eq_true, decide_eq_true_eq] at h
    rcases h with ((rfl | rfl) | rfl) | rfl <;> simp [isGap]
  · simp

theorem Lexes.kind_eq {kind : TokenKind} {value : List Char} (h : Lexes text kind value rest)
    {p : Position} {token : Token} {t : Tape} (htoken : Tape.tokenFrom p text = .ok (token, t)) :
    token.kind = kind := by
  obtain ⟨p', hp'⟩ := h p
  rw [hp', Except.ok.injEq, Prod.mk.injEq] at htoken
  rw [← htoken.1]

theorem opensCommand_of_opens {p : Position} {token : Token} {t : Tape} (h : Opens text = true)
    (htoken : Tape.tokenFrom p text = .ok (token, t)) : token.kind.opensCommand = true := by
  unfold Opens at h
  split at h
  · rename_i d ds
    rw [Tape.tokenFrom_escape (by simpa using h)] at htoken
    cases hword : Tape.word ((p.after '\\').after d) ds with
    | error cause => rw [hword] at htoken; cases htoken
    | ok r => rw [hword] at htoken; cases htoken; rfl
  · rename_i c cs _
    simp only [Bool.or_eq_true, decide_eq_true_eq] at h
    rcases h with ((rfl | rfl) | rfl) | rfl
    · rw [(Lexes.single .quote rfl (by simp) rfl).kind_eq htoken]
      rfl
    · rw [(Lexes.single .dblQuote rfl (by simp) rfl).kind_eq htoken]
      rfl
    · by_cases hparen : cs.head? = some '('
      · obtain ⟨cs, rfl⟩ := List.head?_eq_some_iff.1 hparen
        rw [Lexes.dollarParen.kind_eq htoken]
        rfl
      · rw [(Lexes.dollar hparen).kind_eq htoken]
        rfl
    · rw [(Lexes.single .lparen rfl (by simp) rfl).kind_eq htoken]
      rfl
  · cases h

end opens

namespace Cursor

open Relation

variable {kind : Sequence} {target : Bool} {older parts : List Tree} {path : List Crumb} {d : Cursor}
  {text rest : List Char}

/-- A list of statements begins a command by itself. -/
theorem feed_of_opensCommand {token : Token} (hkind : statementList kind = some ())
    (htoken : token.kind.opensCommand = true) :
    feed ⟨.seq kind parts, path⟩ token =
      feed ⟨.seq (.command false) [], .seq kind parts :: path⟩ token := by
  obtain ⟨tokenKind, value, p⟩ := token
  have hlist : feed ⟨.seq kind parts, path⟩ ⟨tokenKind, value, p⟩ =
      feedList kind parts path ⟨tokenKind, value, p⟩ := by
    unfold statementList at hkind
    split at hkind <;> first | rfl | cases hkind
  rw [hlist]
  cases tokenKind <;> first | rfl | cases htoken

theorem Reaches.of_opens (h : Reaches ⟨.seq (.command false) [], .seq kind parts :: path⟩ text d rest)
    (hkind : statementList kind = some ()) (htext : Opens text = true) (hne : text ≠ rest) :
    Reaches ⟨.seq kind parts, path⟩ text d rest := by
  obtain ⟨d', hreads, hd⟩ := h
  rcases hreads.cases_head with heq | ⟨b, hstep, hreads⟩
  · exact absurd (Prod.mk.inj heq).2 hne
  · have hstep' : Step (⟨.seq kind parts, path⟩, text) b :=
      hstep.congr rfl rfl fun p token t htoken =>
        feed_of_opensCommand hkind (opensCommand_of_opens htext htoken)
    exact ⟨d', ReflTransGen.head hstep' hreads, hd⟩

/-! ## Words -/

/-- A text is read as these parts of a word, wherever a command has come to. -/
structure ReadsWord (target : Bool) (text : List Char) (parts : List Tree) : Prop where
  reaches : ∀ older path rest, Bounded rest = true →
    Reaches ⟨.seq (.command target) older, path⟩ (text ++ rest)
      ⟨.seq (.command target) (parts.reverse ++ older), path⟩ rest
  opens : Opens text = true
  endsInWord : endsInWord parts.reverse = true

theorem endsInWord_append (older : List Tree) (h : endsInWord parts = true) :
    endsInWord (parts ++ older) = true := by
  cases parts with
  | nil => cases h
  | cons part parts => exact h

/-- What the space between two words leaves in a command. -/
def gapLeaf : Tree := .leaf (.whitespace " ")

theorem opens_words {texts : List (List Char)} (hne : texts ≠ [])
    (htexts : ∀ text ∈ texts, Opens text = true) : Opens ([' '].intercalate texts) = true := by
  cases texts with
  | nil => exact absurd rfl hne
  | cons text texts =>
    have htext := htexts text List.mem_cons_self
    cases texts with
    | nil => simpa using htext
    | cons text' texts =>
      rw [List.intercalate_cons_cons, List.append_assoc]
      exact opens_append htext

/-- Words with single spaces between them. -/
theorem reaches_words {words : List (List Char × List Tree)} (hne : words ≠ [])
    (hwords : ∀ w ∈ words, ReadsWord target w.1 w.2) (hrest : Bounded rest = true) :
    Reaches ⟨.seq (.command target) older, path⟩ ([' '].intercalate (words.map (·.1)) ++ rest)
      ⟨.seq (.command target) (([gapLeaf].intercalate (words.map (·.2))).reverse ++ older), path⟩
      rest := by
  induction words generalizing older with
  | nil => exact absurd rfl hne
  | cons w ws ih =>
    obtain ⟨hw, hws⟩ := List.forall_mem_cons.1 hwords
    cases ws with
    | nil => simpa using hw.reaches older path rest hrest
    | cons w' ws =>
      have hmore : Opens ([' '].intercalate ((w' :: ws).map (·.1)) ++ rest) = true :=
        opens_append (opens_words (by simp) (by
          intro text htext
          obtain ⟨w, hw, rfl⟩ := List.mem_map.1 htext
          exact (hws w hw).opens))
      have hgap : Step (⟨.seq (.command target) (w.2.reverse ++ older), path⟩,
            ' ' :: ([' '].intercalate ((w' :: ws).map (·.1)) ++ rest))
          (⟨.seq (.command target) (gapLeaf :: (w.2.reverse ++ older)), path⟩,
            [' '].intercalate ((w' :: ws).map (·.1)) ++ rest) := by
        refine step_of_lexes (Lexes.space (isGap_of_opens hmore)) rfl fun p => ?_
        have hends := endsInWord_append older hw.endsInWord
        simp only [feed, feedFocus, feedSequence, feedCommand, hends, if_true]
        rfl
      have hmine := (hw.reaches older path _ rfl).trans rfl
        (Reads.trans_reaches (ReflTransGen.single hgap) (ih (by simp) hws))
      simpa only [List.map_cons, List.intercalate_cons_cons, List.append_assoc, List.reverse_append,
        List.reverse_cons, List.reverse_nil, List.nil_append, List.cons_append] using hmine

end Cursor

end PocketShell
