import PocketShell.Proofs.Lexing.Endings
import PocketShell.Proofs.Script.Reading

/-!
# Where tokens stand in a text

A token is made of some characters of a text, and continued line ends may be skipped before it.

* `unescaped` : a text without the backslashes that escape something;
* `breaksOff` : whether a text ends in a backslash that escapes nothing;
* `Lexeme` : a token with the characters that are skipped before it and the ones it is made of;
* `Lexeme.Plain`, `Lexeme.Quoted` : what these are for an ordinary token and for quoted text;
* `Tape.exists_plain`, `Tape.exists_quoted` : a token that is read stands in the text like this, and
  its position is that of its first own character (`Lexeme.Leads`);
* `Tape.token_error` : no token is left, or the text breaks off.
-/

namespace PocketShell

/-! ## Escapes -/

/-- A text without continued line ends, and with each escaped character as it is. -/
def unescaped : List Char → List Char
  | [] => []
  | c :: cs =>
    if c = '\\' then
      match cs with
      | [] => []
      | d :: ds => if d = '\n' then unescaped ds else d :: unescaped ds
    else c :: unescaped cs

/-- Whether a text ends in a backslash that escapes nothing. -/
def breaksOff : List Char → Bool
  | [] => false
  | c :: cs =>
    if c = '\\' then
      match cs with
      | [] => true
      | _ :: ds => breaksOff ds
    else breaksOff cs

section escapes

variable {c d : Char} {cs ds : List Char}

@[simp] theorem unescaped_escape :
    unescaped ('\\' :: d :: ds) = if d = '\n' then unescaped ds else d :: unescaped ds := by
  simp [unescaped]

theorem unescaped_char (hc : c ≠ '\\') : unescaped (c :: cs) = c :: unescaped cs := by
  conv => lhs; unfold unescaped
  rw [if_neg hc]

@[simp] theorem breaksOff_escape : breaksOff ('\\' :: d :: ds) = breaksOff ds := by
  simp [breaksOff]

theorem breaksOff_char (hc : c ≠ '\\') : breaksOff (c :: cs) = breaksOff cs := by
  conv => lhs; unfold breaksOff
  rw [if_neg hc]

/-- A text that does not break off is read on its own. -/
theorem unescaped_append (h : breaksOff cs = false) :
    unescaped (cs ++ ds) = unescaped cs ++ unescaped ds := by
  fun_induction breaksOff cs with
  | case1 => rfl
  | case2 => cases h
  | case3 d cs ih =>
    rw [List.cons_append, List.cons_append, unescaped_escape, unescaped_escape, ih h]
    split <;> rfl
  | case4 c cs hc ih =>
    rw [List.cons_append, unescaped_char hc, unescaped_char hc, ih h]
    rfl

theorem breaksOff_append (h : breaksOff cs = false) : breaksOff (cs ++ ds) = breaksOff ds := by
  fun_induction breaksOff cs with
  | case1 => rfl
  | case2 => cases h
  | case3 d cs ih => rw [List.cons_append, List.cons_append, breaksOff_escape, ih h]
  | case4 c cs hc ih => rw [List.cons_append, breaksOff_char hc, ih h]

theorem unescaped_of_not_mem (h : '\\' ∉ cs) : unescaped cs = cs := by
  induction cs with
  | nil => rfl
  | cons c cs ih =>
    rw [List.mem_cons, not_or] at h
    rw [unescaped_char (Ne.symm h.1), ih h.2]

theorem breaksOff_of_not_mem (h : '\\' ∉ cs) : breaksOff cs = false := by
  induction cs with
  | nil => rfl
  | cons c cs ih =>
    rw [List.mem_cons, not_or] at h
    rw [breaksOff_char (Ne.symm h.1), ih h.2]

end escapes

/-- Line ends that are continued, one after the other. -/
def continued (n : Nat) : List Char := (List.replicate n ['\\', '\n']).flatten

theorem continued_succ (n : Nat) : continued (n + 1) = '\\' :: '\n' :: continued n := rfl

theorem unescaped_continued (n : Nat) : unescaped (continued n) = [] := by
  induction n with
  | zero => rfl
  | succ n ih => rw [continued_succ, unescaped_escape, if_pos rfl, ih]

theorem breaksOff_continued (n : Nat) : breaksOff (continued n) = false := by
  induction n with
  | zero => rfl
  | succ n ih => rw [continued_succ, breaksOff_escape, ih]

/-! ## Lexemes -/

/-- A token in a text: the characters that are skipped before it, and the ones it is made of. -/
structure Lexeme where
  /-- Whether the token is the text between single quotes. -/
  quoted : Bool
  skipped : List Char
  own : List Char
  token : Token

namespace Lexeme

/-- All the characters that a token takes. -/
def text (l : Lexeme) : List Char := l.skipped ++ l.own

/-- An ordinary token: it stands behind continued line ends, begins with a character that counts or
with its backslash, and has the value of its characters. Operators are never escaped. -/
structure Plain (l : Lexeme) : Prop where
  quoted : l.quoted = false
  skips : ∃ n, l.skipped = continued n
  nonempty : l.own ≠ []
  begins : ¬['\\', '\n'] <+: l.own
  whole : breaksOff l.own = false
  value : unescaped l.own = l.token.value.toList
  operator : l.token.kind.isOperator = true → l.own = l.token.value.toList

/-- The text between single quotes: nothing is skipped before it, and the quote that ends it is
taken with it. -/
structure Quoted (l : Lexeme) : Prop where
  quoted : l.quoted = true
  skips : l.skipped = []
  own : l.own = l.token.value.toList ++ ['\'']
  value : '\'' ∉ l.token.value.toList
  kind : l.token.kind = .identifier

/-- A token is the first thing on a tape, and this is left of the tape behind it. Its position is
that of its first own character. -/
structure Leads (l : Lexeme) (t t' : Tape) : Prop where
  chars : t.chars = l.text ++ t'.chars
  token : l.token.position = t.position.past l.skipped
  left : t'.position = t.position.past l.text

end Lexeme

/-! ## Tokens are lexemes -/

namespace Tape

variable {p : Position} {cs value : List Char} {t t' : Tape} {token : Token} {cause : Fault}

/-- The rest of a word: its characters, and where it ends. -/
theorem word_own (h : word p cs = .ok (value, t)) :
    ∃ own, cs = own ++ t.chars ∧ t.position = p.past own ∧ breaksOff own = false ∧
      unescaped own = value ∧ Bounded t.chars = true := by
  fun_induction word p cs generalizing value t with
  | case1 p =>
    obtain ⟨rfl, rfl⟩ := Prod.mk.inj (Except.ok.inj h)
    exact ⟨[], rfl, rfl, rfl, rfl, rfl⟩
  | case2 p => cases h
  | case3 p d ds ih =>
    obtain ⟨value, t, hw, hmake⟩ := word_of_map_eq_ok h
    obtain ⟨rfl, rfl⟩ := Prod.mk.inj hmake
    obtain ⟨own, hown, hposition, hwhole, hvalue, hends⟩ := ih hw
    refine ⟨'\\' :: d :: own, by rw [hown]; rfl, hposition, ?_, ?_, hends⟩
    · rw [breaksOff_escape, hwhole]
    · rw [unescaped_escape, hvalue]
  | case4 p c cs hescape hc ih =>
    obtain ⟨value, t, hw, hmake⟩ := word_of_map_eq_ok h
    obtain ⟨rfl, rfl⟩ := Prod.mk.inj hmake
    obtain ⟨own, hown, hposition, hwhole, hvalue, hends⟩ := ih hw
    refine ⟨c :: own, by rw [hown]; rfl, hposition, ?_, ?_, hends⟩
    · rw [breaksOff_char hescape, hwhole]
    · rw [unescaped_char hescape, hvalue]
  | case5 p c cs hescape hc =>
    obtain ⟨rfl, rfl⟩ := Prod.mk.inj (Except.ok.inj h)
    refine ⟨[], rfl, rfl, rfl, rfl, ?_⟩
    simp [Bounded, hescape, hc]

theorem word_breaksOff (h : word p cs = .error cause) : breaksOff cs = true := by
  fun_induction word p cs with
  | case1 p => cases h
  | case2 p => rfl
  | case3 p d ds ih =>
    rw [breaksOff_escape]
    exact ih ((word_map_error h).2 ▸ (word_map_error h).1)
  | case4 p c cs hescape hc ih =>
    rw [breaksOff_char hescape]
    exact ih ((word_map_error h).2 ▸ (word_map_error h).1)
  | case5 p c cs hescape hc => cases h

/-- No operator goes on with a backslash. -/
theorem backslash_not_mem_munch (kind : TokenKind) (cs : List Char) :
    '\\' ∉ (munch kind cs).2.1 := by
  fun_induction munch kind cs with
  | case1 | case2 | case4 => simp
  | case3 kind c cs longer hk kind' taken rest hmunch ih =>
    rw [hmunch] at ih
    rw [List.mem_cons, not_or]
    refine ⟨?_, ih⟩
    rintro rfl
    cases kind <;> simp [TokenKind.longer?] at hk

theorem not_begins_char {c : Char} (hc : c ≠ '\\') (cs : List Char) :
    ¬['\\', '\n'] <+: c :: cs := by
  intro h
  exact hc (List.cons_prefix_cons.1 h).1.symm

/-- A token that is read stands first in the text. -/
theorem exists_plain (h : tokenFrom p cs = .ok (token, t')) :
    ∃ l : Lexeme, l.token = token ∧ l.Plain ∧ l.Leads ⟨p, cs⟩ t' ∧
      (token.kind = .identifier → Bounded t'.chars = true) := by
  fun_induction tokenFrom p cs with
  | case1 p => cases h
  | case2 p c hc => cases h
  | case3 p c hc ds ih =>
    obtain rfl := TokenKind.eq_of_ofStart?_backslash hc
    obtain ⟨l, htoken, hplain, hleads, hends⟩ := ih h
    obtain ⟨n, hn⟩ := hplain.skips
    refine ⟨{ l with skipped := '\\' :: '\n' :: l.skipped }, htoken,
      ⟨hplain.quoted, ⟨n + 1, ?_⟩, hplain.nonempty, hplain.begins, hplain.whole, hplain.value,
        hplain.operator⟩, ⟨?_, hleads.token, hleads.left⟩, hends⟩
    · rw [hn, continued_succ]
    · exact congrArg (fun text => '\\' :: '\n' :: text) hleads.chars
  | case4 p c hc d ds hd =>
    obtain rfl := TokenKind.eq_of_ofStart?_backslash hc
    obtain ⟨value, t, hw, hmake⟩ := word_of_map_eq_ok h
    obtain ⟨rfl, rfl⟩ := Prod.mk.inj hmake
    obtain ⟨own, hown, hposition, hwhole, hvalue, hends⟩ := word_own hw
    refine ⟨⟨false, [], '\\' :: d :: own, _⟩, rfl,
      ⟨rfl, ⟨0, rfl⟩, by simp, ?_, ?_, ?_, fun h => by cases h⟩,
      ⟨by rw [hown]; rfl, rfl, hposition⟩, fun _ => hends⟩
    · intro hbegins
      simp only [List.cons_prefix_cons] at hbegins
      exact hd hbegins.2.1.symm
    · rw [breaksOff_escape, hwhole]
    · rw [unescaped_escape, if_neg hd, hvalue, String.toList_ofList]
  | case5 p c cs start hstart hc kind taken left hmunch =>
    obtain ⟨rfl, rfl⟩ := Prod.mk.inj (Except.ok.inj h)
    have hescape : c ≠ '\\' := by
      rintro rfl
      exact hstart (Option.some.inj hc).symm
    have hplain : '\\' ∉ c :: taken := by
      have htaken := backslash_not_mem_munch start cs
      rw [hmunch] at htaken
      exact fun hmem => (List.mem_cons.1 hmem).elim (fun heq => hescape heq.symm) htaken
    have hop := isOperator_munch (TokenKind.isOperator_start hc hstart) cs
    have hsplit := munch_split start cs
    rw [hmunch] at hop hsplit
    refine ⟨⟨false, [], c :: taken, _⟩, rfl, ⟨rfl, ⟨0, rfl⟩, by simp, not_begins_char hescape _,
      breaksOff_of_not_mem hplain, ?_, fun _ => ?_⟩, ⟨by rw [hsplit]; rfl, rfl, rfl⟩, ?_⟩
    · rw [unescaped_of_not_mem hplain, String.toList_ofList]
    · rw [String.toList_ofList]
    · rintro rfl
      cases hop
  | case6 p c cs hc hgap =>
    obtain ⟨rfl, rfl⟩ := Prod.mk.inj (Except.ok.inj h)
    have hplain : '\\' ∉ c :: cs.takeWhile isGap := by
      intro hmem
      have hall : (c :: cs.takeWhile isGap).all isGap = true := by simp [hgap]
      exact absurd (List.all_eq_true.1 hall _ hmem) (by decide)
    refine ⟨⟨false, [], c :: cs.takeWhile isGap, _⟩, rfl, ⟨rfl, ⟨0, rfl⟩, by simp,
      not_begins_char (fun heq => hplain (heq ▸ List.mem_cons_self)) _,
      breaksOff_of_not_mem hplain, ?_, fun h => by cases h⟩, ⟨?_, rfl, rfl⟩, fun h => by cases h⟩
    · rw [unescaped_of_not_mem hplain, String.toList_ofList]
    · rw [Lexeme.text, List.nil_append, List.cons_append, List.takeWhile_append_dropWhile]
  | case7 p c cs hc hgap =>
    have hescape := ne_backslash_of_isWordChar (isWordChar_iff.2 ⟨Bool.eq_false_iff.2 hgap, hc⟩)
    obtain ⟨value, t, hw, hmake⟩ := word_of_map_eq_ok h
    obtain ⟨rfl, rfl⟩ := Prod.mk.inj hmake
    obtain ⟨own, hown, hposition, hwhole, hvalue, hends⟩ := word_own hw
    refine ⟨⟨false, [], c :: own, _⟩, rfl, ⟨rfl, ⟨0, rfl⟩, by simp, not_begins_char hescape _,
      ?_, ?_, fun h => by cases h⟩, ⟨by rw [hown]; rfl, rfl, hposition⟩, fun _ => hends⟩
    · rw [breaksOff_char hescape, hwhole]
    · rw [unescaped_char hescape, hvalue, String.toList_ofList]

/-- Without a token, nothing but continued line ends is left, or the text breaks off. -/
theorem token_error (h : tokenFrom p cs = .error cause) :
    cause = .endOfStream ∧ (∃ n, cs = continued n) ∨
      cause = .unexpectedEnd ∧ breaksOff cs = true := by
  fun_induction tokenFrom p cs with
  | case1 p => exact .inl ⟨(Except.error.inj h).symm, 0, rfl⟩
  | case2 p c hc =>
    obtain rfl := TokenKind.eq_of_ofStart?_backslash hc
    exact .inr ⟨(Except.error.inj h).symm, rfl⟩
  | case3 p c hc ds ih =>
    obtain rfl := TokenKind.eq_of_ofStart?_backslash hc
    rcases ih h with ⟨hcause, n, rfl⟩ | ⟨hcause, hbreaks⟩
    · exact .inl ⟨hcause, n + 1, (continued_succ n).symm⟩
    · exact .inr ⟨hcause, by rw [breaksOff_escape, hbreaks]⟩
  | case4 p c hc d ds hd =>
    obtain rfl := TokenKind.eq_of_ofStart?_backslash hc
    refine .inr ⟨(word_map_error h).2, ?_⟩
    rw [breaksOff_escape, word_breaksOff (word_map_error h).1]
  | case5 p c cs start hstart hc kind taken left hmunch => cases h
  | case6 p c cs hc hgap => cases h
  | case7 p c cs hc hgap =>
    have hescape := ne_backslash_of_isWordChar (isWordChar_iff.2 ⟨Bool.eq_false_iff.2 hgap, hc⟩)
    refine .inr ⟨(word_map_error h).2, ?_⟩
    rw [breaksOff_char hescape, word_breaksOff (word_map_error h).1]

/-- A text without backslashes is read to its end. -/
theorem token_error_of_not_mem (hescape : '\\' ∉ cs) (h : tokenFrom p cs = .error cause) :
    cause = .endOfStream ∧ cs = [] := by
  rcases token_error h with ⟨rfl, n, rfl⟩ | ⟨-, hbreaks⟩
  · refine ⟨rfl, ?_⟩
    cases n with
    | zero => rfl
    | succ n => exact absurd List.mem_cons_self hescape
  · rw [breaksOff_of_not_mem hescape] at hbreaks
    cases hbreaks

/-- A run of characters of a class is as long as possible. -/
theorem run_stops (q : Char → Bool) (cs : List Char) :
    ∀ c ∈ (cs.dropWhile q).head?, q c = false := by
  intro c hc
  have hstop := List.head?_dropWhile_not q cs
  rw [Option.mem_def.1 hc] at hstop
  simpa using hstop

/-- Quoted text that is read stands first in the text, up to the quote that ends it. -/
theorem exists_quoted (h : t.verbatim = .ok (token, t')) :
    ∃ l : Lexeme, l.token = token ∧ l.Quoted ∧ l.Leads t t' := by
  obtain ⟨p, cs⟩ := t
  cases hrest : cs.dropWhile isNotQuote with
  | nil =>
    simp only [verbatim, hrest] at h
    cases h
  | cons c left =>
    have hc : c = '\'' := by
      have hstop := run_stops isNotQuote cs c (by rw [hrest]; rfl)
      simpa [isNotQuote] using hstop
    simp only [verbatim, hrest] at h
    obtain ⟨rfl, rfl⟩ := Prod.mk.inj (Except.ok.inj h)
    subst hc
    refine ⟨⟨true, [], cs.takeWhile isNotQuote ++ ['\''], _⟩, rfl, ⟨rfl, rfl, ?_, ?_, rfl⟩,
      ⟨?_, rfl, ?_⟩⟩
    · rw [String.toList_ofList]
    · rw [String.toList_ofList]
      intro hmem
      have hall := List.all_eq_true.1 (List.all_takeWhile (p := isNotQuote) (l := cs)) _ hmem
      exact absurd hall (by decide)
    · rw [Lexeme.text, List.nil_append, List.append_assoc, List.singleton_append, ← hrest,
        List.takeWhile_append_dropWhile]
    · rw [Lexeme.text, List.nil_append, Position.past_append]
      rfl

end Tape

end PocketShell
