import PocketShell.Token

/-!
# Reading tokens

* `Source.unit` : one raw unit, that is an operator, a run of white space, a run of word characters
  or an escaped character;
* `Source.token` : the next token. Word characters and escaped characters that follow each other are
  one token, and a line continued by a backslash leaves no trace;
* `Source.verbatim` : the text up to the closing single quote, which it takes as well.

Every token takes at least one character (`size_token`, `size_verbatim`).
-/

namespace PocketShell.Source

/-! ## Raw units -/

/-- Makes an operator as long as possible. -/
def munch (s : Source) (kind : TokenKind) (value : List Char) :
    Source × Except Halt (TokenKind × List Char) :=
  match kind.longer? with
  | none => (s, .ok (kind, value))
  | some (more, longer) =>
    match _hp : s.peek with
    | (s₁, .error halt) => (s₁, if halt.isEnd then .ok (kind, value) else .error halt)
    | (s₁, .ok c) =>
      if c = more then
        match _hr : s₁.read with
        | (s₂, .error halt) => (s₂, .error halt)
        | (s₂, .ok c) => munch s₂ longer (value ++ [c])
      else (s₁, .ok (kind, value))
termination_by s.size
decreasing_by
  have h₁ := size_read _hr
  have h₂ := size_peek s
  rw [_hp] at h₂
  exact Nat.lt_of_lt_of_le h₁ h₂

/-- The character after a backslash: a line break continues the line, any other character stands for
itself. -/
def escapedChar (s : Source) (start : Position) : Source × Except Halt Token :=
  match s.read with
  | (s, .error halt) => (s, .error (if halt.isEnd then .fault .unexpectedEnd else halt))
  | (s, .ok c) =>
    (s, .ok ⟨if c = '\n' then .backslash else .identifier, c.toString, start⟩)

/-- A run of characters of a class whose first character has been taken. The end of the source is
left for the next token to find. -/
def run (s : Source) (start : Position) (kind : TokenKind) (p : Char → Bool) (first : Char) :
    Source × Except Halt Token :=
  let (s, rest, stop) := s.scan p
  match stop with
  | some halt =>
    (s, if halt.isEnd then .ok ⟨kind, String.ofList (first :: rest), start⟩ else .error halt)
  | none => (s, .ok ⟨kind, String.ofList (first :: rest), start⟩)

def unit (s : Source) : Source × Except Halt Token :=
  match s.peek with
  | (s₁, .error halt) => (s₁, .error halt)
  | (s₁, .ok _) =>
    let start := s₁.position
    match s₁.read with
    | (s₂, .error halt) => (s₂, .error halt)
    | (s₂, .ok c) =>
      match TokenKind.ofStart? c with
      | some .backslash => s₂.escapedChar start
      | some kind =>
        match s₂.munch kind [c] with
        | (s₃, .error halt) => (s₃, .error halt)
        | (s₃, .ok (kind, value)) => (s₃, .ok ⟨kind, String.ofList value, start⟩)
      | none =>
        if isGap c then s₂.run start .whitespace isGap c
        else s₂.run start .identifier isWordChar c

/-! ## What is left after a unit -/

theorem size_munch (s : Source) (kind : TokenKind) (value : List Char) :
    (s.munch kind value).1.size ≤ s.size := by
  fun_induction munch s kind value with
  | case1 => exact Nat.le_refl _
  | case2 s kind value more longer hl s₁ halt hp =>
    have := size_peek s; rw [hp] at this; exact this
  | case3 s kind value longer s₁ c hp s₂ halt hr hl =>
    have h₁ := size_peek s
    have h₂ := size_read_le s₁
    rw [hp] at h₁
    rw [hr] at h₂
    exact Nat.le_trans h₂ h₁
  | case4 s kind value longer s₁ c hp s₂ d hr hl ih =>
    have h₁ := size_peek s
    have h₂ := size_read hr
    rw [hp] at h₁
    simp only at *
    omega
  | case5 s kind value more longer hl s₁ c hp hc =>
    have := size_peek s; rw [hp] at this; exact this

theorem size_escapedChar (s : Source) (start : Position) :
    (s.escapedChar start).1.size ≤ s.size := by
  have h := size_read_le s
  unfold escapedChar
  split <;> rename_i hr <;> rw [hr] at h <;> exact h

theorem size_run (s : Source) (start : Position) (kind : TokenKind) (p : Char → Bool)
    (first : Char) : (s.run start kind p first).1.size ≤ s.size := by
  have h := size_scan p s
  unfold run
  split
  rename_i hs
  rw [hs] at h
  split <;> exact h

/-- A unit takes at least one character. -/
theorem size_unit {s t : Source} {token : Token} (h : s.unit = (t, .ok token)) :
    t.size < s.size := by
  have h₁ := size_peek s
  unfold unit at h
  split at h
  · simp at h
  · rename_i s₁ _ hp
    rw [hp] at h₁
    simp only at h
    split at h
    · simp at h
    · rename_i s₂ c hr
      have h₂ := size_read hr
      split at h
      · have h₃ := size_escapedChar s₂ s₁.position
        rw [h] at h₃
        simp only at *
        omega
      · rename_i kind _ _
        have h₃ := size_munch s₂ kind [c]
        split at h
        · simp at h
        · rename_i hm
          rw [hm] at h₃
          simp only [Prod.mk.injEq] at h
          obtain ⟨rfl, _⟩ := h
          simp only at *
          omega
      · split at h
        · have h₃ := size_run s₂ s₁.position .whitespace isGap c
          rw [h] at h₃
          simp only at *
          omega
        · have h₃ := size_run s₂ s₁.position .identifier isWordChar c
          rw [h] at h₃
          simp only at *
          omega

/-! ## Tokens -/

/-- Whether a token of this kind goes on with the character. -/
def joins (kind : TokenKind) (c : Char) : Bool :=
  match kind with
  | .identifier => c = '\\' || isWordChar c
  | .whitespace => isGap c
  | _ => false

/-- Adds the units that belong to the same token. -/
def extend (s : Source) (token : Token) : Source × Except Halt Token :=
  match _hp : s.peek with
  | (s₁, .error halt) => (s₁, if halt.isEnd then .ok token else .error halt)
  | (s₁, .ok c) =>
    if joins token.kind c then
      match _hu : s₁.unit with
      | (s₂, .error halt) => (s₂, .error halt)
      | (s₂, .ok unit) =>
        extend s₂
          (if unit.kind = .backslash then token
            else { token with kind := unit.kind, value := token.value ++ unit.value })
    else (s₁, .ok token)
termination_by s.size
decreasing_by
  have h₁ := size_unit _hu
  have h₂ := size_peek s
  rw [_hp] at h₂
  exact Nat.lt_of_lt_of_le h₁ h₂

/-- The next token. Operators end where they end; words and white space are extended. -/
def token (s : Source) : Source × Except Halt Token :=
  match _hu : s.unit with
  | (s₁, .error halt) => (s₁, .error halt)
  | (s₁, .ok unit) =>
    match unit.kind with
    | .backslash => token s₁
    | .identifier | .whitespace => s₁.extend unit
    | _ => (s₁, .ok unit)
termination_by s.size
decreasing_by exact size_unit _hu

/-- The text up to the next single quote, as one token. -/
def verbatim (s : Source) : Source × Except Halt Token :=
  match s.scan isNotQuote with
  | (s₁, _, some halt) => (s₁, .error (if halt.isEnd then .fault .unexpectedEnd else halt))
  | (s₁, text, none) =>
    match s₁.read with
    | (s₂, .error halt) => (s₂, .error halt)
    | (s₂, .ok _) => (s₂, .ok ⟨.identifier, String.ofList text, s.position⟩)

/-! ## What is left after a token -/

theorem size_extend {s t : Source} {token token' : Token}
    (h : s.extend token = (t, .ok token')) : t.size ≤ s.size := by
  fun_induction extend s token with
  | case1 s token s₁ halt hp =>
    have := size_peek s
    rw [hp] at this
    simp only [Prod.mk.injEq] at h
    exact h.1 ▸ this
  | case2 => simp at h
  | case3 s token s₁ c hp hc s₂ unit hu ih =>
    have h₁ := size_peek s
    have h₂ := size_unit hu
    rw [hp] at h₁
    simp only [dite_eq_ite] at *
    have := ih h
    omega
  | case4 s token s₁ c hp hc =>
    have := size_peek s
    rw [hp] at this
    simp only [Prod.mk.injEq] at h
    exact h.1 ▸ this

/-- A token takes at least one character. -/
theorem size_token {s t : Source} {token : Token} (h : s.token = (t, .ok token)) :
    t.size < s.size := by
  fun_induction Source.token s with
  | case1 => simp at h
  | case2 s s₁ unit hu hk ih => exact Nat.lt_trans (ih h) (size_unit hu)
  | case3 s s₁ unit hu hk => exact Nat.lt_of_le_of_lt (size_extend h) (size_unit hu)
  | case4 s s₁ unit hu hk => exact Nat.lt_of_le_of_lt (size_extend h) (size_unit hu)
  | case5 s s₁ unit hu =>
    simp only [Prod.mk.injEq] at h
    exact h.1 ▸ size_unit hu

theorem size_verbatim {s t : Source} {token : Token} (h : s.verbatim = (t, .ok token)) :
    t.size < s.size := by
  have h₁ := size_scan isNotQuote s
  unfold verbatim at h
  split at h
  · simp at h
  · rename_i s₁ text hs
    rw [hs] at h₁
    split at h
    · simp at h
    · rename_i s₂ _ hr
      have h₂ := size_read hr
      simp only [Prod.mk.injEq] at h
      obtain ⟨rfl, _⟩ := h
      simp only at *
      omega

end PocketShell.Source
