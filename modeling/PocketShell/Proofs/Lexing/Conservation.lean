import PocketShell.Proofs.Lexing.Lexemes
import PocketShell.Proofs.Script.Delivery

/-!
# Tokens keep the text

* `tokensOf` : the tokens of a text when no single quote means anything, and why there are no more;
* `Tape.Lexed` : these tokens, by recursion on the text (`Source.exists_lexed`);
* `Lexed.conserves` : together they are the text without its backslashes, unless it breaks off;
* `Lexed.separates` : words that follow each other are one token.
-/

namespace PocketShell

/-- The tokens of a text, none of them quoted, why there are no more, and where. -/
def tokensOf (text : String) : List Token × Halt × Position :=
  (Source.ofText text).tokens (fun _ => false) []

namespace Tape

/-- These tokens are read from a tape one after the other, and then there is none for this cause. -/
inductive Lexed : Tape → List Token → Fault → Prop where
  | stop {t : Tape} {cause : Fault} (h : t.token = .error cause) : Lexed t [] cause
  | token {t t' : Tape} {token : Token} {tokens : List Token} {cause : Fault}
    (h : t.token = .ok (token, t')) (hrest : Lexed t' tokens cause) :
    Lexed t (token :: tokens) cause

namespace Lexed

variable {t : Tape} {tokens : List Token} {cause : Fault}

/-- No character is lost and none comes twice. -/
theorem conserves (h : Lexed t tokens cause) :
    cause = .endOfStream ∧ breaksOff t.chars = false ∧
        tokens.flatMap (fun token => token.value.toList) = unescaped t.chars ∨
      cause = .unexpectedEnd ∧ breaksOff t.chars = true := by
  induction h with
  | stop h =>
    rcases token_error h with ⟨rfl, n, hn⟩ | ⟨rfl, hbreaks⟩
    · exact .inl ⟨rfl, by rw [hn, breaksOff_continued], by rw [hn, unescaped_continued]; rfl⟩
    · exact .inr ⟨rfl, hbreaks⟩
  | @token t t' token tokens cause h _ ih =>
    obtain ⟨l, rfl, hplain, hleads, -⟩ := exists_plain h
    obtain ⟨n, hn⟩ := hplain.skips
    have hskipped : breaksOff l.skipped = false := by rw [hn, breaksOff_continued]
    have htext : breaksOff l.text = false := by
      rw [Lexeme.text, breaksOff_append hskipped, hplain.whole]
    have hvalue : unescaped l.text = l.token.value.toList := by
      rw [Lexeme.text, unescaped_append hskipped, hn, unescaped_continued, hplain.value,
        List.nil_append]
    have hchars : t.chars = l.text ++ t'.chars := hleads.chars
    rw [hchars, breaksOff_append htext, unescaped_append htext, hvalue]
    refine ih.imp_left fun hih => ⟨hih.1, hih.2.1, ?_⟩
    rw [List.flatMap_cons, hih.2.2]

/-- What follows a word is no word. -/
theorem separates (h : Lexed t tokens cause) :
    tokens.IsChain fun a b => ¬(a.kind = .identifier ∧ b.kind = .identifier) := by
  induction h with
  | stop h => exact .nil
  | @token t t' token tokens cause h hrest ih =>
    cases hrest with
    | stop h' => exact .singleton _
    | token h' _ =>
      rw [List.isChain_cons_cons]
      refine ⟨fun hboth => ?_, ih⟩
      obtain ⟨l, -, -, -, hends⟩ := exists_plain h
      exact Cursor.kind_of_bounded (hends hboth.1) h' hboth.2

end Lexed

end Tape

namespace Source

variable {s : Source} {t : Tape}

/-- Reading tokens from a source is reading them from its tape; the last position is the end. -/
theorem exists_lexed (h : s.Shows t) (before : List Token) :
    ∃ tokens cause, t.Lexed tokens cause ∧
      s.tokens (fun _ => false) before = (before.reverse ++ tokens, .fault cause, t.last) := by
  induction hn : t.chars.length using Nat.strongRecOn generalizing s t before with
  | ind n ih =>
    subst hn
    have hyields := token_of_shows h
    cases htoken : t.token with
    | error cause =>
      rw [htoken] at hyields
      refine ⟨[], cause, .stop htoken, ?_⟩
      have hnext : s.next false = (s.token.1, .error (.fault cause)) := Prod.ext rfl hyields
      rw [tokens_end hnext, token_halts h htoken, List.append_nil]
    | ok next =>
      obtain ⟨token, t'⟩ := next
      rw [htoken] at hyields
      obtain ⟨taken, hne, htaken, hposition⟩ := Tape.tokenFrom_split htoken
      have hlt : t'.chars.length < t.chars.length := by
        rw [htaken, List.length_append]
        exact Nat.lt_add_of_pos_left (List.length_pos_iff.2 hne)
      have hlast : t'.last = t.last := by
        rw [Tape.last, Tape.last, htaken, hposition, Position.past_append]
      obtain ⟨tokens, cause, hlexed, heq⟩ := ih _ hlt hyields.2 (token :: before) rfl
      have hnext : s.next false = (s.token.1, .ok token) := Prod.ext rfl hyields.1
      refine ⟨token :: tokens, cause, .token htoken hlexed, ?_⟩
      rw [tokens_step hnext, heq, hlast, List.reverse_cons, List.append_assoc]
      rfl

end Source

theorem exists_lexed_tokensOf (text : String) :
    ∃ cause, Tape.Lexed ⟨{}, text.toList⟩ (tokensOf text).1 cause ∧
      (tokensOf text).2.1 = .fault cause := by
  obtain ⟨tokens, cause, hlexed, htokens⟩ := Source.exists_lexed (Source.shows_ofText text) []
  rw [← tokensOf, List.reverse_nil, List.nil_append] at htokens
  exact ⟨cause, by rw [htokens]; exact hlexed, by rw [htokens]⟩

/-- **Tokens keep the text.** A text breaks off if and only if it ends in a backslash that escapes
nothing. All other texts are read to their end: the values of their tokens, one after the other, are
the text without its continued line ends and with its escaped characters as they are. No two words
follow each other. -/
theorem tokensOf_conserve (text : String) :
    (tokensOf text).2.1 =
        .fault (if breaksOff text.toList = true then .unexpectedEnd else .endOfStream) ∧
      (breaksOff text.toList = false →
        String.join ((tokensOf text).1.map Token.value) = String.ofList (unescaped text.toList)) ∧
      (tokensOf text).1.IsChain fun a b => ¬(a.kind = .identifier ∧ b.kind = .identifier) := by
  obtain ⟨cause, hlexed, hhalt⟩ := exists_lexed_tokensOf text
  refine ⟨?_, fun hwhole => ?_, hlexed.separates⟩
  · rcases hlexed.conserves with ⟨rfl, hwhole, -⟩ | ⟨rfl, hbreaks⟩
    · rw [hhalt, hwhole, if_neg Bool.false_ne_true]
    · rw [hhalt, hbreaks, if_pos rfl]
  · rcases hlexed.conserves with ⟨-, -, hvalues⟩ | ⟨-, hbreaks⟩
    · rw [← String.toList_inj, String.toList_join, String.toList_ofList, List.flatMap_map, hvalues]
    · rw [hwhole] at hbreaks
      cases hbreaks

/-- Escapes, continued line ends between and inside words, and two gaps in a row. -/
example : (tokensOf "a\\ b\\|c \\\n d\\\ne").1.map Token.value = ["a b|c", " ", " ", "de"] := by
  decide +kernel

end PocketShell
