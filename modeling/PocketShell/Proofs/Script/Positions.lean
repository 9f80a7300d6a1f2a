import PocketShell.Proofs.Lexing.MaximalMunch
import PocketShell.Proofs.Script.Moments

/-!
# Positions of tokens and of syntax errors

* `Position.behind` : the position behind a text, by counting its lines and the characters of the
  last one;
* `Lexeme.starts` : the parts of a text before each of the tokens that stand in it;
* `Lexeme.Placed` : tokens stand in a text one after the other, each with the position behind the
  part before it;
* `Forest.reads` : all tokens that parsing a source reads, the one that is refused included;
* `SyntaxError.Raised` : a syntax error is about the token that was read and not fed, or about the
  end;
* `Forest.reads_of_parses` : what a cursor makes of a text says where its tokens stand.
-/

namespace PocketShell

/-! ## Positions in a text -/

namespace Position

/-- The position behind a text. -/
def behind (cs : List Char) : Position where
  line := 1 + cs.count '\n'
  column := 1 + (cs.reverse.takeWhile (· ≠ '\n')).length

theorem behind_concat (cs : List Char) (c : Char) :
    behind (cs ++ [c]) = (behind cs).after c := by
  by_cases hc : c = '\n'
  · subst hc
    simp [behind, after, Nat.add_assoc]
  · simp [behind, after, hc, Nat.add_assoc]

/-- Going on character by character comes to the position behind the text. -/
theorem past_eq_behind (cs : List Char) : ({} : Position).past cs = behind cs := by
  induction hn : cs.reverse generalizing cs with
  | nil =>
    obtain rfl := List.reverse_eq_nil_iff.1 hn
    rfl
  | cons c ds ih =>
    obtain rfl : cs = ds.reverse ++ [c] := by rw [← List.reverse_cons, ← hn, List.reverse_reverse]
    rw [past_append, ih ds.reverse (List.reverse_reverse ds), behind_concat]
    rfl

end Position

/-! ## Tokens one after the other -/

namespace Lexeme

/-- The parts of a text before each of its tokens; `before` is the part before all of them. -/
def starts (before : List Char) : List Lexeme → List (List Char)
  | [] => []
  | l :: ls => (before ++ l.skipped) :: starts (before ++ l.text) ls

/-- Tokens stand in a text one after the other. A quoted one stands behind the quote that opens it.
The position of a token is the one behind the part of the text before it. -/
structure Placed (text : List Char) (ls : List Lexeme) : Prop where
  valid : ∀ l ∈ ls, l.Plain ∨ l.Quoted
  covers : ls.flatMap Lexeme.text <+: text
  unquoted : ∀ l ∈ ls.head?, l.quoted = false
  opened : ls.IsChain fun l next => next.quoted = true → l.quoted = false ∧ l.own = ['\'']
  positions : ls.map (·.token.position) = (starts [] ls).map Position.behind
  increasing : (starts [] ls).IsChain fun u v => u <+: v ∧ u ≠ v

/-- Tokens are the first things on a tape, one after the other. -/
inductive Stand : Tape → List Lexeme → Prop where
  | nil (t : Tape) : Stand t []
  | cons {t t' : Tape} {l : Lexeme} {ls : List Lexeme} (hvalid : l.Plain ∨ l.Quoted)
    (hleads : l.Leads t t') (hrest : Stand t' ls) : Stand t (l :: ls)

theorem own_ne_nil {l : Lexeme} (h : l.Plain ∨ l.Quoted) : l.own ≠ [] := by
  rcases h with h | h
  · exact h.nonempty
  · rw [h.own]
    simp

namespace Stand

variable {t : Tape} {ls : List Lexeme} {before : List Char}

theorem valid (h : Stand t ls) : ∀ l ∈ ls, l.Plain ∨ l.Quoted := by
  induction h with
  | nil => simp
  | cons hvalid _ _ ih => exact List.forall_mem_cons.2 ⟨hvalid, ih⟩

theorem covers (h : Stand t ls) : ls.flatMap Lexeme.text <+: t.chars := by
  induction h with
  | nil => exact List.nil_prefix
  | cons _ hleads _ ih =>
    rw [List.flatMap_cons, hleads.chars]
    exact (List.prefix_append_right_inj _).2 ih

theorem positions (h : Stand t ls) (hbefore : t.position = Position.behind before) :
    ls.map (·.token.position) = (starts before ls).map Position.behind := by
  have hpast (before cs : List Char) :
      (Position.behind before).past cs = Position.behind (before ++ cs) := by
    rw [← Position.past_eq_behind, ← Position.past_eq_behind, Position.past_append]
  induction h generalizing before with
  | nil => rfl
  | @cons t t' l ls _ hleads _ ih =>
    have hleft : t'.position = Position.behind (before ++ l.text) := by
      rw [hleads.left, hbefore, hpast]
    have htoken : l.token.position = Position.behind (before ++ l.skipped) := by
      rw [hleads.token, hbefore, hpast]
    rw [List.map_cons, htoken, ih hleft]
    rfl

/-- Each token begins behind the one before it. -/
theorem increasing (h : Stand t ls) : (starts before ls).IsChain fun u v => u <+: v ∧ u ≠ v := by
  induction h generalizing before with
  | nil => exact .nil
  | @cons t t' l ls hvalid _ hrest ih =>
    cases hrest with
    | nil => exact .singleton _
    | @cons _ _ next ls _ _ _ =>
      refine List.isChain_cons_cons.2 ⟨⟨?_, ?_⟩, ih⟩
      · rw [Lexeme.text, List.append_assoc, List.append_assoc]
        exact (List.prefix_append_right_inj _).2 (List.prefix_append _ _)
      · intro heq
        have hlength := congrArg List.length heq
        have hpos := List.length_pos_iff.2 (own_ne_nil hvalid)
        simp only [Lexeme.text, List.length_append] at hlength
        omega

end Stand

end Lexeme

/-! ## Quoted text -/

namespace Cursor

variable {c c' : Cursor} {t : Tree} {kind : Sequence} {parts : List Tree} {path : List Crumb}
  {token : Token}

/-- The answer is no cursor that waits for quoted text. -/
def Unquoted : Except Fault Cursor → Prop
  | .ok c => c.wantsVerbatim = false
  | .error _ => True

theorem unquoted_leave : Unquoted (leave t path) := by
  unfold leave
  split
  · exact rfl
  · exact trivial

theorem unquoted_close : Unquoted (close kind parts path) := by
  unfold close
  split
  · exact rfl
  · exact unquoted_leave
  · exact trivial

theorem unquoted_closeParenthesis : Unquoted (closeParenthesis t path) := by
  unfold closeParenthesis
  split
  · exact unquoted_close
  · exact trivial
  · exact trivial

theorem unquoted_backtick {quoted : Bool} : Unquoted (backtick kind parts path quoted) := by
  unfold backtick
  split
  · exact unquoted_close
  · exact rfl

theorem unquoted_endStatement : Unquoted (endStatement t path) := by
  unfold endStatement
  split
  · exact rfl
  · exact trivial

theorem unquoted_join {op : JoinOp} {target : Bool} : Unquoted (join t path op target) := by
  unfold join
  split
  · exact trivial
  · exact rfl

/-- Only a single quote makes a command wait for quoted text. -/
theorem unquoted_feedCommand {target : Bool} (h : token.kind ≠ .quote) :
    Unquoted (feedCommand target parts path token) := by
  unfold feedCommand
  dsimp only
  split
  · split
    · exact rfl
    · exact unquoted_endStatement
  · split
    · exact trivial
    · exact unquoted_endStatement
  · exact rfl
  · split <;> exact rfl
  · split
    · exact trivial
    · exact rfl
  · exact unquoted_closeParenthesis
  · exact rfl
  · exact rfl
  · exact unquoted_backtick
  · exact absurd ‹_› h
  · exact rfl
  · exact rfl
  · split
    · exact trivial
    · split
      · exact unquoted_join
      · exact trivial

theorem unquoted_feedList (h : token.kind ≠ .quote) :
    Unquoted (feedList kind parts path token) := by
  unfold feedList
  split
  · exact rfl
  · exact rfl
  · exact rfl
  · exact unquoted_close
  · exact unquoted_close
  · exact trivial
  · exact unquoted_close
  · exact unquoted_feedCommand h

theorem unquoted_feedClosedGroup : Unquoted (feedClosedGroup parts path token) := by
  unfold feedClosedGroup
  split
  · split
    · exact rfl
    · exact unquoted_endStatement
    · exact unquoted_endStatement
    · exact unquoted_closeParenthesis
    · exact rfl
    · split
      · exact unquoted_join
      · exact trivial
  · exact trivial

theorem unquoted_feedDblQuote : Unquoted (feedDblQuote parts path token) := by
  unfold feedDblQuote
  split
  · exact unquoted_leave
  · exact rfl
  · exact rfl
  · exact unquoted_backtick
  · exact rfl

theorem unquoted_feedSequence (h : token.kind ≠ .quote) :
    Unquoted (feedSequence kind parts path token) := by
  unfold feedSequence
  split
  · exact unquoted_feedList h
  · exact unquoted_feedList h
  · exact unquoted_feedList h
  · exact unquoted_feedClosedGroup
  · exact unquoted_feedCommand h
  · exact unquoted_feedDblQuote

theorem unquoted_feedFocus (h : token.kind ≠ .quote) : Unquoted (c.feedFocus token) := by
  unfold feedFocus
  split
  · exact unquoted_feedSequence h
  · exact trivial

theorem unquoted_feedVariable {name : String} (h : token.kind ≠ .quote) :
    Unquoted (feedVariable name path token) := by
  unfold feedVariable
  split
  · dsimp only
    split
    · split
      · exact unquoted_feedSequence h
      · split
        · exact unquoted_feedSequence h
        · exact rfl
    · split
      · split
        · exact unquoted_feedFocus h
        · exact trivial
      · exact unquoted_feedSequence h
  · exact trivial

/-- What waits for quoted text was given the quote that opens it. -/
theorem opened_of_wantsVerbatim (hfeed : c.feed token = .ok c') (h : c'.wantsVerbatim = true) :
    c.wantsVerbatim = false ∧ token.kind = .quote := by
  have hcontra (hunquoted : Unquoted (c.feed token)) : False := by
    rw [hfeed] at hunquoted
    exact Bool.false_ne_true (hunquoted.symm.trans h)
  cases hc : c.wantsVerbatim with
  | true =>
    refine (hcontra ?_).elim
    obtain ⟨focus, path⟩ := c
    cases focus with
    | seq kind parts => cases hc
    | leaf l =>
      cases l with
      | quote text => exact unquoted_leave
      | ident | whitespace | var | comment => cases hc
  | false =>
    refine ⟨rfl, Decidable.not_not.1 fun hkind => hcontra ?_⟩
    unfold feed
    split
    · exact unquoted_feedVariable hkind
    · exact unquoted_leave
    · split
      · split
        · exact unquoted_feedFocus hkind
        · exact trivial
      · exact hc
    · exact unquoted_feedFocus hkind

end Cursor

/-! ## The tokens of a parse -/

/-- What a syntax error is about: the last token that was read, which was not fed, or the end of the
text, where all tokens were fed. -/
inductive SyntaxError.Raised (read fed : List Token) (last : Position) (e : SyntaxError) :
    Prop where
  | token (token : Token) (hread : read = fed ++ [token]) (hposition : e.position = token.position)
    (htoken : e.token = some token.value)
  | ending (hread : read = fed) (hposition : e.position = last) (htoken : e.token = none)

theorem SyntaxError.Raised.cons {read fed : List Token} {last : Position} {e : SyntaxError}
    (h : e.Raised read fed last) (token : Token) :
    e.Raised (token :: read) (token :: fed) last := by
  cases h with
  | token raised hread hposition htoken => exact .token raised (by rw [hread]; rfl) hposition htoken
  | ending hread hposition htoken => exact .ending (by rw [hread]) hposition htoken

namespace Forest

/-- The tokens that `parseFrom` reads, each with whether it is quoted text. -/
def readFrom (f : Forest) (context : NodeId) (s : Source) : List (Bool × Token) :=
  match _hn : f.nextToken context s with
  | (_, .error _) => []
  | (s', .ok token) =>
    match f.feed context token with
    | (_, .error _) => [(f.wantsVerbatim context, token)]
    | (f', .ok next) => (f.wantsVerbatim context, token) :: readFrom f' next s'
termination_by s.size
decreasing_by exact size_nextToken _hn

/-- The tokens that `parse` reads, each with whether it is quoted text. -/
def reads (s : Source) : List (Bool × Token) := readFrom {} root s

variable {f f' : Forest} {context next : NodeId} {s s' : Source} {token : Token} {cause : Fault}
  {strays : List NodeId} {c : Cursor} {t : Tape} {r : Except SyntaxError Cursor}

section step

theorem readFrom_step (hnext : f.nextToken context s = (s', .ok token))
    (hfeed : f.feed context token = (f', .ok next)) :
    f.readFrom context s = (f.wantsVerbatim context, token) :: f'.readFrom next s' := by
  rw [readFrom]
  split
  · simp_all
  · rename_i heq
    rw [hnext, Prod.mk.injEq, Except.ok.injEq] at heq
    obtain ⟨rfl, rfl⟩ := heq
    split <;> simp_all

theorem readFrom_halt {halt : Halt} (hnext : f.nextToken context s = (s', .error halt)) :
    f.readFrom context s = [] := by
  rw [readFrom]
  split
  · rfl
  · simp_all

theorem readFrom_refused (hnext : f.nextToken context s = (s', .ok token))
    (hfeed : (f.feed context token).2 = .error cause) :
    f.readFrom context s = [(f.wantsVerbatim context, token)] := by
  rw [readFrom]
  split
  · simp_all
  · rename_i heq
    rw [hnext, Prod.mk.injEq, Except.ok.injEq] at heq
    obtain ⟨rfl, rfl⟩ := heq
    split <;> simp_all

theorem momentsFrom_refused (hnext : f.nextToken context s = (s', .ok token))
    (hfeed : (f.feed context token).2 = .error cause) : f.momentsFrom context s = [] := by
  rw [momentsFrom]
  split
  · rfl
  · rename_i heq
    rw [hnext, Prod.mk.injEq, Except.ok.injEq] at heq
    obtain ⟨rfl, rfl⟩ := heq
    split <;> simp_all

end step

end Forest

namespace Cursor

variable {c : Cursor} {t t' : Tape} {token : Token}

/-- The next token of a cursor stands first in the text. A quote stands for itself. -/
theorem exists_lexeme (h : c.nextToken t = .ok (token, t')) :
    ∃ l : Lexeme, l.token = token ∧ l.quoted = c.wantsVerbatim ∧ (l.Plain ∨ l.Quoted) ∧
      l.Leads t t' ∧ (token.kind = .quote → l.own = ['\'']) := by
  unfold nextToken at h
  cases hc : c.wantsVerbatim with
  | true =>
    rw [hc, if_pos rfl] at h
    obtain ⟨l, rfl, hquoted, hleads⟩ := Tape.exists_quoted h
    refine ⟨l, rfl, hquoted.quoted, .inr hquoted, hleads, fun hkind => ?_⟩
    rw [hquoted.kind] at hkind
    cases hkind
  | false =>
    rw [hc, if_neg Bool.false_ne_true] at h
    obtain ⟨l, rfl, hplain, hleads, -⟩ := Tape.exists_plain h
    refine ⟨l, rfl, hplain.quoted, .inl hplain, hleads, fun hkind => ?_⟩
    have hop : l.token.kind.isOperator = true := by rw [hkind]; rfl
    have hall : ∀ op ∈ operators, op.2 = .quote → op.1 = ['\''] := by decide
    rw [hplain.operator hop]
    exact hall _ (Tape.mem_operators_of_token h hop) hkind

end Cursor

namespace Forest

variable {f : Forest} {context : NodeId} {s : Source} {strays : List NodeId} {c : Cursor} {t : Tape}
  {r : Except SyntaxError Cursor}

/-- Where the tokens of a parse stand, and what a syntax error is about. -/
structure ReadsOf (c : Cursor) (t : Tape) (read : List (Bool × Token)) (fed : List Token)
    (r : Except SyntaxError Cursor) (ls : List Lexeme) : Prop where
  read : ls.map (fun l => (l.quoted, l.token)) = read
  stand : Lexeme.Stand t ls
  first : ∀ l ∈ ls.head?, l.quoted = c.wantsVerbatim
  opened : ls.IsChain fun l next => next.quoted = true → l.quoted = false ∧ l.own = ['\'']
  raised : ∀ e, r = .error e → e.Raised (ls.map Lexeme.token) fed t.last

theorem reads_of_parses (h : c.Parses t r) (hat : f.At strays context c) (hvalid : c.Valid)
    (hs : s.Shows t) :
    ∃ ls, ReadsOf c t (f.readFrom context s) ((f.momentsFrom context s).map Moment.token) r ls := by
  induction h generalizing f context s strays with
  | @step c c' t t' token r hnext hfeed _ ih =>
    obtain ⟨s', f', context', hnext', hfeed', hat', hvalid', hs'⟩ :=
      hat.takes hvalid hs hnext hfeed
    obtain ⟨ls, hls⟩ := ih hat' hvalid' hs'
    obtain ⟨l, rfl, hquoted, hlexeme, hleads, hquote⟩ := Cursor.exists_lexeme hnext
    refine ⟨l :: ls, ?_, .cons hlexeme hleads hls.stand, by simpa using hquoted, ?_, fun e he => ?_⟩
    · rw [readFrom_step hnext' hfeed', wantsVerbatim_eq hat, List.map_cons, hls.read, hquoted]
    · cases ls with
      | nil => exact .singleton _
      | cons next ls =>
        refine List.isChain_cons_cons.2 ⟨fun hverbatim => ?_, hls.opened⟩
        rw [hls.first next rfl] at hverbatim
        obtain ⟨hplain, hkind⟩ := Cursor.opened_of_wantsVerbatim hfeed hverbatim
        exact ⟨hquoted.trans hplain, hquote hkind⟩
    · rw [momentsFrom_step hnext' hfeed', List.map_cons, List.map_cons,
        ← Cursor.last_nextToken hnext]
      exact (hls.raised e he).cons l.token
  | @refused c t t' token cause hnext hfeed =>
    obtain ⟨s', hnext', hrefused⟩ := hat.refuses hvalid hs hnext hfeed
    obtain ⟨l, rfl, hquoted, hlexeme, hleads, -⟩ := Cursor.exists_lexeme hnext
    refine ⟨[l], ?_, .cons hlexeme hleads (.nil _), by simpa using hquoted, .singleton _,
      fun e he => ?_⟩
    · rw [readFrom_refused hnext' hrefused, wantsVerbatim_eq hat, ← hquoted]
      rfl
    · obtain rfl := Except.error.inj he
      rw [momentsFrom_refused hnext' hrefused]
      exact .token l.token rfl rfl rfl
  | ended hnext =>
    obtain ⟨s', hnext', -⟩ := nextToken_halts hat hs hnext
    rw [readFrom_halt hnext']
    exact ⟨[], rfl, .nil _, by simp, .nil, fun e he => by cases he⟩
  | cutShort hnext
  | unclosed hnext =>
    obtain ⟨s', hnext', -⟩ := nextToken_halts hat hs hnext
    rw [readFrom_halt hnext', momentsFrom_halt hnext']
    refine ⟨[], rfl, .nil _, by simp, .nil, fun e he => ?_⟩
    obtain rfl := Except.error.inj he
    exact .ending rfl rfl rfl

/-- **Positions are true.** The tokens that parsing a text reads stand in it one after the other,
each of them further on than the one before, and have the position behind the part of the text that
comes before their first character. A syntax error has the position and the value of the token that
was refused, or no token and the position behind the whole text. -/
theorem parse_positions (text : String) :
    ∃ ls : List Lexeme,
      ls.map (fun l => (l.quoted, l.token)) = reads (Source.ofText text) ∧
      Lexeme.Placed text.toList ls ∧
      ∀ e, parse (Source.ofText text) = .error (.wrong e) →
        e.Raised (ls.map Lexeme.token) ((moments (Source.ofText text)).map Moment.token)
          (Position.behind text.toList) := by
  obtain ⟨r, hr⟩ := Cursor.parses_total Cursor.start ⟨{}, text.toList⟩
  obtain ⟨ls, hls⟩ := reads_of_parses hr at_start Cursor.valid_start (Source.shows_ofText text)
  refine ⟨ls, hls.read, ⟨hls.stand.valid, hls.stand.covers, hls.first, hls.opened,
    hls.stand.positions rfl, hls.stand.increasing⟩, fun e he => ?_⟩
  have hanswers := parse_of_parses hr
  rw [he] at hanswers
  cases r with
  | ok c =>
    obtain ⟨-, _, hok, -⟩ := hanswers
    cases hok
  | error e' =>
    obtain rfl : e = e' := Unparsed.wrong.inj (Except.error.inj hanswers)
    rw [← Position.past_eq_behind]
    exact hls.raised e rfl

end Forest

end PocketShell
