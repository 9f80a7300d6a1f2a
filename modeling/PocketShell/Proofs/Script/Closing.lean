import PocketShell.Proofs.Script.Embedding
import PocketShell.Proofs.Script.Outcomes
import PocketShell.Proofs.Script.Parts

/-!
# The end of a script inside another

A script that may end is read to its end wherever it stands, and then the token that ends the list
of statements around it is read.

* `Tree.literal` : a tree with every `$` that no name follows read as a word;
* `Base.Takes` : how a complete script on a base takes a token that is no word (`Base.takes_feed`);
* `Base.Takes.newline`, `Base.Takes.rparen`, `Base.Takes.backtick` : a line break ends its last
  statement, a parenthesis and a backtick end the list as well. A closed group refuses a backtick;
* `StandsAlone` : the characters that are these tokens wherever they stand;
* `Cursor.Parses.reads` : a script that may end is read up to such a character, on any base.
-/

namespace PocketShell

open Relation

/-! ## Dollar signs without a name -/

namespace Tree

mutual

/-- Reads a variable with an empty name as a literal `$`. -/
def literal : Tree → Tree
  | seq kind body => seq kind (literalAll body)
  | join op left right => join op (literal left) (literal right)
  | dangling op left => dangling op (literal left)
  | leaf (.var name) => if name.isEmpty then leaf (.ident "$") else leaf (.var name)
  | leaf l => leaf l

def literalAll : List Tree → List Tree
  | [] => []
  | t :: ts => literal t :: literalAll ts

end

theorem literalAll_eq (ts : List Tree) : literalAll ts = ts.map literal := by
  induction ts with
  | nil => rfl
  | cons t ts ih => rw [literalAll, ih, List.map_cons]

theorem literal_seq (kind : Sequence) (body : List Tree) :
    (seq kind body).literal = .seq kind (body.map literal) := by
  rw [literal, literalAll_eq]

end Tree

namespace Cursor

variable {c c' d : Cursor} {t t' : Tree} {path : List Crumb} {token : Token} {label : Tree.Label}

theorem literal_plug (h : t.literal = t'.literal) (path : List Crumb) :
    (plug t path).literal = (plug t' path).literal := by
  induction path generalizing t t' with
  | nil => exact h
  | cons crumb path ih =>
    refine ih ?_
    cases crumb with
    | seq kind older => simp [Crumb.fill, Tree.literal_seq, h]
    | join op left => simp [Crumb.fill, Tree.literal, h]

theorem literal_statements (hvalid : c.Valid) {body : List Tree}
    (h : (Tree.seq .script body).literal = c.tree.literal) :
    body.map Tree.literal = c.statements.map Tree.literal := by
  rw [tree_of_valid hvalid, Tree.literal_seq, Tree.literal_seq] at h
  exact (Tree.seq.inj h).2

/-- A part of a command stands in one, if nothing is open. -/
theorem command_of_closed (h : ValidBelow label path) (hlabel : label.isStatement = false)
    (hscript : label ≠ .seq .script)
    (hclosed : (path.map Crumb.label).any Tree.Label.isOpen = false) :
    ∃ target older rest, path = .seq (.command target) older :: rest ∧
      ValidBelow (.seq (.command target)) rest ∧
      (rest.map Crumb.label).any Tree.Label.isOpen = false := by
  obtain ⟨kind, older, rest, rfl, hkind, hrest⟩ := holder_of_valid h hlabel hscript
  rw [List.map_cons, List.any_cons, Bool.or_eq_false_iff] at hclosed
  cases kind with
  | command target => exact ⟨target, older, rest, rfl, hrest, hclosed.2⟩
  | dblQuote => cases hclosed.1
  | script | group | sub => cases hkind

end Cursor

/-! ## Leaving a complete script -/

namespace Base

open Cursor

variable {B : Base} {c d : Cursor} {path path' : List Crumb} {token : Token}
  {r : Except Fault Cursor}

/-- Where nothing is open, the first answer above a node of the script is the one of the base. -/
theorem Lies.ascend_of_closed {α : Type} {answer : Sequence → Option α} {a : α}
    {label : Tree.Label} (h : B.Lies path path') (hvalid : ValidBelow label path)
    (hclosed : (path.map Crumb.label).any Tree.Label.isOpen = false)
    (hanswer : ∀ kind, kind ≠ .script → (Tree.Label.seq kind).isOpen = false → answer kind = none)
    (hB : answer B.kind = some a) (t : Tree) :
    ∃ parts, ascend answer t path' = some (a, B.kind, parts ++ B.older, B.above) ∧
      plug t path = .seq .script parts.reverse := by
  induction h generalizing label t with
  | root older => exact ⟨t :: older, ascend_of_answer hB, rfl⟩
  | cons crumb h ih =>
    rw [List.map_cons, List.any_cons, Bool.or_eq_false_iff] at hclosed
    cases crumb with
    | join op left => exact ih hvalid.2 hclosed.2 (.join op left t)
    | seq kind older =>
      have hkind : kind ≠ .script := by
        rintro rfl
        rw [path_of_script hvalid.2] at h
        cases h
      obtain ⟨parts, hascend, hplug⟩ :=
        ih hvalid.2 hclosed.2 (.seq kind (t :: older).reverse)
      refine ⟨parts, ?_, hplug⟩
      rw [← hascend]
      simp only [ascend, hanswer kind hkind hclosed.1]

/-- What becomes of a token that is no word behind a complete script on a base. The token is for the
list of statements, for the last command, or for a closed group at its end. -/
inductive Takes (B : Base) (c : Cursor) (token : Token) : Except Fault Cursor → Prop where
  | between (parts : List Tree)
    (htree : (Tree.seq .script parts.reverse).literal = c.tree.literal) :
    Takes B c token (feedList B.kind (parts ++ B.older) B.above token)
  | command (target : Bool) (parts : List Tree) {path path' : List Crumb}
    (hlies : B.Lies path path') (hvalid : ValidBelow (.seq (.command target)) path)
    (hclosed : (path.map Crumb.label).any Tree.Label.isOpen = false)
    (hwords : awaitsWords (.seq (.command target) parts) path = false)
    (htree : (plug (.seq (.command target) parts.reverse) path).literal = c.tree.literal) :
    Takes B c token (feedCommand target parts path' token)
  | group (parts : List Tree) {path path' : List Crumb} (hlies : B.Lies path path')
    (hvalid : ValidBelow (.seq (.group true)) path)
    (hclosed : (path.map Crumb.label).any Tree.Label.isOpen = false)
    (hc : c = ⟨.seq (.group true) parts, path⟩) :
    Takes B c token (feedClosedGroup parts path' token)

/-- A word or a variable behind which a script ends stands in a command. -/
theorem takes_part {target : Bool} {older : List Tree} {part : Tree} (hlies : B.Lies path path')
    (hvalid : ValidBelow (.seq (.command target)) path)
    (hclosed : (path.map Crumb.label).any Tree.Label.isOpen = false)
    (hpart : isComment part = false)
    (htree : (plug part (.seq (.command target) older :: path)).literal = c.tree.literal) :
    B.Takes c token (feedCommand target (part :: older) path' token) :=
  .command target (part :: older) hlies hvalid hclosed
    (by simp [awaitsWords, hasWords, hpart]) htree

/-- A complete script takes a token in one of three places. -/
theorem takes_feed (hold : B.Holds c d) (hvalid : c.Valid) (hcomplete : c.isComplete = true)
    (hverbatim : c.wantsVerbatim = false) (hlist : statementList B.kind = some ())
    (hident : token.kind ≠ .identifier)
    (hcomment : c.focus = .leaf .comment → token.kind = .newline) :
    B.Takes c token (d.feed token) := by
  obtain ⟨⟨hfocus, hclosed⟩, hcut⟩ : (c.focus.label.isOpen = false ∧
      (c.path.map Crumb.label).any Tree.Label.isOpen = false) ∧ c.isCut = false := by
    simpa [isComplete] using hcomplete
  cases hold with
  | root parts =>
    simp only [feed, feedFocus, feedSequence_of_list hlist]
    exact .between parts rfl
  | @inside focus path path' hlies =>
    cases focus with
    | seq kind parts =>
      rw [isCut_of_ne (by simp)] at hcut
      cases kind with
      | script =>
        obtain rfl : path = [] := path_of_script hvalid
        cases hlies
      | command target => exact .command target parts hlies hvalid hclosed hcut rfl
      | group closed =>
        cases closed with
        | false => cases hfocus
        | true => exact .group parts hlies hvalid hclosed rfl
      | dblQuote | sub => cases hfocus
    | leaf l =>
      obtain ⟨target, older, rest, rfl, hrest, hclosed⟩ :=
        command_of_closed hvalid rfl (by simp [Focus.label]) hclosed
      cases hlies with
      | cons _ hlies =>
        rcases leaf_of_valid hvalid with ⟨name, rfl⟩ | ⟨text, rfl⟩ | rfl
        · by_cases hname : name.isEmpty = true
          · have hliteral : (Tree.leaf (.ident "$")).literal = (Tree.leaf (.var name)).literal := by
              simp [Tree.literal, hname]
            simp only [feed, feedVariable, hident, hname, if_true, if_false]
            rw [feedSequence_identifier rfl rfl]
            exact takes_part hlies hrest hclosed rfl (literal_plug hliteral _)
          · simp only [feed, feedVariable, hident, hname, if_false]
            exact takes_part hlies hrest hclosed rfl rfl
        · cases hverbatim
        · simp only [feed, hcomment rfl, if_true, leave]
          exact .command target _ hlies hrest hclosed
            ((awaitsWords_comment _ older rest).trans hcut) rfl

/-- A line break ends the last statement of a complete script. -/
theorem Takes.newline (h : B.Takes c token r) (hlist : statementList B.kind = some ())
    (htoken : token.kind = .newline) :
    ∃ parts, r = .ok ⟨.seq B.kind (parts ++ B.older), B.above⟩ ∧
      (Tree.seq .script parts.reverse).literal = c.tree.literal := by
  have hanswer (kind : Sequence) (hkind : kind ≠ .script)
      (hopen : (Tree.Label.seq kind).isOpen = false) : statementList kind = none := by
    unfold statementList
    split <;> simp_all [Tree.Label.isOpen]
  cases h with
  | between parts htree =>
    refine ⟨parts, ?_, htree⟩
    simp only [feedList, htoken]
  | command target parts hlies hvalid hclosed hwords htree =>
    obtain ⟨statements, hascend, hplug⟩ := hlies.ascend_of_closed hvalid hclosed hanswer hlist
      (.seq (.command target) parts.reverse)
    refine ⟨statements, ?_, ?_⟩
    · rw [awaitsWords, Bool.and_comm] at hwords
      simp only [feedCommand, htoken, endStatement, hascend, hlies.isOperand_eq, hwords]
      rfl
    · rw [← hplug, htree]
  | group parts hlies hvalid hclosed hc =>
    obtain ⟨older, rest, rfl, -⟩ := command_of_group hvalid
    obtain ⟨statements, hascend, hplug⟩ := hlies.ascend_of_closed hvalid hclosed hanswer hlist
      (.seq (.group true) parts.reverse)
    refine ⟨statements, ?_, ?_⟩
    · cases hlies
      simp only [feedClosedGroup, htoken, endStatement, hascend]
    · rw [← hplug, hc]
      rfl

/-- What the innermost parenthesis around the base closes. -/
theorem Lies.closeParenthesis_eq {label : Tree.Label} (h : B.Lies path path')
    (hvalid : ValidBelow label path)
    (hclosed : (path.map Crumb.label).any Tree.Label.isOpen = false)
    (hB : parenthesis B.kind = some (.ok ())) (t : Tree) :
    ∃ parts, closeParenthesis t path' = close B.kind (parts ++ B.older) B.above ∧
      plug t path = .seq .script parts.reverse := by
  obtain ⟨parts, hascend, hplug⟩ := h.ascend_of_closed hvalid hclosed (fun kind _ hopen => by
    unfold parenthesis
    split <;> simp_all [Tree.Label.isOpen]) hB t
  refine ⟨parts, ?_, hplug⟩
  simp only [closeParenthesis, hascend]

/-- A closing parenthesis ends a complete script. -/
theorem Takes.rparen (h : B.Takes c token r) (hB : parenthesis B.kind = some (.ok ()))
    (htoken : token.kind = .rparen) :
    ∃ parts, r = close B.kind (parts ++ B.older) B.above ∧
      (Tree.seq .script parts.reverse).literal = c.tree.literal := by
  cases h with
  | between parts htree =>
    refine ⟨parts, ?_, htree⟩
    unfold parenthesis at hB
    split at hB <;> simp_all [feedList]
  | command target parts hlies hvalid hclosed hwords htree =>
    obtain ⟨statements, hclose, hplug⟩ := hlies.closeParenthesis_eq hvalid hclosed hB
      (.seq (.command target) parts.reverse)
    refine ⟨statements, ?_, ?_⟩
    · simp only [feedCommand, htoken, hclose]
    · rw [← hplug, htree]
  | group parts hlies hvalid hclosed hc =>
    obtain ⟨older, rest, rfl, -⟩ := command_of_group hvalid
    obtain ⟨statements, hclose, hplug⟩ := hlies.closeParenthesis_eq hvalid hclosed hB
      (.seq (.group true) parts.reverse)
    refine ⟨statements, ?_, ?_⟩
    · cases hlies
      simp only [feedClosedGroup, htoken, hclose]
    · rw [← hplug, hc]
      rfl

/-- A backtick ends a complete script, unless a closed group is its last word. -/
theorem Takes.backtick (h : B.Takes c token r) (hB : substitution B.kind = some .backtick)
    (htoken : token.kind = .backtick) (hgroup : ∀ parts, c.focus ≠ .seq (.group true) parts) :
    ∃ parts, r = close B.kind (parts ++ B.older) B.above ∧
      (Tree.seq .script parts.reverse).literal = c.tree.literal := by
  cases h with
  | between parts htree =>
    refine ⟨parts, ?_, htree⟩
    unfold substitution at hB
    split at hB <;> simp_all [feedList]
  | command target parts hlies hvalid hclosed hwords htree =>
    obtain ⟨statements, hascend, hplug⟩ := hlies.ascend_of_closed hvalid hclosed
      (fun kind _ hopen => by
        unfold substitution
        split <;> simp_all [Tree.Label.isOpen]) hB (.seq (.command target) parts.reverse)
    refine ⟨statements, ?_, ?_⟩
    · simp only [feedCommand, htoken, Cursor.backtick, hascend]
    · rw [← hplug, htree]
  | group parts hlies hvalid hclosed hc =>
    rw [hc] at hgroup
    exact absurd rfl (hgroup parts)

/-- A closed group takes no backtick. -/
theorem feed_backtick_of_group (hold : B.Holds c d) (hvalid : c.Valid) {parts : List Tree}
    (hgroup : c.focus = .seq (.group true) parts) (htoken : token.kind = .backtick) :
    d.feed token = .error .unexpectedToken := by
  cases hold with
  | root => cases hgroup
  | inside focus hlies =>
    obtain rfl : focus = .seq (.group true) parts := hgroup
    obtain ⟨older, rest, rfl, -⟩ := command_of_group hvalid
    cases hlies with
    | cons => simp only [feed, feedFocus, feedSequence, feedClosedGroup, htoken, JoinOp.ofToken?]

end Base

/-! ## The next token -/

/-- A character that is a token of this kind wherever it stands. -/
structure StandsAlone (e : Char) (kind : TokenKind) : Prop where
  ends : EndsTokens e
  start : TokenKind.ofStart? e = some kind
  longer : kind.longer? = none

theorem standsAlone_newline : StandsAlone '\n' .newline := ⟨endsTokens_of_mem (by simp), rfl, rfl⟩

theorem standsAlone_rparen : StandsAlone ')' .rparen := ⟨endsTokens_of_mem (by simp), rfl, rfl⟩

theorem standsAlone_backtick : StandsAlone '\x60' .backtick :=
  ⟨endsTokens_of_mem (by simp), rfl, rfl⟩

theorem StandsAlone.tokenFrom_eq {e : Char} {kind : TokenKind} (h : StandsAlone e kind)
    (p : Position) (rest : List Char) :
    Tape.tokenFrom p (e :: rest) = .ok (⟨kind, String.ofList [e], p⟩, ⟨p.after e, rest⟩) := by
  have hbackslash : kind ≠ .backslash := by
    rintro rfl
    exact h.ends.escape (TokenKind.eq_of_ofStart?_backslash h.start)
  rw [Tape.tokenFrom_operator h.start hbackslash, munch_of_longer_none h.longer]
  rfl

namespace TokenKind

variable {kind : TokenKind} {e : Char}

theorem ofStart?_inj {c : Char} (hc : ofStart? c = some kind) (he : ofStart? e = some kind) :
    c = e := by
  unfold ofStart? at hc he
  split at hc <;> cases hc <;> split at he <;> first | rfl | cases he

/-- No operator grows into one of a single character. -/
theorem longer?_ne_of_start (he : ofStart? e = some kind) (k : TokenKind) (c : Char) :
    k.longer? ≠ some (c, kind) := by
  intro hk
  unfold longer? at hk
  split at hk <;> cases hk <;> unfold ofStart? at he <;> split at he <;> cases he

end TokenKind

namespace Tape

theorem kind_munch_eq {kind start : TokenKind} {e : Char} {cs : List Char}
    (he : TokenKind.ofStart? e = some kind) (h : (munch start cs).1 = kind) : start = kind := by
  fun_induction munch start cs with
  | case1 => exact h
  | case2 => exact h
  | case3 start cs c longer hk kind' taken rest hmunch ih =>
    rw [hmunch] at ih
    obtain rfl := ih h
    exact absurd hk (TokenKind.longer?_ne_of_start he start _)
  | case4 => exact h

/-- An operator of one character is read off that character only. -/
theorem mem_of_kind_eq {p : Position} {cs : List Char} {token : Token} {t : Tape} {e : Char}
    (h : tokenFrom p cs = .ok (token, t)) (he : TokenKind.ofStart? e = some token.kind) :
    e ∈ cs := by
  fun_induction tokenFrom p cs with
  | case1 p => cases h
  | case2 p c hc => cases h
  | case3 p c hc ds ih => exact List.mem_cons_of_mem _ (List.mem_cons_of_mem _ (ih h))
  | case4 p c hc d ds hd =>
    obtain ⟨value, t, hw, hmake⟩ := word_of_map_eq_ok h
    obtain ⟨rfl, rfl⟩ := Prod.mk.inj hmake
    exact absurd (TokenKind.isOperator_start he (by simp)) Bool.false_ne_true
  | case5 p c cs start _ hc kind taken left hmunch =>
    obtain ⟨rfl, rfl⟩ := Prod.mk.inj (Except.ok.inj h)
    obtain rfl := kind_munch_eq he (congrArg Prod.fst hmunch)
    rw [TokenKind.ofStart?_inj he hc]
    exact List.mem_cons_self
  | case6 p c cs hc hgap =>
    obtain ⟨rfl, rfl⟩ := Prod.mk.inj (Except.ok.inj h)
    exact absurd (TokenKind.isOperator_start he (by simp)) Bool.false_ne_true
  | case7 p c cs hc hgap =>
    obtain ⟨value, t, hw, hmake⟩ := word_of_map_eq_ok h
    obtain ⟨rfl, rfl⟩ := Prod.mk.inj hmake
    exact absurd (TokenKind.isOperator_start he (by simp)) Bool.false_ne_true

end Tape

namespace Cursor

variable {c c' d : Cursor} {token : Token} {tape tape' : Tape} {e : Char} {kind : TokenKind}

/-- It does not matter where a token stands. -/
theorem feed_alike {R : Position → Position → Prop} {a b : Token} (h : Token.Alike R a b)
    (c : Cursor) : c.feed b = c.feed a := by
  obtain ⟨kind, value, p⟩ := a
  obtain ⟨kind', value', q⟩ := b
  obtain ⟨rfl, rfl, -⟩ := h
  rfl

theorem both_nextToken {R : Position → Position → Prop} (hR : Position.Parallel R)
    (h : Tape.Alike R tape tape') (c : Cursor) :
    Tape.Both R (Token.Alike R) (c.nextToken tape) (c.nextToken tape') := by
  unfold nextToken
  split
  · exact Tape.alike_verbatim hR h
  · unfold Tape.token
    rw [h.chars]
    exact Tape.alike_tokenFrom hR h.position _

theorem nextToken_of_holds {B : Base} (h : B.Holds c d) (tape : Tape) :
    d.nextToken tape = c.nextToken tape := by
  cases h <;> rfl

theorem nextToken_behind (he : EndsTokens e) (h : c.nextToken tape = .ok (token, tape'))
    (rest : List Char) :
    c.nextToken (tape.behind (e :: rest)) = .ok (token, tape'.behind (e :: rest)) := by
  cases hverbatim : c.wantsVerbatim with
  | true =>
    rw [nextToken, hverbatim, if_pos rfl] at h ⊢
    exact Tape.verbatim_behind h _
  | false =>
    rw [nextToken, hverbatim, if_neg Bool.false_ne_true] at h ⊢
    exact Tape.tokenFrom_behind he h

theorem wantsVerbatim_of_end (h : c.nextToken tape = .error .endOfStream) :
    c.wantsVerbatim = false := by
  rcases nextToken_error h with ⟨-, hverbatim⟩ | hcause
  · exact hverbatim
  · cases hcause

theorem mem_of_nextToken (h : c.nextToken tape = .ok (token, tape'))
    (he : TokenKind.ofStart? e = some token.kind) : e ∈ tape.chars := by
  unfold nextToken at h
  split at h
  · unfold Tape.verbatim at h
    dsimp only at h
    split at h <;> cases h
    exact absurd (TokenKind.isOperator_start he (by simp)) Bool.false_ne_true
  · exact Tape.mem_of_kind_eq h he

/-! ## To the end of a script -/

end Cursor

/-- A text without a token. There may be continued line ends. -/
def NoToken (left : List Char) : Prop := ∀ p, Tape.tokenFrom p left = .error .endOfStream

theorem Base.Holds.wantsVerbatim_eq {B : Base} {c d : Cursor} (h : B.Holds c d) :
    d.wantsVerbatim = c.wantsVerbatim := by
  cases h <;> rfl

/-- The end of a script on a base. -/
structure Base.Ends (B : Base) (c d : Cursor) (left : List Char) : Prop where
  holds : B.Holds c d
  valid : c.Valid
  complete : c.isComplete = true
  verbatim : c.wantsVerbatim = false
  noToken : NoToken left

namespace Cursor

variable {c c' d : Cursor} {tape : Tape} {e : Char} {kind : TokenKind} {left : List Char}

/-- Behind a text that is read to its end comes the character that stands alone. -/
theorem nextToken_alone (halone : StandsAlone e kind) (hleft : NoToken left)
    (hverbatim : c.wantsVerbatim = false) (p : Position) (rest : List Char) :
    c.nextToken ⟨p, left ++ e :: rest⟩ =
      .ok (⟨kind, String.ofList [e], p.past left⟩, ⟨(p.past left).after e, rest⟩) := by
  rw [nextToken, hverbatim, if_neg Bool.false_ne_true]
  exact (Tape.tokenFrom_of_end (hleft p) _).trans (halone.tokenFrom_eq _ rest)

theorem step_alone (halone : StandsAlone e kind) (hleft : NoToken left)
    (hverbatim : c.wantsVerbatim = false)
    (hfeed : ∀ p, c.feed ⟨kind, String.ofList [e], p⟩ = .ok d) (rest : List Char) :
    Step (c, left ++ e :: rest) (d, rest) :=
  fun p => ⟨_, _, nextToken_alone halone hleft hverbatim p rest, hfeed _⟩

/-- A script that may end is read to its end on any base and at any position, if something follows
that ends its last token. -/
theorem Parses.reads {B : Base} {r : Except SyntaxError Cursor} (h : c.Parses tape r)
    (hr : r = .ok c') (hvalid : c.Valid) (hB : statementList B.kind = some ())
    (hfree : B.NoBacktick ∨ '\x60' ∉ tape.chars) (hold : B.Holds c d) (he : EndsTokens e) :
    ∃ d' left, B.Ends c' d' left ∧
      ∀ rest, Reads (d, tape.chars ++ e :: rest) (d', left ++ e :: rest) := by
  have hR : Position.Parallel fun _ _ => True := fun _ _ _ _ => trivial
  have halike (tape : Tape) (p : Position) : Tape.Alike (fun _ _ => True) tape ⟨p, tape.chars⟩ :=
    ⟨rfl, trivial⟩
  induction h generalizing d with
  | @step c next tape left token r hnext hfeed _ ih =>
    have hcarries : B.Carries (c.feed token) (d.feed token) :=
      Base.carries_feed hold hvalid hB fun hkind =>
        hfree.resolve_right fun hmem => hmem (mem_of_nextToken hnext (hkind ▸ rfl))
    have hsound := sound_feed token hvalid
    rw [hfeed] at hcarries hsound
    obtain ⟨d', hfeed', hold'⟩ := hcarries
    obtain ⟨taken, -, htaken, -⟩ := nextToken_split hnext
    have hfree' : B.NoBacktick ∨ '\x60' ∉ left.chars := hfree.imp_right fun hmem hleft =>
      hmem (htaken ▸ List.mem_append_right taken hleft)
    obtain ⟨d'', left', hends, hreads⟩ := ih hr hsound hfree' hold'
    refine ⟨d'', left', hends, fun rest => .head ?_ (hreads rest)⟩
    intro p
    have hboth := both_nextToken hR (halike tape p) c
    rw [hnext] at hboth
    obtain ⟨token', ⟨p', chars⟩, hnext', htoken, rfl, -⟩ := hboth.ok_left
    refine ⟨token', p', ?_, (feed_alike htoken d).trans hfeed'⟩
    rw [nextToken_of_holds hold]
    exact nextToken_behind he hnext' rest
  | @ended c tape hnext hcomplete =>
    obtain rfl := Except.ok.inj hr
    have hverbatim := wantsVerbatim_of_end hnext
    refine ⟨d, tape.chars, ⟨hold, hvalid, hcomplete, hverbatim, fun p => ?_⟩, fun rest => .refl⟩
    have hboth := both_nextToken hR (halike tape p) c
    rw [hnext, nextToken, hverbatim, if_neg Bool.false_ne_true] at hboth
    exact hboth.error_left
  | refused | cutShort | unclosed => cases hr

/-- What is made of the rest of a text is made of the whole. -/
theorem Reads.parses {a b : Cursor × List Char} (h : Reads a b) (p : Position) :
    ∃ taken, a.2 = taken ++ b.2 ∧
      ∀ r, b.1.Parses ⟨p.past taken, b.2⟩ r → a.1.Parses ⟨p, a.2⟩ r := by
  induction h using ReflTransGen.head_induction_on generalizing p with
  | refl => exact ⟨[], rfl, fun r hr => hr⟩
  | @head a mid hstep _ ih =>
    obtain ⟨token, p', hnext, hfeed⟩ := hstep p
    obtain ⟨first, -, hfirst, hp'⟩ := nextToken_split hnext
    obtain ⟨taken, htaken, hgo⟩ := ih p'
    refine ⟨first ++ taken, ?_, fun r hr => .step hnext hfeed (hgo r ?_)⟩
    · rw [List.append_assoc, ← htaken]
      exact hfirst
    · rw [show p' = p.past first from hp', ← Position.past_append]
      exact hr

end Cursor

end PocketShell
