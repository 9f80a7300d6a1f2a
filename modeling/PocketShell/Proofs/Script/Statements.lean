import PocketShell.Proofs.Script.Printing

/-!
# Reading printed statements

* `Cursor.Ends` : a cursor has just read a statement. What it does with a line break, a closing
  parenthesis or an operator is said once for all statements (`Ends.feed_newline`, `Ends.feed_rparen`,
  `Ends.feed_operator`);
* `Tree.ReadsStatement` : the text of a statement is read as the statement, up to `Tree.tidy`;
* `Tree.reads_statements`, `Tree.reads_enclosed` : so are lists of them, also in parentheses;
* `Tree.readsStatement_group`, `Tree.readsStatement_join` : groups and operators.
-/

namespace PocketShell

open Relation

/-! ## Behind a statement -/

namespace Tree

/-- A statement with white space behind its last word. -/
def spaced : Tree → Tree
  | seq (.command target) parts =>
    if Cursor.endsInWord parts.reverse then seq (.command target) (parts ++ [Cursor.gapLeaf])
    else seq (.command target) parts
  | join op left right => join op left (spaced right)
  | t => t

end Tree

namespace Cursor

/-- A cursor below `path` has read a statement. It is in the last command, which may be on the right
of operators. -/
inductive Ends : Cursor → List Crumb → Tree → Prop
  | words {target : Bool} {parts : List Tree} {path : List Crumb} (h : endsInWord parts = true) :
    Ends ⟨.seq (.command target) parts, path⟩ path (.seq (.command target) parts.reverse)
  | group {parts : List Tree} {path : List Crumb} :
    Ends ⟨.seq (.group true) parts, .seq (.command false) [] :: path⟩ path
      (.seq (.command false) [.seq (.group true) parts.reverse])
  | join {c : Cursor} {op : JoinOp} {left right : Tree} {path : List Crumb}
    (h : Ends c (.join op left :: path) right) (hr : op.precedence < right.rank) :
    Ends c path (.join op left right)

variable {c : Cursor} {path : List Crumb} {t : Tree} {parts : List Tree}

theorem hasWords_of_endsInWord (h : endsInWord parts = true) : hasWords parts = true := by
  cases parts with
  | nil => cases h
  | cons part parts =>
    have hcomment : isComment part = false := by
      cases part with
      | leaf l => cases l <;> first | rfl | cases h
      | seq | join | dangling => rfl
    simp [hasWords, hcomment]

theorem feedCommand_operator {op : JoinOp} {target : Bool} {value : String} {p : Position}
    (hwords : hasWords parts = true) (htarget : (target && op.isRedirect) = false) :
    feedCommand target parts path ⟨op.token, value, p⟩ =
      .ok ⟨.seq (.command op.isRedirect) [],
        .join op (widest op (.seq (.command target) parts.reverse) path).1 ::
          (widest op (.seq (.command target) parts.reverse) path).2⟩ := by
  have hjoin : feedCommand target parts path ⟨op.token, value, p⟩ =
      join (.seq (.command target) parts.reverse) path op target := by
    cases op <;> simp [feedCommand, JoinOp.token, hwords, JoinOp.ofToken?]
  rw [hjoin, join, htarget]
  rfl

namespace Ends

theorem wantsVerbatim (h : Ends c path t) : c.wantsVerbatim = false := by
  induction h with
  | words | group => rfl
  | join h hr ih => exact ih

theorem tree_eq (h : Ends c path t) : c.tree = plug t path := by
  induction h with
  | words h => rfl
  | group => rfl
  | join h hr ih => exact ih

theorem mayEnd (h : Ends c path t)
    (hpath : (path.map Crumb.label).all (fun label => !label.isOpen) = true) : c.mayEnd = true := by
  induction h with
  | words h =>
    simp only [Cursor.mayEnd, hasWords_of_endsInWord h, List.all_cons, hpath]
    rfl
  | group =>
    simp only [Cursor.mayEnd, List.map_cons, List.all_cons, hpath]
    rfl
  | join h hr ih =>
    refine ih ?_
    simp only [List.map_cons, List.all_cons, hpath]
    rfl

/-- A line break ends the statement. -/
theorem feed_newline (h : Ends c path t) (value : String) (p : Position) :
    c.feed ⟨.newline, value, p⟩ = endStatement t path := by
  induction h with
  | words h =>
    simp only [feed, feedFocus, feedSequence, feedCommand, hasWords_of_endsInWord h]
    rfl
  | group => rfl
  | join h hr ih => exact ih

theorem step_newline {kind : Sequence} {older : List Tree} {rest : List Char}
    (h : Ends c (.seq kind older :: path) t) (hkind : statementList kind = some ()) :
    Step (c, '\n' :: rest) (⟨.seq kind (t :: older), path⟩, rest) := by
  refine step_of_lexes (Lexes.single .newline rfl (by simp) rfl) h.wantsVerbatim fun p => ?_
  rw [h.feed_newline, endStatement, ascend, hkind]

theorem feed_rparen (h : Ends c path t) (value : String) (p : Position) :
    c.feed ⟨.rparen, value, p⟩ = closeParenthesis t path := by
  induction h with
  | words h => rfl
  | group => rfl
  | join h hr ih => exact ih

/-- White space and an operator: the statement becomes the left side, as far as it binds. -/
theorem feed_operator {op : JoinOp} (h : Ends c path t) (hrank : op.precedence ≤ t.rank)
    (hplain : op.isRedirect = true → ∃ parts, t = .seq (.command false) parts) :
    ∃ c', (∀ p, c.feed ⟨.whitespace, " ", p⟩ = .ok c') ∧ c'.wantsVerbatim = false ∧
      ∀ value p, c'.feed ⟨op.token, value, p⟩ =
        .ok ⟨.seq (.command op.isRedirect) [],
          .join op (widest op t.spaced path).1 :: (widest op t.spaced path).2⟩ := by
  induction h with
  | @words target parts path h =>
    have htarget : (target && op.isRedirect) = false := by
      cases hop : op.isRedirect with
      | false => simp
      | true =>
        obtain ⟨parts', heq⟩ := hplain hop
        simp_all
    refine ⟨⟨.seq (.command target) (gapLeaf :: parts), path⟩, fun p => ?_, rfl, fun value p => ?_⟩
    · simp only [feed, feedFocus, feedSequence, feedCommand, h, if_true]
      rfl
    · have hwords : hasWords (gapLeaf :: parts) = true := by
        simp [hasWords, isComment, gapLeaf]
      rw [Tree.spaced, List.reverse_reverse, if_pos h, ← List.reverse_cons]
      exact feedCommand_operator hwords htarget
  | @group parts path =>
    refine ⟨_, fun p => rfl, rfl, fun value p => ?_⟩
    cases op <;> rfl
  | @join c op' left right path h hr ih =>
    have hop : op.isRedirect = false := by
      rw [← Bool.not_eq_true]
      intro hop
      obtain ⟨parts, heq⟩ := hplain hop
      cases heq
    have hbinds : op'.bindsAtLeast op = true := decide_eq_true hrank
    have hright := ih (Nat.le_of_lt (Nat.lt_of_le_of_lt hrank hr)) (by simp [hop])
    simp only [widest, hbinds, if_true] at hright
    exact hright

end Ends

end Cursor

namespace Tree

/-! ## Tidy statements -/

/-- A part that belongs to a word. -/
def isWordPart (t : Tree) : Bool :=
  match Cursor.wordClass t with
  | .literal | .expansion => true
  | _ => false

theorem isWordPart_tidy (t : Tree) : t.tidy.isWordPart = t.isWordPart := by
  rw [isWordPart, wordClass_tidy, isWordPart]

theorem endsInWord_iff {parts : List Tree} :
    Cursor.endsInWord parts = true ↔ ∃ t ts, parts = t :: ts ∧ t.isWordPart = true := by
  cases parts with
  | nil => simp [Cursor.endsInWord]
  | cons t ts =>
    have hhead : Cursor.endsInWord (t :: ts) = t.isWordPart := by
      rw [Cursor.endsInWord, isWordPart, List.head?_cons, Option.map_some]
      cases Cursor.wordClass t <;> rfl
    simp [hhead]

theorem dropGap_of_isWordPart {t : Tree} (ts : List Tree) (h : t.isWordPart = true) :
    dropGap (ts ++ [t]) = ts ++ [t] := by
  rw [dropGap, List.reverse_append]
  cases t with
  | leaf l => cases l <;> first | rfl | cases h
  | seq | join | dangling => rfl

theorem dropGap_gapLeaf (ts : List Tree) : dropGap (ts ++ [Cursor.gapLeaf]) = ts := by
  simp [dropGap, Cursor.gapLeaf]

theorem tidy_command {target : Bool} {parts : List Tree} (h : Cursor.endsInWord parts.reverse = true) :
    tidy (.seq (.command target) parts) = .seq (.command target) (parts.map tidy) := by
  obtain ⟨t, ts, heq, ht⟩ := endsInWord_iff.1 h
  obtain rfl := List.reverse_eq_iff.1 heq
  rw [tidy, tidyAll_eq, tidyBody, List.reverse_cons, List.map_append]
  simp only [List.map_cons, List.map_nil]
  rw [dropGap_of_isWordPart _ ((isWordPart_tidy t).trans ht)]

theorem tidy_spaced (t : Tree) : t.spaced.tidy = t.tidy := by
  fun_induction spaced t with
  | case1 target parts h =>
    rw [tidy_command h, tidy, tidyAll_eq, tidyBody, List.map_append]
    exact congrArg _ (dropGap_gapLeaf _)
  | case2 target parts h => rfl
  | case3 op left right ih => simp only [tidy, ih]
  | case4 => rfl

/-! ## What printed trees are read as -/

/-- The operator above a statement binds less tight than the statement. -/
def Fits (path : List Crumb) (n : Nat) : Prop :=
  ∀ op left rest, path = .join op left :: rest → op.precedence < n

theorem widest_of_fits {op : JoinOp} {path : List Crumb} (h : Fits path op.precedence) (t : Tree) :
    Cursor.widest op t path = (t, path) := by
  cases path with
  | nil => rfl
  | cons crumb path =>
    cases crumb with
    | seq kind older => rfl
    | join outer left =>
      have hlt := h outer left path rfl
      rw [Cursor.widest, if_neg (by simpa [JoinOp.bindsAtLeast] using hlt)]

open Cursor

/-- The text of a statement is read as the statement. -/
structure ReadsStatement (target : Bool) (t : Tree) : Prop where
  opens : Opens t.print = true
  reads : ∃ u : Tree, u.tidy = t ∧ ∀ path rest, Bounded rest = true → Fits path t.rank →
    ∃ c, Reaches ⟨.seq (.command target) [], path⟩ (t.print ++ rest) c rest ∧ Ends c path u

/-- A cursor has read a list of statements; it may still be in the last one. -/
def EndsList (c : Cursor) (kind : Sequence) (parts : List Tree) (path : List Crumb) : Prop :=
  c = ⟨.seq kind parts, path⟩ ∨
    ∃ u older, parts = u :: older ∧ Ends c (.seq kind older :: path) u

theorem fits_seq (kind : Sequence) (older : List Tree) (path : List Crumb) (n : Nat) :
    Fits (.seq kind older :: path) n := by
  intro op left rest h
  cases h

/-- A statement in a list. -/
theorem ReadsStatement.inList {t u : Tree} {kind : Sequence} {rest : List Char} (older : List Tree)
    (path : List Crumb) (hopens : Opens t.print = true)
    (hreads : ∀ path rest, Bounded rest = true → Fits path t.rank →
      ∃ c, Reaches ⟨.seq (.command false) [], path⟩ (t.print ++ rest) c rest ∧ Ends c path u)
    (hkind : statementList kind = some ()) (hrest : Bounded rest = true) :
    ∃ c, Reaches ⟨.seq kind older, path⟩ (t.print ++ rest) c rest ∧
      Ends c (.seq kind older :: path) u := by
  obtain ⟨c, hreaches, hends⟩ := hreads (.seq kind older :: path) rest hrest (fits_seq _ _ _ _)
  refine ⟨c, hreaches.of_opens hkind (opens_append hopens) ?_, hends⟩
  intro heq
  have hnil : t.print = [] := by simpa using heq
  rw [hnil] at hopens
  cases hopens

theorem reads_statements {ts : List Tree} (h : ∀ t ∈ ts, ReadsStatement false t) :
    ∃ us : List Tree, us.map tidy = ts ∧ ∀ kind older path rest,
      Cursor.statementList kind = some () → Bounded rest = true →
      ∃ c, Reaches ⟨.seq kind older, path⟩ (printStatements ts ++ rest) c rest ∧
        EndsList c kind (us.reverse ++ older) path := by
  induction ts with
  | nil =>
    refine ⟨[], rfl, fun kind older path rest _ _ => ?_⟩
    exact ⟨⟨.seq kind older, path⟩, Reads.reaches ReflTransGen.refl, .inl rfl⟩
  | cons t ts ih =>
    obtain ⟨⟨hopens, u, rfl, hreads⟩, hts⟩ := List.forall_mem_cons.1 h
    obtain ⟨us, rfl, hus⟩ := ih hts
    refine ⟨u :: us, rfl, fun kind older path rest hkind hrest => ?_⟩
    cases us with
    | nil =>
      obtain ⟨c, hreaches, hends⟩ := ReadsStatement.inList older path hopens hreads hkind hrest
      refine ⟨c, ?_, .inr ⟨u, older, rfl, hends⟩⟩
      simpa [printStatements, printRest] using hreaches
    | cons u' us =>
      have hnewline : Bounded ('\n' :: (printStatements ((u' :: us).map tidy) ++ rest)) = true := rfl
      obtain ⟨c, hreaches, hends⟩ := ReadsStatement.inList older path hopens hreads hkind hnewline
      obtain ⟨c', hreaches', hends'⟩ := hus kind (u :: older) path rest hkind hrest
      refine ⟨c', ?_, by simpa using hends'⟩
      rw [List.map_cons, printStatements_cons_cons, List.append_assoc]
      exact hreaches.trans rfl
        (Reads.trans_reaches (ReflTransGen.single (hends.step_newline hkind)) hreaches')

/-- Statements up to the parenthesis that closes a group or a substitution. -/
theorem reads_enclosed {body : List Tree} (h : ∀ t ∈ body, ReadsStatement false t) :
    ∃ us : List Tree, us.map tidy = body ∧ ∀ kind path rest kind' parts' path',
      parenthesis kind = some (.ok ()) →
      close kind us.reverse path = .ok ⟨.seq kind' parts', path'⟩ →
      Reads (⟨.seq kind [], path⟩, printStatements body ++ ')' :: rest)
        (⟨.seq kind' parts', path'⟩, rest) := by
  obtain ⟨us, hus, hreads⟩ := reads_statements h
  refine ⟨us, hus, fun kind path rest kind' parts' path' hkind hclose => ?_⟩
  have hlist : statementList kind = some () := by
    unfold parenthesis at hkind
    split at hkind <;> first | rfl | simp at hkind
  obtain ⟨c, hreaches, hends⟩ := hreads kind [] path (')' :: rest) hlist rfl
  rw [List.append_nil] at hends
  have hstep : Step (c, ')' :: rest) (⟨.seq kind' parts', path'⟩, rest) := by
    have hlexes : Lexes (')' :: rest) .rparen [')'] rest := Lexes.single .rparen rfl (by simp) rfl
    rcases hends with rfl | ⟨u, older, hparts, hends⟩
    · refine step_of_lexes hlexes rfl fun p => ?_
      rw [← hclose]
      unfold parenthesis at hkind
      split at hkind <;> first | rfl | simp at hkind
    · refine step_of_lexes hlexes hends.wantsVerbatim fun p => ?_
      rw [hends.feed_rparen, closeParenthesis, ascend, hkind, ← hclose, hparts]
  exact hreaches.step rfl hstep

theorem readsStatement_group {body : List Tree} (h : ∀ t ∈ body, ReadsStatement false t) :
    ReadsStatement false (.seq (.command false) [.seq (.group true) body]) := by
  obtain ⟨us, hus, hreads⟩ := reads_enclosed h
  have hprint : print (.seq (.command false) [.seq (.group true) body]) =
      '(' :: (printStatements body ++ [')']) := by
    simp [print, printParts]
  refine ⟨by rw [hprint]; rfl, .seq (.command false) [.seq (.group true) us], ?_, ?_⟩
  · simp [tidy, tidyAll, tidyAll_eq, tidyBody, dropGap, hus]
  · intro path rest hrest hfits
    have hopen : Step (⟨.seq (.command false) [], path⟩, '(' :: (printStatements body ++ ')' :: rest))
        (⟨.seq (.group false) [], .seq (.command false) [] :: path⟩,
          printStatements body ++ ')' :: rest) :=
      step_of_lexes (Lexes.single .lparen rfl (by simp) rfl) rfl fun p => rfl
    have hinner := hreads (.group false) (.seq (.command false) [] :: path) rest (.group true)
      us.reverse (.seq (.command false) [] :: path) rfl rfl
    have hends : Ends ⟨.seq (.group true) us.reverse, .seq (.command false) [] :: path⟩ path _ :=
      Ends.group
    rw [List.reverse_reverse] at hends
    refine ⟨_, ?_, hends⟩
    rw [hprint, List.cons_append, List.append_assoc]
    exact Reads.reaches (ReflTransGen.head hopen hinner)

theorem isGap_sign (op : JoinOp) (rest : List Char) :
    ∀ c ∈ (op.sign ++ rest).head?, isGap c = false := by
  cases op <;> simp [JoinOp.sign, isGap]

/-- Behind a statement: white space, an operator and white space. The statement becomes the left side
of the operator. -/
theorem reads_operator {op : JoinOp} {c : Cursor} {path : List Crumb} {t : Tree} {rest : List Char}
    (h : Ends c path t) (hrank : op.precedence ≤ t.rank)
    (hplain : op.isRedirect = true → ∃ parts, t = .seq (.command false) parts)
    (hfits : Fits path op.precedence) (hrest : ∀ ch ∈ rest.head?, isGap ch = false) :
    Reads (c, ' ' :: (op.sign ++ ' ' :: rest))
      (⟨.seq (.command op.isRedirect) [], .join op t.spaced :: path⟩, rest) := by
  obtain ⟨c', hspace, hverbatim, hop⟩ := h.feed_operator hrank hplain
  have hbefore : Step (c, ' ' :: (op.sign ++ ' ' :: rest)) (c', op.sign ++ ' ' :: rest) :=
    step_of_lexes (Lexes.space (isGap_sign op _)) h.wantsVerbatim hspace
  have hsign : Step (c', op.sign ++ ' ' :: rest)
      (⟨.seq (.command op.isRedirect) [], .join op t.spaced :: path⟩, ' ' :: rest) := by
    refine step_of_lexes (op.lexes_sign _) hverbatim fun p => ?_
    rw [hop, widest_of_fits hfits]
  have hbehind : Step (⟨.seq (.command op.isRedirect) [], .join op t.spaced :: path⟩, ' ' :: rest)
      (⟨.seq (.command op.isRedirect) [], .join op t.spaced :: path⟩, rest) :=
    step_of_lexes (Lexes.space hrest) rfl fun p => rfl
  exact .head hbefore (.head hsign (.single hbehind))

theorem readsStatement_join {op : JoinOp} {left right : Tree} (hleft : ReadsStatement false left)
    (hright : ReadsStatement op.isRedirect right) (hl : op.leftRank ≤ left.rank)
    (hr : op.precedence < right.rank)
    (hplain : op.isRedirect = true → ∃ parts, left = .seq (.command false) parts) :
    ReadsStatement false (.join op left right) := by
  obtain ⟨hopensLeft, u, rfl, hreadsLeft⟩ := hleft
  obtain ⟨hopensRight, v, rfl, hreadsRight⟩ := hright
  have hrank : op.precedence ≤ u.rank := by
    rw [← rank_tidy]
    refine Nat.le_trans ?_ hl
    cases op <;> decide
  have hplain' : op.isRedirect = true → ∃ parts, u = .seq (.command false) parts := by
    intro hop
    obtain ⟨parts, heq⟩ := hplain hop
    cases u with
    | seq kind body =>
      rw [tidy, seq.injEq] at heq
      exact ⟨body, by rw [heq.1]⟩
    | join | dangling | leaf => simp [tidy] at heq
  refine ⟨?_, .join op u.spaced v, ?_, fun path rest hrest hfits => ?_⟩
  · rw [print]
    exact opens_append hopensLeft
  · rw [tidy, tidy_spaced]
  · have hfits : Fits path op.precedence := hfits
    have hfitsLeft : Fits path u.tidy.rank := fun outer l r hpath =>
      Nat.lt_of_lt_of_le (hfits outer l r hpath) (by rwa [rank_tidy])
    have hfitsRight : Fits (.join op u.spaced :: path) v.tidy.rank := by
      rintro outer l r ⟨⟩
      exact hr
    obtain ⟨c₁, hreaches₁, hends₁⟩ := hreadsLeft path
      (' ' :: (op.sign ++ ' ' :: (v.tidy.print ++ rest))) rfl hfitsLeft
    obtain ⟨c₂, hreaches₂, hends₂⟩ := hreadsRight (.join op u.spaced :: path) rest hrest hfitsRight
    have hopens : Opens (v.tidy.print ++ rest) = true := opens_append hopensRight
    refine ⟨c₂, ?_, .join hends₂ (by rwa [← rank_tidy])⟩
    simp only [print, List.append_assoc, List.cons_append]
    exact hreaches₁.trans rfl (Reads.trans_reaches
      (reads_operator hends₁ hrank hplain' hfits (isGap_of_opens hopens)) hreaches₂)

end Tree

end PocketShell
