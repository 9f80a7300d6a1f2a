import Mathlib.Logic.Relation
import PocketShell.Proofs.Lexing
import PocketShell.Proofs.Script.Simulation
import PocketShell.Script.Parsing

/-!
# Reading a script with a cursor

A cursor and the text that is still to be read go on by one token at a time.

* `Cursor.Step`, `Cursor.Reads` : one token, and any number of them, whatever the position in the text;
* `Cursor.parse_of_reads` : a text that leads from the empty script to a cursor where it may end is
  parsed, and gives the script of that cursor;
* `Cursor.settle`, `Cursor.Reaches` : behind a variable with a name the cursor is as good as in the
  command, as long as the word does not go on (`Bounded`). So texts that are read one after the other
  can be put together (`Reaches.trans`).
-/

namespace PocketShell

open Relation

namespace Cursor

/-! ## Steps -/

/-- Whether the text up to the next single quote is for the focus. -/
def wantsVerbatim (c : Cursor) : Bool :=
  match c.focus with
  | .leaf (.quote _) => true
  | _ => false

def nextToken (c : Cursor) (t : Tape) : Except Fault (Token × Tape) :=
  if c.wantsVerbatim then t.verbatim else t.token

/-- A token is read and handed to the cursor. -/
def Step (a b : Cursor × List Char) : Prop :=
  ∀ p, ∃ token p', a.1.nextToken ⟨p, a.2⟩ = .ok (token, ⟨p', b.2⟩) ∧ a.1.feed token = .ok b.1

abbrev Reads : Cursor × List Char → Cursor × List Char → Prop := ReflTransGen Step

end Cursor

/-! ## The end -/

/-- Nodes that have to be closed. -/
def Tree.Label.isOpen : Tree.Label → Bool
  | .seq .dblQuote | .seq (.sub ..) | .seq (.group false) => true
  | _ => false

/-- A condition under which a script may end here: nothing is open, and no operator waits for its
right side. -/
def Cursor.mayEnd (c : Cursor) : Bool :=
  (c.focus.label :: c.path.map Crumb.label).all (fun label => !label.isOpen) &&
    match c.focus with
    | .seq (.command _) parts => hasWords parts || !isOperand c.path
    | .leaf (.quote _) | .leaf .comment => false
    | _ => true

namespace Forest

variable {f : Forest} {strays : List NodeId} {context : NodeId} {c : Cursor}

/-- Whether the shape of a node is open. -/
def opensAt (f : Forest) (id : NodeId) : Bool :=
  match f.shape id with
  | .seq .dblQuote _ | .seq (.sub ..) _ | .seq (.group false) _ => true
  | _ => false

theorem opensAt_eq {t : Numbered.Tree} {path : List Numbered.Crumb} (h : f.Shows strays t path)
    {focus : Focus} (hfocus : t.focus? = some focus) : f.opensAt t.id = focus.label.isOpen := by
  rw [opensAt, h.shape]
  cases t with
  | seq id kind parts =>
    obtain rfl : _ = focus := Option.some.inj hfocus
    cases kind with
    | group closed => cases closed <;> rfl
    | script | command | dblQuote | sub => rfl
  | join id op left right => simp [Numbered.Tree.focus?] at hfocus
  | leaf id l =>
    obtain rfl : _ = focus := Option.some.inj hfocus
    rfl

theorem any_opensAt_path {t : Numbered.Tree} {path : List Numbered.Crumb}
    (h : f.Shows strays t path) :
    (path.map Numbered.Crumb.id).any f.opensAt =
      ((path.map Numbered.Crumb.plain).map Crumb.label).any Tree.Label.isOpen := by
  induction path generalizing t with
  | nil => rfl
  | cons crumb path ih =>
    have hcrumb : f.opensAt crumb.id = crumb.plain.label.isOpen := by
      rw [opensAt, h.shape_crumb]
      cases crumb with
      | seq id kind older =>
        cases kind with
        | group closed => cases closed <;> rfl
        | script | command | dblQuote | sub => rfl
      | join id op left => rfl
    simp only [List.map_cons, List.any_cons, hcrumb, ih (shows_fill.2 h)]

/-- Where nothing is open and no comment stands, only an operand may still be missing. -/
theorem checkComplete_eq_ok (hopen : (context :: f.ancestors context).any f.opensAt = false)
    (hcomment : f.isComment context = false)
    (hoperand : ∀ target body, f.shape context = .seq (.command target) body →
      (f.isOperand context && !f.hasWords context) = false) :
    f.checkComplete context = .ok () := by
  simp only [checkComplete, hcomment, Bool.false_eq_true, if_false, pure_bind]
  split
  · rename_i h
    exact absurd (h.symm.trans hopen) (by simp)
  · split
    · rename_i target body hshape
      rw [hoperand target body hshape]
      rfl
    · rfl

theorem checkComplete_of_mayEnd (h : f.At strays context c) (hend : c.mayEnd = true) :
    f.checkComplete context = .ok () := by
  obtain ⟨focus, plainPath⟩ := c
  obtain ⟨t, path, hshows, rfl, hfocus, hpath⟩ := h
  obtain rfl : path.map Numbered.Crumb.plain = plainPath := hpath
  simp only [Cursor.mayEnd, Bool.and_eq_true] at hend
  obtain ⟨hopen, hend⟩ := hend
  have hnone : (t.id :: f.ancestors t.id).any f.opensAt = false := by
    rw [hshows.ancestors_eq, List.any_cons, any_opensAt_path hshows, opensAt_eq hshows hfocus]
    simpa using hopen
  have hshape := hshows.shape
  cases t with
  | join id op left right => simp [Numbered.Tree.focus?] at hfocus
  | leaf id l =>
    obtain rfl : _ = focus := Option.some.inj hfocus
    have hcomment : f.isComment id = false := by
      rw [isComment, show f.shape id = .leaf l from hshape]
      cases l <;> simp_all
    refine checkComplete_eq_ok hnone hcomment fun target body heq => ?_
    cases hshape.symm.trans heq
  | seq id kind parts =>
    obtain rfl : _ = focus := Option.some.inj hfocus
    have hcomment : f.isComment id = false := by
      rw [isComment, show f.shape id = .seq kind _ from hshape]
    refine checkComplete_eq_ok hnone hcomment fun target body heq => ?_
    obtain ⟨rfl, -⟩ := Shape.seq.inj (hshape.symm.trans heq)
    rw [hshows.isOperand_eq, Numbered.Tree.id, hshows.hasWords_eq]
    cases hwords : Cursor.hasWords (parts.map Numbered.Tree.plain) <;> simp_all

/-! ## Parsing -/

variable {s s' : Source}

theorem parseFrom_step {f' : Forest} {context' : NodeId} {token : Token}
    (hnext : f.nextToken context s = (s', .ok token))
    (hfeed : f.feed context token = (f', .ok context')) :
    f.parseFrom context s = f'.parseFrom context' s' := by
  rw [parseFrom]
  split
  · simp_all
  · simp_all
  · rename_i heq
    rw [hnext, Prod.mk.injEq, Except.ok.injEq] at heq
    obtain ⟨rfl, rfl⟩ := heq
    simp only [hfeed]

theorem parseFrom_end (hnext : f.nextToken context s = (s', .error (.fault .endOfStream)))
    (hcomplete : f.checkComplete context = .ok ()) : f.parseFrom context s = (s', .ok f) := by
  rw [parseFrom]
  split
  · simp_all
  · rename_i heq
    rw [hnext, Prod.mk.injEq, Except.error.injEq, Halt.fault.injEq] at heq
    obtain ⟨rfl, rfl⟩ := heq
    simp only [Fault.isEnd, if_true, hcomplete]
  · simp_all

theorem wantsVerbatim_eq (h : f.At strays context c) :
    f.wantsVerbatim context = c.wantsVerbatim := by
  obtain ⟨focus, plainPath⟩ := c
  obtain ⟨t, path, hshows, rfl, hfocus, -⟩ := h
  rw [wantsVerbatim, hshows.shape]
  cases t with
  | join id op left right => simp [Numbered.Tree.focus?] at hfocus
  | seq id kind parts =>
    obtain rfl : _ = focus := Option.some.inj hfocus
    rfl
  | leaf id l =>
    obtain rfl : _ = focus := Option.some.inj hfocus
    cases l <;> rfl

/-- The forest gets the token that the cursor gets. -/
theorem yields_nextToken {t : Tape} (h : f.At strays context c) (hs : s.Shows t) :
    Source.Yields (f.nextToken context s) (c.nextToken t) := by
  rw [nextToken, Cursor.nextToken, wantsVerbatim_eq h]
  split
  · exact Source.verbatim_of_shows hs
  · exact Source.token_of_shows hs

/-- A token that a cursor reads and takes, a forest that shows it reads and takes as well, and then
it shows the cursor after the token. -/
theorem At.takes {c' : Cursor} {t t' : Tape} {token : Token} (h : f.At strays context c)
    (hvalid : c.Valid) (hs : s.Shows t) (hnext : c.nextToken t = .ok (token, t'))
    (hfeed : c.feed token = .ok c') :
    ∃ s' f' context', f.nextToken context s = (s', .ok token) ∧
      f.feed context token = (f', .ok context') ∧ f'.At (context :: strays) context' c' ∧
      c'.Valid ∧ s'.Shows t' := by
  have hyields := yields_nextToken h hs
  rw [hnext] at hyields
  have hat := h.mono (List.subset_cons_self context strays)
  obtain ⟨f', context', hfeed', hat'⟩ := feed_of_ok hat hvalid (fun _ => List.mem_cons_self) hfeed
  have hsound := Cursor.sound_feed token hvalid
  rw [hfeed] at hsound
  exact ⟨_, f', context', Prod.ext rfl hyields.1, hfeed', hat', hsound, hyields.2⟩

/-- A token that a cursor refuses, a forest that shows it refuses as well. -/
theorem At.refuses {t t' : Tape} {token : Token} {cause : Fault} (h : f.At strays context c)
    (hvalid : c.Valid) (hs : s.Shows t) (hnext : c.nextToken t = .ok (token, t'))
    (hfeed : c.feed token = .error cause) :
    ∃ s', f.nextToken context s = (s', .ok token) ∧ (f.feed context token).2 = .error cause := by
  have hyields := yields_nextToken h hs
  rw [hnext] at hyields
  have hat := h.mono (List.subset_cons_self context strays)
  exact ⟨_, Prod.ext rfl hyields.1,
    feed_of_error hat hvalid (fun _ => List.mem_cons_self) hfeed⟩

/-- What a cursor reads to the end of a text, a forest that shows it reads as well. -/
theorem parseFrom_of_reads {a : Cursor × List Char} {c' : Cursor}
    (hreads : Cursor.Reads a (c', [])) (hend : c'.mayEnd = true) {p : Position}
    (h : f.At strays context a.1) (hvalid : a.1.Valid) (hs : s.Shows ⟨p, a.2⟩) :
    ∃ f' strays' context', (f.parseFrom context s).2 = .ok f' ∧ f'.At strays' context' c' := by
  induction hreads using ReflTransGen.head_induction_on generalizing f context s strays p with
  | refl =>
    have hverbatim : c'.wantsVerbatim = false := by
      obtain ⟨focus, path⟩ := c'
      simp only [Cursor.mayEnd, Bool.and_eq_true] at hend
      unfold Cursor.wantsVerbatim
      split <;> simp_all
    have hyields := yields_nextToken h hs
    rw [Cursor.nextToken, hverbatim] at hyields
    have hnext : f.nextToken context s = ((f.nextToken context s).1, .error (.fault .endOfStream)) :=
      Prod.ext rfl hyields
    exact ⟨f, strays, context, by rw [parseFrom_end hnext (checkComplete_of_mayEnd h hend)], h⟩
  | head hstep hrest ih =>
    obtain ⟨token, p', hnext, hfeed⟩ := hstep p
    obtain ⟨s', f', context', hnext', hfeed', hat', hvalid', hs'⟩ := h.takes hvalid hs hnext hfeed
    rw [parseFrom_step hnext' hfeed']
    exact ih hat' hvalid' hs'

end Forest

/-- A text that leads from the empty script to a place where it may end is a script. -/
theorem Cursor.parse_of_reads {text : List Char} {c : Cursor} (hreads : Reads (start, text) (c, []))
    (hend : c.mayEnd = true) {body : List Tree} (htree : c.tree = .seq .script body) :
    ∃ f, Forest.parse (Source.ofText (String.ofList text)) = .ok f ∧ f.statements = body := by
  have hs := Source.shows_ofText (String.ofList text)
  rw [String.toList_ofList] at hs
  obtain ⟨f, strays, context, hparse, hat⟩ :=
    Forest.parseFrom_of_reads hreads hend Forest.at_start valid_start hs
  refine ⟨f, hparse, ?_⟩
  obtain ⟨t, path, hshows, -, hfocus, hpath⟩ := hat
  have hbody : plug t.plain (path.map Numbered.Crumb.plain) = .seq .script body := by
    rw [hpath, plain_of_focus hfocus]
    exact htree
  exact hshows.statements_eq hbody

/-! ## Behind a variable -/

/-- The rest of a text, if a word that ends before it does not go on. -/
def Bounded : List Char → Bool
  | [] => true
  | c :: _ => c ≠ '\\' && !isWordChar c

namespace Cursor

variable {c c' d e : Cursor} {text mid rest : List Char}

/-- Leaves a variable that has a name. -/
def settle : Cursor → Cursor
  | ⟨.leaf (.var name), .seq kind older :: path⟩ =>
    if name.isEmpty then ⟨.leaf (.var name), .seq kind older :: path⟩
    else ⟨.seq kind (.leaf (.var name) :: older), path⟩
  | c => c

theorem settle_cases (c : Cursor) :
    c.settle = c ∨ ∃ name kind older path, name.isEmpty = false ∧
      c = ⟨.leaf (.var name), .seq kind older :: path⟩ ∧
      c.settle = ⟨.seq kind (.leaf (.var name) :: older), path⟩ := by
  unfold settle
  split
  · rename_i name kind older path
    cases hname : name.isEmpty with
    | true => exact .inl rfl
    | false => exact .inr ⟨name, kind, older, path, hname, rfl, rfl⟩
  · exact .inl rfl

theorem settle_settle (c : Cursor) : c.settle.settle = c.settle := by
  rcases settle_cases c with h | ⟨name, kind, older, path, -, -, h⟩
  · rw [h, h]
  · rw [h]
    rfl

/-- A token that is not a word leaves the variable at once. -/
theorem feed_settle {token : Token} (htoken : token.kind ≠ .identifier) :
    c.settle.feed token = c.feed token := by
  rcases settle_cases c with h | ⟨name, kind, older, path, hname, rfl, h⟩
  · rw [h]
  · rw [h]
    simp only [feed, feedVariable, htoken, hname, if_false]
    rfl

theorem kind_of_bounded {p : Position} {token : Token} {t : Tape} (htext : Bounded text = true)
    (h : Tape.tokenFrom p text = .ok (token, t)) : token.kind ≠ .identifier := by
  cases text with
  | nil => simp [Tape.tokenFrom] at h
  | cons ch cs =>
    simp only [Bounded, Bool.and_eq_true, decide_eq_true_eq, Bool.not_eq_true'] at htext
    obtain ⟨hescape, hword⟩ := htext
    cases hstart : TokenKind.ofStart? ch with
    | none =>
      have hgap : isGap ch = true := by
        cases hgap : isGap ch with
        | true => rfl
        | false => rw [isWordChar_iff.2 ⟨hgap, hstart⟩] at hword; cases hword
      rw [Tape.tokenFrom_gap hgap] at h
      cases h
      simp
    | some kind =>
      have hkind : kind ≠ .backslash := by
        rintro rfl
        exact hescape (TokenKind.eq_of_ofStart?_backslash hstart)
      rw [Tape.tokenFrom_operator hstart hkind] at h
      cases h
      have hop := Tape.isOperator_munch (TokenKind.isOperator_start hstart hkind) cs
      rintro heq
      rw [show (Tape.munch kind cs).1 = .identifier from heq] at hop
      cases hop

/-- Cursors that treat the next token alike read the same. -/
theorem Step.congr {b : Cursor × List Char} (h : Step (c, text) b)
    (hc : c.wantsVerbatim = false) (hc' : c'.wantsVerbatim = false)
    (hfeed : ∀ p token t, Tape.tokenFrom p text = .ok (token, t) → c'.feed token = c.feed token) :
    Step (c', text) b := by
  intro p
  obtain ⟨token, p', hnext, hb⟩ := h p
  simp only [nextToken, hc, hc'] at hnext ⊢
  exact ⟨token, p', hnext, (hfeed p token _ hnext).trans hb⟩

/-- A text that leads to a cursor, or to a variable that is left as soon as the word ends. -/
def Reaches (c : Cursor) (text : List Char) (d : Cursor) (rest : List Char) : Prop :=
  ∃ d', Reads (c, text) (d', rest) ∧ d'.settle = d

theorem Reads.reaches {kind : Sequence} {parts : List Tree} {path : List Crumb}
    (h : Reads (c, text) (⟨.seq kind parts, path⟩, rest)) :
    Reaches c text ⟨.seq kind parts, path⟩ rest :=
  ⟨_, h, rfl⟩

theorem Reads.trans_reaches (h₁ : Reads (c, text) (d, mid)) (h₂ : Reaches d mid e rest) :
    Reaches c text e rest := by
  obtain ⟨e', hreads, he⟩ := h₂
  exact ⟨e', ReflTransGen.trans h₁ hreads, he⟩

theorem Reaches.step {b : Cursor × List Char} (h : Reaches c text d mid) (hmid : Bounded mid = true)
    (hstep : Step (d, mid) b) : Reads (c, text) b := by
  obtain ⟨d', hreads, rfl⟩ := h
  rcases settle_cases d' with hd | ⟨name, kind, older, path, -, rfl, hd⟩
  · rw [hd] at hstep
    exact hreads.tail hstep
  · exact hreads.tail (hstep.congr (by rw [hd]; rfl) rfl fun p token t htoken =>
      (feed_settle (kind_of_bounded hmid htoken)).symm)

theorem Reaches.trans (h₁ : Reaches c text d mid) (hmid : Bounded mid = true)
    (h₂ : Reaches d mid e rest) : Reaches c text e rest := by
  obtain ⟨e', hreads, rfl⟩ := h₂
  rcases hreads.cases_head with heq | ⟨b, hstep, hreads⟩
  · -- nothing is read behind `d`
    obtain ⟨rfl, rfl⟩ := Prod.mk.inj heq
    obtain ⟨d', hd, rfl⟩ := h₁
    exact ⟨d', hd, (settle_settle _).symm⟩
  · exact ⟨e', ReflTransGen.trans (h₁.step hmid hstep) hreads, rfl⟩

/-- A text that leads from the empty script to a place where it may end, or to a variable there. -/
theorem parse_of_reaches (h : Reaches start text c []) (hend : c.mayEnd = true)
    {body : List Tree} (htree : c.tree = .seq .script body) :
    ∃ f, Forest.parse (Source.ofText (String.ofList text)) = .ok f ∧ f.statements = body := by
  obtain ⟨d, hreads, rfl⟩ := h
  rcases settle_cases d with hd | ⟨name, kind, older, path, -, rfl, hd⟩
  · rw [hd] at hend htree
    exact parse_of_reads hreads hend htree
  · rw [hd] at hend htree
    refine parse_of_reads hreads ?_ htree
    simp only [mayEnd, Bool.and_eq_true] at hend ⊢
    exact ⟨by simpa [Focus.label, Crumb.label, Tree.Label.isOpen] using hend.1, trivial⟩

end Cursor

end PocketShell
