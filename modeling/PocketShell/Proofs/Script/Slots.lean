import PocketShell.Proofs.Script.Cursor

/-!
# Where the parts of a script stand

A script under construction has the shape of its grammar at every moment, although operators take
what was read before them to their left.

* `Slot.admits` : which node may stand in a slot. Beside an operator stand commands and joins that
  bind at least as tight on its left, and tighter on its right;
* `Tree.Stands` : a tree may stand in a slot, and so may all parts of it in theirs. A command that a
  join has taken to its left holds something, and a group has its command to itself but for comments;
* `Cursor.standing_feed` : no token changes that.

A token changes a script only at the end of the path to the focus. So it is enough that the tree
there is replaced by one that may stand in its slot (`Tree.Yields`), as all above it stays.
-/

namespace PocketShell

/-! ## Slots -/

inductive Slot where
  | top
  | statement
  | left (op : JoinOp)
  | right (op : JoinOp)
  | part (target : Bool)
  | inQuotes
deriving DecidableEq, Repr

/-- Where the members of a sequence stand. -/
def Sequence.inside : Sequence → Slot
  | .script | .group _ | .sub .. => .statement
  | .command target => .part target
  | .dblQuote => .inQuotes

/-- Whether a node may stand in a slot. -/
def Slot.admits : Slot → Tree.Label → Bool
  | top, .seq kind => kind = .script
  | statement, .seq (.command target) => !target
  | statement, .join _ => true
  | left _, .seq (.command target) => !target
  | left op, .join inner => !op.isRedirect && decide (op.precedence ≤ inner.precedence)
  | right op, .seq (.command target) => target = op.isRedirect
  | right op, .join inner => op.precedence < inner.precedence
  | part target, .seq (.group _) => !target
  | part _, .seq .dblQuote => true
  | part _, .seq (.sub _ quoted) => !quoted
  | part _, .leaf _ => true
  | inQuotes, .seq (.sub _ quoted) => quoted
  | inQuotes, .leaf (.ident _) => true
  | inQuotes, .leaf (.var _) => true
  | _, _ => false

/-! ## Trees in their slots -/

namespace Tree

def isGroup : Tree → Bool
  | seq (.group _) _ => true
  | _ => false

/-- A group among parts is the only one of them that is no comment. -/
def Alone (parts : List Tree) : Prop :=
  ∀ g ∈ parts, isGroup g = true → parts.filter (fun t => !Cursor.isComment t) = [g]

/-- A tree may stand in a slot, and all parts of it in theirs. -/
inductive Stands : Slot → Tree → Prop where
  | seq {slot : Slot} {kind : Sequence} {body : List Tree}
    (admitted : slot.admits (.seq kind) = true) (members : ∀ t ∈ body, Stands kind.inside t)
    (alone : Alone body) (words : ∀ op, slot = .left op → Cursor.hasWords body = true) :
    Stands slot (.seq kind body)
  | join {slot : Slot} {op : JoinOp} {l r : Tree} (admitted : slot.admits (.join op) = true)
    (left : Stands (.left op) l) (right : Stands (.right op) r) : Stands slot (.join op l r)
  | leaf {slot : Slot} {l : Leaf} (admitted : slot.admits (.leaf l) = true) :
    Stands slot (.leaf l)

theorem not_isComment_of_isGroup {t : Tree} (h : t.isGroup = true) : Cursor.isComment t = false := by
  unfold isGroup at h
  split at h
  · rfl
  · cases h

theorem alone_reverse {parts : List Tree} : Alone parts.reverse ↔ Alone parts := by
  unfold Alone
  simp only [List.mem_reverse, List.filter_reverse, List.reverse_eq_iff, List.reverse_singleton]

theorem alone_of_no_group {parts : List Tree} (h : ∀ g ∈ parts, g.isGroup = false) : Alone parts := by
  intro g hg hgroup
  simp [h g hg] at hgroup

/-- A comment disturbs nobody. -/
theorem Alone.comment {parts : List Tree} (h : Alone parts) : Alone (.leaf .comment :: parts) := by
  intro g hg hgroup
  rcases List.mem_cons.1 hg with rfl | hg
  · cases hgroup
  · simpa [Cursor.isComment] using h g hg hgroup

/-- Beside a part that is no comment there is no group. -/
theorem Alone.no_group {t : Tree} {parts : List Tree} (h : Alone (t :: parts))
    (ht : Cursor.isComment t = false) : ∀ g ∈ parts, g.isGroup = false := by
  intro g hg
  cases hgroup : g.isGroup with
  | false => rfl
  | true =>
    have hone := h g (List.mem_cons_of_mem _ hg) hgroup
    have hmem : g ∈ parts.filter fun t => !Cursor.isComment t :=
      List.mem_filter.2 ⟨hg, by simp [not_isComment_of_isGroup hgroup]⟩
    rw [List.filter_cons_of_pos (by simp [ht]), List.cons.injEq] at hone
    rw [hone.2] at hmem
    cases hmem

/-- Groups stand in commands only. -/
theorem isGroup_of_stands {slot : Slot} {t : Tree} (h : Stands slot t)
    (hslot : ∀ target, slot ≠ .part target) : t.isGroup = false := by
  cases h with
  | @seq _ kind _ admitted _ _ _ =>
    cases kind with
    | group =>
      cases slot with
      | part target => exact absurd rfl (hslot target)
      | top | statement | left | right | inQuotes => simp [Slot.admits] at admitted
    | script | command | dblQuote | sub => rfl
  | join => rfl
  | leaf => rfl

theorem isGroup_of_hasWords {parts : List Tree} (h : Cursor.hasWords parts = false) :
    ∀ g ∈ parts, g.isGroup = false := by
  intro g hg
  have hcomment : Cursor.isComment g = true := by
    simpa using List.any_eq_false.1 h g hg
  cases hgroup : g.isGroup with
  | false => rfl
  | true => simp [not_isComment_of_isGroup hgroup] at hcomment

/-- Among comments a group is alone. -/
theorem alone_group {parts : List Tree} (closed : Bool) (body : List Tree)
    (h : Cursor.hasWords parts = false) : Alone (.seq (.group closed) body :: parts) := by
  intro g hg hgroup
  have hnone : parts.filter (fun t => !Cursor.isComment t) = [] := by
    rw [List.filter_eq_nil_iff]
    exact List.any_eq_false.1 h
  rcases List.mem_cons.1 hg with rfl | hg
  · rw [List.filter_cons_of_pos rfl, hnone]
  · simp [isGroup_of_hasWords h g hg] at hgroup

/-! ## Replacing a tree where it stands -/

/-- Where `t` stands, `t'` may stand instead of it, whatever else stands there. -/
structure Yields (slot : Slot) (t t' : Tree) : Prop where
  stands : Stands slot t → Stands slot t'
  isComment_eq : Cursor.isComment t' = Cursor.isComment t
  isGroup_eq : t'.isGroup = t.isGroup

end Tree

open PocketShell.Tree (Stands Alone Yields)

/-- Where the open child of a crumb stands. -/
def Crumb.hole : Crumb → Slot
  | seq kind _ => kind.inside
  | join op _ => .right op

namespace Cursor

def hole : List Crumb → Slot
  | [] => .top
  | crumb :: _ => crumb.hole

theorem hole_ne_left (path : List Crumb) (op : JoinOp) : hole path ≠ .left op := by
  cases path with
  | nil => simp [hole]
  | cons crumb path =>
    cases crumb with
    | seq kind older => cases kind <;> simp [hole, Crumb.hole, Sequence.inside]
    | join => simp [hole, Crumb.hole]

end Cursor

theorem Crumb.admits_hole {crumb : Crumb} {label : Tree.Label} (h : crumb.admits label = true) :
    crumb.hole.admits label = true := by
  rcases crumb with ⟨_ | _ | (_ | _) | _ | _, older⟩ | ⟨op, left⟩ <;>
    rcases label with ⟨_ | _ | _ | _ | _⟩ | _ | ⟨_ | _ | _ | _ | _⟩ <;>
      first | exact h | rfl | exact Bool.noConfusion h

theorem Cursor.admits_of_valid {label : Tree.Label} {path : List Crumb}
    (h : ValidBelow label path) : (hole path).admits label = true := by
  cases path with
  | nil => simp [hole, Slot.admits, show label = .seq .script from h]
  | cons crumb path => exact Crumb.admits_hole h.1

section Yields

variable {t t' : Tree}

theorem Tree.Alone.congr {parts : List Tree} (h : Alone (t :: parts))
    (hc : Cursor.isComment t' = Cursor.isComment t) (hg : t'.isGroup = t.isGroup) :
    Alone (t' :: parts) := by
  cases hcomment : Cursor.isComment t with
  | false =>
    have hparts := h.no_group hcomment
    intro g hmem hgroup
    rcases List.mem_cons.1 hmem with rfl | hmem
    · have hone := h t List.mem_cons_self (hg ▸ hgroup)
      rw [List.filter_cons_of_pos (by simp [hcomment]), List.cons.injEq] at hone
      rw [List.filter_cons_of_pos (by simp [hc, hcomment]), hone.2]
    · simp [hparts g hmem] at hgroup
  | true =>
    intro g hmem hgroup
    rcases List.mem_cons.1 hmem with rfl | hmem
    · simp [Tree.not_isComment_of_isGroup (hg ▸ hgroup)] at hcomment
    · have hone := h g (List.mem_cons_of_mem _ hmem) hgroup
      rw [List.filter_cons_of_neg (by simp [hcomment])] at hone
      rw [List.filter_cons_of_neg (by simp [hc, hcomment]), hone]

theorem Tree.Yields.fill {crumb : Crumb} (h : Yields crumb.hole t t') (slot : Slot) :
    Yields slot (crumb.fill t) (crumb.fill t') := by
  cases crumb with
  | join op left =>
    refine ⟨fun hs => ?_, rfl, rfl⟩
    cases hs with
    | join admitted hl hr => exact .join admitted hl (h.stands hr)
  | seq kind older =>
    refine ⟨fun hs => ?_, ?_, ?_⟩
    · cases hs with
      | seq admitted members alone words =>
        simp only [List.mem_reverse, List.forall_mem_cons] at members
        refine .seq admitted ?_ ?_ ?_
        · simp only [List.mem_reverse, List.forall_mem_cons]
          exact ⟨h.stands members.1, members.2⟩
        · rw [Tree.alone_reverse] at alone ⊢
          exact alone.congr h.isComment_eq h.isGroup_eq
        · simpa [Cursor.hasWords, h.isComment_eq] using words
    · rfl
    · cases kind <;> rfl

/-- What happens at the end of a path matters nowhere else. -/
theorem Tree.Yields.plug {path : List Crumb} (h : Yields (Cursor.hole path) t t') :
    Stands .top (Cursor.plug t path) → Stands .top (Cursor.plug t' path) := by
  induction path generalizing t t' with
  | nil => exact h.stands
  | cons crumb path ih => exact ih (h.fill _)

/-- What stands at the end of a path. -/
theorem Cursor.stands_of_plug {path : List Crumb} (h : Stands .top (Cursor.plug t path)) :
    Stands (Cursor.hole path) t := by
  induction path generalizing t with
  | nil => exact h
  | cons crumb path ih =>
    cases crumb with
    | join op left =>
      cases ih h with
      | join _ _ hr => exact hr
    | seq kind older =>
      cases ih h with
      | seq _ members _ _ => exact members t (by simp)

end Yields

namespace Cursor

/-- A command that receives parts holds no group. -/
def Free : Focus → Prop
  | .seq (.command _) parts => ∀ g ∈ parts, g.isGroup = false
  | _ => True

/-- The whole script stands, and its focus may take what it takes. -/
def Standing (c : Cursor) : Prop := Stands .top c.tree ∧ Free c.focus

/-- If the script stood before, then it stands with the next cursor. -/
def Keeps (before : Tree) (r : Except Fault Cursor) : Prop :=
  Stands .top before → ∀ c, r = .ok c → c.Standing

theorem keeps_error (before : Tree) (cause : Fault) : Keeps before (.error cause) := by
  intro _ c h
  cases h

theorem keeps_ok {before : Tree} {focus : Focus} {path : List Crumb}
    (h : Stands .top before → Stands .top (plug focus.tree path))
    (hfree : Stands .top before → Free focus) : Keeps before (.ok ⟨focus, path⟩) := by
  intro hb c hc
  obtain rfl := Except.ok.inj hc
  exact ⟨h hb, hfree hb⟩

variable {t : Tree} {kind : Sequence} {parts : List Tree} {path : List Crumb}

/-- Other members for a sequence at the end of a path. -/
theorem stands_members {parts' : List Tree}
    (h : Stands .top (plug (.seq kind parts.reverse) path))
    (hmembers : ∀ t ∈ parts', Stands kind.inside t) (halone : Alone parts') :
    Stands .top (plug (.seq kind parts'.reverse) path) := by
  have hyields : Yields (hole path) (.seq kind parts.reverse) (.seq kind parts'.reverse) := by
    refine ⟨fun hs => ?_, rfl, ?_⟩
    · cases hs with
      | seq admitted _ _ _ =>
        exact .seq admitted (by simpa using hmembers) (Tree.alone_reverse.2 halone)
          fun op hop => absurd hop (hole_ne_left path op)
    · cases kind <;> rfl
  exact hyields.plug h

theorem members_of_plug (h : Stands .top (plug (.seq kind parts.reverse) path)) :
    (∀ t ∈ parts, Stands kind.inside t) ∧ Alone parts := by
  cases stands_of_plug h with
  | seq _ members alone _ => exact ⟨by simpa using members, Tree.alone_reverse.1 alone⟩

/-- One more member for a sequence at the end of a path. -/
theorem stands_add {new : Tree} (hnew : Stands kind.inside new)
    (halone : Alone parts → Alone (new :: parts))
    (h : Stands .top (plug (.seq kind parts.reverse) path)) :
    Stands .top (plug (.seq kind (new :: parts).reverse) path) := by
  obtain ⟨hmembers, hparts⟩ := members_of_plug h
  exact stands_members h (List.forall_mem_cons.2 ⟨hnew, hmembers⟩) (halone hparts)

/-- An empty sequence stands wherever its kind may, but not on the left of an operator. -/
theorem stands_empty {slot : Slot} (h : slot.admits (.seq kind) = true)
    (hslot : ∀ op, slot ≠ .left op) : Stands slot (.seq kind []) := by
  refine .seq h ?_ (Tree.alone_of_no_group ?_) fun op hop => absurd hop (hslot op)
  · simp
  · simp

/-- No command, or one without a group. -/
theorem free_of_no_group (kind : Sequence) (h : ∀ g ∈ parts, g.isGroup = false) :
    Free (.seq kind parts) := by
  cases kind with
  | command => exact h
  | script | group | dblQuote | sub => trivial

/-- Only commands hold groups. -/
theorem no_group_of_free (hfree : Free (.seq kind parts))
    (h : Stands .top (plug (.seq kind parts.reverse) path)) : ∀ g ∈ parts, g.isGroup = false := by
  cases kind with
  | command => exact hfree
  | script | group | dblQuote | sub =>
    exact fun g hg => Tree.isGroup_of_stands ((members_of_plug h).1 g hg) (by simp [Sequence.inside])

theorem alone_of_free {new : Tree} (hfree : Free (.seq kind parts)) (hnew : new.isGroup = false)
    (h : Stands .top (plug (.seq kind parts.reverse) path)) : Alone (new :: parts) :=
  Tree.alone_of_no_group (List.forall_mem_cons.2 ⟨hnew, no_group_of_free hfree h⟩)

theorem Keeps.of_imp {before before' : Tree} {r : Except Fault Cursor} (hr : Keeps before' r)
    (h : Stands .top before → Stands .top before') : Keeps before r :=
  fun hb => hr (h hb)

/-- The focus takes a leaf. -/
theorem keeps_take {l : Leaf} (hl : kind.inside.admits (.leaf l) = true)
    (hfree : Free (.seq kind parts)) :
    Keeps (plug (.seq kind parts.reverse) path) (.ok ⟨.seq kind (.leaf l :: parts), path⟩) :=
  keeps_ok (fun h => stands_add (.leaf hl) (fun _ => alone_of_free hfree rfl h) h)
    fun h => free_of_no_group kind (List.forall_mem_cons.2 ⟨rfl, no_group_of_free hfree h⟩)

/-- The focus takes a new part, which becomes the focus. -/
theorem keeps_open {focus : Focus} (hnew : Stands kind.inside focus.tree)
    (hgroup : focus.tree.isGroup = false) (hfocus : Free focus) (hfree : Free (.seq kind parts)) :
    Keeps (plug (.seq kind parts.reverse) path) (.ok ⟨focus, .seq kind parts :: path⟩) :=
  keeps_ok (fun h => stands_add hnew (fun _ => alone_of_free hfree hgroup h) h) fun _ => hfocus

/-! ## Going up -/

theorem keeps_leave (hcomment : isComment t = false) (hgroup : t.isGroup = false) :
    Keeps (plug t path) (leave t path) := by
  unfold leave
  split
  · rename_i kind older rest
    refine keeps_ok id fun h => ?_
    cases kind with
    | command target =>
      have halone : Alone (t :: older) := (members_of_plug h).2
      exact List.forall_mem_cons.2 ⟨hgroup, halone.no_group hcomment⟩
    | script | group | dblQuote | sub => exact trivial
  · exact keeps_error _ _

theorem yields_group {slot : Slot} (closed closed' : Bool) (body : List Tree) :
    Yields slot (.seq (.group closed) body) (.seq (.group closed') body) := by
  refine ⟨fun hs => ?_, rfl, rfl⟩
  cases hs with
  | seq admitted members alone words =>
    refine .seq ?_ members alone words
    cases slot <;> simp_all [Slot.admits]

theorem keeps_close : Keeps (plug (.seq kind parts.reverse) path) (close kind parts path) := by
  unfold close
  split
  · exact keeps_ok (yields_group _ _ _).plug fun _ => trivial
  · exact keeps_leave rfl rfl
  · exact keeps_error _ _

/-- What `ascend` finds answers, and all below it is still there. -/
theorem ascend_eq_some {α : Type} {answer : Sequence → Option α} {a : α} {rest : List Crumb}
    (h : ascend answer t path = some (a, kind, parts, rest)) :
    answer kind = some a ∧ plug (.seq kind parts.reverse) rest = plug t path := by
  induction path generalizing t with
  | nil => simp [ascend] at h
  | cons crumb path ih =>
    cases crumb with
    | join op left => exact ih h
    | seq k older =>
      simp only [ascend] at h
      split at h
      · rename_i b hb
        simp only [Option.some.injEq, Prod.mk.injEq] at h
        obtain ⟨rfl, rfl, rfl, rfl⟩ := h
        exact ⟨hb, rfl⟩
      · exact ih h

theorem keeps_closeParenthesis : Keeps (plug t path) (closeParenthesis t path) := by
  unfold closeParenthesis
  split
  · rename_i h
    rw [← (ascend_eq_some h).2]
    exact keeps_close
  · exact keeps_error _ _
  · exact keeps_error _ _

theorem keeps_backtick {quoted : Bool}
    (hkind : kind.inside.admits (.seq (.sub .backtick quoted)) = true)
    (hfree : Free (.seq kind parts)) :
    Keeps (plug (.seq kind parts.reverse) path) (backtick kind parts path quoted) := by
  unfold backtick
  split
  · rename_i h
    rw [← (ascend_eq_some h).2]
    exact keeps_close
  · refine keeps_open (stands_empty hkind fun op hop => ?_) rfl trivial hfree
    simp [hop, Slot.admits] at hkind

theorem keeps_endStatement : Keeps (plug t path) (endStatement t path) := by
  unfold endStatement
  split
  · rename_i kind parts rest h
    obtain ⟨hkind, hplug⟩ := ascend_eq_some h
    rw [← hplug]
    refine keeps_ok id fun _ => ?_
    cases kind with
    | command => simp [statementList] at hkind
    | script | group | dblQuote | sub => exact trivial
  · exact keeps_error _ _

/-! ## Joining -/

theorem plug_widest (op : JoinOp) (t : Tree) (path : List Crumb) :
    plug (widest op t path).1 (widest op t path).2 = plug t path := by
  fun_induction widest op t path with
  | case1 t outer left path hbinds ih => exact ih
  | case2 => rfl
  | case3 => rfl

/-- Whether an operator takes the join right above, and not only that join's right side. -/
def Climbs (op : JoinOp) (path : List Crumb) : Prop :=
  ∃ outer left rest, path = .join outer left :: rest ∧ outer.bindsAtLeast op = true

/-- An operator that is no redirection may have any join to its left that binds as tight. -/
theorem stands_left_widest {op : JoinOp} (hop : op.isRedirect = true → ¬ Climbs op path)
    (h : Stands .top (plug t path)) (ht : ¬ Climbs op path → Stands (.left op) t) :
    Stands (.left op) (widest op t path).1 := by
  fun_induction widest op t path with
  | case1 t outer left path hbinds ih =>
    have hplain : op.isRedirect = false := by
      cases hr : op.isRedirect with
      | false => rfl
      | true => exact absurd ⟨outer, left, path, rfl, hbinds⟩ (hop hr)
    have hjoin : Stands (hole path) (.join outer left t) := stands_of_plug h
    refine ih (by simp [hplain]) h fun _ => ?_
    cases hjoin with
    | join admitted hl hr =>
      refine .join ?_ hl hr
      simpa [Slot.admits, hplain, JoinOp.bindsAtLeast] using hbinds
  | case2 t outer left path hbinds =>
    refine ht ?_
    rintro ⟨_, _, _, heq, h⟩
    cases heq
    exact hbinds h
  | case3 t path hpath =>
    refine ht ?_
    rintro ⟨outer, left, rest, rfl, -⟩
    exact hpath outer left rest rfl

/-- Every operator climbs over a target, which is an operand of none. -/
theorem climbs_of_target {op : JoinOp} (hvalid : ValidBelow (.seq (.command true)) path) :
    Climbs op path := by
  cases path with
  | nil => simp [ValidBelow] at hvalid
  | cons crumb rest =>
    have hadmits := Crumb.admits_hole hvalid.1
    cases crumb with
    | seq kind older =>
      cases kind <;> simp [Crumb.hole, Sequence.inside, Slot.admits] at hadmits
    | join outer left =>
      have hredirect : outer.isRedirect = true := by
        simpa [Crumb.hole, Slot.admits] using hadmits.symm
      refine ⟨outer, left, rest, rfl, ?_⟩
      cases outer <;> cases op <;> simp_all [JoinOp.isRedirect, JoinOp.bindsAtLeast,
        JoinOp.precedence]

/-- A redirection climbs over nothing else. -/
theorem target_of_climbs {target : Bool} {op : JoinOp}
    (hvalid : ValidBelow (.seq (.command target)) path) (hop : op.isRedirect = true)
    (h : Climbs op path) : target = true := by
  obtain ⟨outer, left, rest, rfl, hbinds⟩ := h
  have htarget : target = outer.isRedirect := by simpa [Crumb.admits] using hvalid.1
  rw [htarget]
  cases outer <;> cases op <;> simp_all [JoinOp.isRedirect, JoinOp.bindsAtLeast,
    JoinOp.precedence]

theorem yields_join {op : JoinOp} {r : Tree} {slot : Slot} (hslot : slot.admits (.join op) = true)
    (ht : Stands (.left op) t) (hr : Stands (.right op) r) : Yields slot t (.join op t r) := by
  cases ht with
  | @seq _ kind _ admitted members alone words =>
    refine ⟨fun _ => .join hslot (.seq admitted members alone words) hr, rfl, ?_⟩
    cases kind <;> first | rfl | cases admitted
  | join admitted hl hr' => exact ⟨fun _ => .join hslot (.join admitted hl hr') hr, rfl, rfl⟩
  | leaf admitted => cases admitted

theorem keeps_join {target : Bool} {op : JoinOp} (hvalid : ValidBelow (.seq (.command target)) path)
    (hwords : hasWords parts = true) :
    Keeps (plug (.seq (.command target) parts.reverse) path)
      (join (.seq (.command target) parts.reverse) path op target) := by
  unfold join
  split
  · exact keeps_error _ _
  rename_i hredirect
  refine keeps_ok (fun h => ?_) fun _ => by simp [Free]
  -- below a target the operand is a join, and otherwise it may be the command itself
  have hcommand : ¬ Climbs op path → Stands (.left op) (.seq (.command target) parts.reverse) := by
    intro hclimbs
    have htarget : target = false := by
      cases target with
      | false => rfl
      | true => exact absurd (climbs_of_target hvalid) hclimbs
    obtain ⟨hmembers, halone⟩ := members_of_plug h
    refine .seq (by simp [Slot.admits, htarget]) (by simpa using hmembers)
      (Tree.alone_reverse.2 halone) fun _ _ => ?_
    simpa [hasWords] using hwords
  have hoperand : Stands (.left op) (widest op (.seq (.command target) parts.reverse) path).1 := by
    refine stands_left_widest (fun hop hclimbs => hredirect ?_) h hcommand
    simp [target_of_climbs hvalid hop hclimbs, hop]
  have hslot := admits_of_valid (validBelow_widest op (.seq (.command target) parts.reverse) hvalid rfl)
  have hright : Stands (.right op) (.seq (.command op.isRedirect) []) :=
    stands_empty (by simp [Slot.admits]) (by simp)
  rw [← plug_widest op] at h
  exact (yields_join hslot hoperand hright).plug h

/-! ## One token -/

section Feeding

variable {token : Token}

/-- A command that holds a group receives nothing but the end of its statement. -/
theorem keeps_feedCommand {target : Bool} (hvalid : ValidBelow (.seq (.command target)) path)
    (hfree : token.kind ≠ .newline → Free (.seq (.command target) parts)) :
    Keeps (plug (.seq (.command target) parts.reverse) path)
      (feedCommand target parts path token) := by
  unfold feedCommand
  dsimp only
  split
  case h_1 =>
    split
    · rename_i hnone
      refine keeps_ok id fun _ => Tree.isGroup_of_hasWords ?_
      simp_all
    · exact keeps_endStatement
  case h_2 =>
    split
    · exact keeps_error _ _
    · exact keeps_endStatement
  case h_3 hkind => exact keeps_take rfl (hfree (by simp [hkind]))
  case h_4 hkind =>
    split
    · exact keeps_take rfl (hfree (by simp [hkind]))
    · exact keeps_ok id fun _ => hfree (by simp [hkind])
  case h_5 =>
    split
    · exact keeps_error _ _
    · rename_i hnone
      simp only [Bool.or_eq_true, not_or, Bool.not_eq_true] at hnone
      refine keeps_ok (stands_add (stands_empty ?_ ?_) fun _ => ?_) fun _ => trivial
      · simp [Sequence.inside, Slot.admits, hnone.2]
      · simp [Sequence.inside]
      · exact Tree.alone_group _ _ hnone.1
  case h_6 => exact keeps_closeParenthesis
  case h_7 hkind => exact keeps_open (.leaf rfl) rfl trivial (hfree (by simp [hkind]))
  case h_8 hkind =>
    exact keeps_open (stands_empty rfl (by simp [Sequence.inside])) rfl trivial
      (hfree (by simp [hkind]))
  case h_9 hkind => exact keeps_backtick rfl (hfree (by simp [hkind]))
  case h_10 hkind => exact keeps_open (.leaf rfl) rfl trivial (hfree (by simp [hkind]))
  case h_11 hkind =>
    exact keeps_open (stands_empty rfl (by simp [Sequence.inside])) rfl trivial
      (hfree (by simp [hkind]))
  case h_12 => exact keeps_ok (stands_add (.leaf rfl) Tree.Alone.comment) fun _ => trivial
  case h_13 =>
    split
    · exact keeps_error _ _
    · split
      · rename_i hwords _ _ _
        exact keeps_join hvalid (by simpa using hwords)
      · exact keeps_error _ _

theorem keeps_feedList (hvalid : ValidBelow (.seq kind) path)
    (hkind : statementList kind = some ()) :
    Keeps (plug (.seq kind parts.reverse) path) (feedList kind parts path token) := by
  have hfree (ps : List Tree) : Free (.seq kind ps) := by
    cases kind with
    | command => simp [statementList] at hkind
    | script | group | dblQuote | sub => trivial
  have hcommand := admits_command parts hkind
  have hnew : Stands kind.inside (.seq (.command false) []) := by
    refine stands_empty (Crumb.admits_hole hcommand) fun op hop => ?_
    cases kind <;> simp [Sequence.inside] at hop
  have hbelow : ValidBelow (.seq (.command false)) (.seq kind parts :: path) := ⟨hcommand, hvalid⟩
  have hfeed : Keeps (plug (.seq (.command false) [].reverse) (.seq kind parts :: path))
      (feedCommand false [] (.seq kind parts :: path) token) :=
    keeps_feedCommand hbelow (by simp [Free])
  unfold feedList
  split
  iterate 3 exact keeps_ok id fun _ => hfree _
  case h_4 => exact keeps_close
  case h_5 => exact keeps_close
  case h_6 => exact keeps_error _ _
  case h_7 => exact keeps_close
  case h_8 =>
    -- the token begins a command, which is empty until then
    exact hfeed.of_imp fun h => stands_add hnew (fun _ => alone_of_free (hfree _) rfl h) h

theorem keeps_feedClosedGroup (hvalid : ValidBelow (.seq (.group true)) path) :
    Keeps (plug (.seq (.group true) parts.reverse) path) (feedClosedGroup parts path token) := by
  obtain ⟨older, rest, rfl, hrest⟩ := command_of_group hvalid
  have hjoin (op : JoinOp) :
      Keeps (plug (.seq (.group true) parts.reverse) (.seq (.command false) older :: rest))
        (join (.seq (.command false) (.seq (.group true) parts.reverse :: older).reverse) rest op
          false) :=
    keeps_join hrest rfl
  unfold feedClosedGroup
  dsimp only
  split
  case h_1 => exact keeps_ok id fun _ => trivial
  case h_2 => exact keeps_endStatement
  case h_3 => exact keeps_endStatement
  case h_4 => exact keeps_closeParenthesis
  case h_5 =>
    refine keeps_ok (fun h => ?_) fun _ => trivial
    have hholder : Stands .top
        (plug (.seq (.command false) (.seq (.group true) parts.reverse :: older).reverse) rest) := h
    exact stands_add (.leaf rfl) Tree.Alone.comment hholder
  case h_6 =>
    split
    · exact hjoin _
    · exact keeps_error _ _

theorem keeps_feedDblQuote :
    Keeps (plug (.seq .dblQuote parts.reverse) path) (feedDblQuote parts path token) := by
  unfold feedDblQuote
  split
  case h_1 => exact keeps_leave rfl rfl
  case h_2 => exact keeps_open (.leaf rfl) rfl trivial trivial
  case h_3 => exact keeps_open (stands_empty rfl (by simp [Sequence.inside])) rfl trivial trivial
  case h_4 => exact keeps_backtick rfl trivial
  case h_5 => exact keeps_take rfl trivial

theorem keeps_feedSequence (hvalid : ValidBelow (.seq kind) path)
    (hfree : token.kind ≠ .newline → Free (.seq kind parts)) :
    Keeps (plug (.seq kind parts.reverse) path) (feedSequence kind parts path token) := by
  unfold feedSequence
  split
  case h_1 => exact keeps_feedList hvalid rfl
  case h_2 => exact keeps_feedList hvalid rfl
  case h_3 => exact keeps_feedList hvalid rfl
  case h_4 => exact keeps_feedClosedGroup hvalid
  case h_5 => exact keeps_feedCommand hvalid hfree
  case h_6 => exact keeps_feedDblQuote

theorem yields_var (slot : Slot) (name name' : String) :
    Yields slot (.leaf (.var name)) (.leaf (.var name')) := by
  refine ⟨fun hs => ?_, rfl, rfl⟩
  cases hs with
  | leaf admitted => cases slot <;> first | exact .leaf rfl | cases admitted

theorem yields_quote (slot : Slot) (text text' : String) :
    Yields slot (.leaf (.quote text)) (.leaf (.quote text')) := by
  refine ⟨fun hs => ?_, rfl, rfl⟩
  cases hs with
  | leaf admitted => cases slot <;> first | exact .leaf rfl | cases admitted

/-- Without its open part, which is no comment, the focus above is free. -/
theorem stands_drop {older : List Tree} (hcomment : isComment t = false)
    (h : Stands .top (plug (.seq kind (t :: older).reverse) path)) :
    Stands .top (plug (.seq kind older.reverse) path) ∧ Free (.seq kind older) := by
  obtain ⟨hmembers, halone⟩ := members_of_plug h
  have hgroup := halone.no_group hcomment
  exact ⟨stands_members h (List.forall_mem_cons.1 hmembers).2 (Tree.alone_of_no_group hgroup),
    free_of_no_group kind hgroup⟩

theorem keeps_feedVariable {name : String} (hvalid : ValidBelow (.leaf (.var name)) path) :
    Keeps (plug (.leaf (.var name)) path) (feedVariable name path token) := by
  obtain ⟨kind, older, rest, rfl, hkind, hrest⟩ := holder_of_valid hvalid rfl (by simp)
  intro h
  have hholder : Stands .top (plug (.seq kind (.leaf (.var name) :: older).reverse) rest) := h
  obtain ⟨hdropped, hfree⟩ := stands_drop rfl hholder
  have hleaf (l : Leaf) : Free (.seq kind (.leaf l :: older)) :=
    free_of_no_group kind (List.forall_mem_cons.2 ⟨rfl, no_group_of_free hfree hdropped⟩)
  have hnamed (name' : String) :
      Stands .top (plug (.leaf (.var name')) (.seq kind older :: rest)) :=
    (yields_var _ name name').plug h
  unfold feedVariable
  dsimp only
  split
  · split
    · -- no name follows, and the variable is gone
      exact keeps_feedSequence hrest (fun _ => hfree) hdropped
    · split
      · exact keeps_feedSequence hrest (fun _ => hleaf _) (hnamed _)
      · exact keeps_ok id (fun _ => trivial) (hnamed _)
  · split
    · rw [feedSequence_identifier hkind rfl]
      have hdollar : kind.inside.admits (.leaf (.ident "$")) = true := by
        cases kind <;> first | rfl | cases hkind
      have hstands := stands_add (.leaf hdollar) (fun _ => alone_of_free hfree rfl hdropped) hdropped
      exact keeps_feedSequence hrest (fun _ => hleaf _) hstands
    · exact keeps_feedSequence hrest (fun _ => hleaf _) h

/-- Feeding keeps every part of a script in its slot. -/
theorem standing_feed {c c' : Cursor} (hvalid : c.Valid) (h : c.Standing)
    (hc : c.feed token = .ok c') : c'.Standing := by
  obtain ⟨focus, path⟩ := c
  obtain ⟨hstands, hfree⟩ := h
  cases focus with
  | seq kind parts => exact keeps_feedSequence hvalid (fun _ => hfree) hstands c' hc
  | leaf l =>
    rcases leaf_of_valid hvalid with ⟨name, rfl⟩ | ⟨text, rfl⟩ | rfl
    · exact keeps_feedVariable hvalid hstands c' hc
    · exact keeps_leave rfl rfl ((yields_quote _ text token.value).plug hstands) c' hc
    · simp only [feed] at hc
      split at hc
      · rename_i hnewline
        obtain ⟨kind, older, rest, rfl, -, hrest⟩ :=
          holder_of_valid hvalid rfl (by simp [Focus.label])
        have hfeed : Keeps (plug (.seq kind (.leaf .comment :: older).reverse) rest)
            (feedSequence kind (.leaf .comment :: older) rest token) :=
          keeps_feedSequence hrest fun hkind => absurd hnewline hkind
        exact hfeed hstands c' hc
      · obtain rfl := Except.ok.inj hc
        exact ⟨hstands, trivial⟩

theorem standing_start : start.Standing :=
  ⟨stands_empty rfl (by simp), trivial⟩

end Feeding

end Cursor

end PocketShell
