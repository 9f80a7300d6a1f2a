import Mathlib.Data.List.Nodup
import PocketShell.Proofs.Script.Integrity
import PocketShell.Proofs.Script.Slots

/-!
# The shape of a table of nodes

Every node that has been fed so far stands where the grammar lets it stand (`Forest.WellShaped`):
operators bind as their precedence says, redirections have a command before them and a target behind
them, groups are alone in their commands, and so on.

* `Forest.Placed` : a node of a table may stand in a slot, as far as it and its parts show;
* `Forest.Settled` : what a node holds is in its slot. In a table that holds a tree whose parts
  stand, every node is settled (`HasTree.settled`);
* `wellShaped_feedAll` : all this after every run.
-/

namespace PocketShell

open Relation (ReflTransGen)
open PocketShell.Tree (Stands)

/-! ## What slots admit -/

namespace Tree.Label

/-- How tight a node binds as an operand: a command tighter than every operator. -/
def tightness : Label → Nat
  | seq (.command _) => 4
  | join op => op.precedence
  | _ => 0

end Tree.Label

theorem JoinOp.precedence_lt (op : JoinOp) : op.precedence < 4 := by cases op <;> decide

namespace Slot

variable {label : Tree.Label} {op : JoinOp}

theorem admits_left (h : (left op).admits label = true) :
    op.precedence ≤ label.tightness ∧ (op.isRedirect = true → label = .seq (.command false)) := by
  unfold admits at h
  split at h <;> simp_all [Tree.Label.tightness]
  exact Nat.le_of_lt (JoinOp.precedence_lt _)

theorem admits_right (h : (right op).admits label = true) : op.precedence < label.tightness := by
  unfold admits at h
  split at h <;> simp_all [Tree.Label.tightness, JoinOp.precedence_lt]

theorem admits_statement (h : statement.admits label = true) :
    label = .seq (.command false) ∨ ∃ op, label = .join op := by
  unfold admits at h
  split at h <;> simp_all

theorem admits_sub {style : SubStyle} {quoted : Bool} {slot : Slot}
    (h : slot.admits (.seq (.sub style quoted)) = true) :
    quoted = true ↔ slot = inQuotes := by
  unfold admits at h
  split at h <;> simp_all

theorem admits_command {target : Bool} {slot : Slot}
    (h : slot.admits (.seq (.command target)) = true) :
    target = true ↔ ∃ op, slot = right op ∧ op.isRedirect = true := by
  unfold admits at h
  split at h <;> simp_all

theorem admits_inQuotes (h : inQuotes.admits label = true) :
    (∃ text, label = .leaf (.ident text)) ∨ (∃ name, label = .leaf (.var name)) ∨
      ∃ style, label = .seq (.sub style true) := by
  unfold admits at h
  split at h <;> simp_all

end Slot

theorem Sequence.inside_eq_statement {kind : Sequence} (h : kind.isHolder = false) :
    kind.inside = .statement := by
  cases kind <;> first | rfl | cases h

def Shape.label : Shape → Tree.Label
  | .seq kind _ => .seq kind
  | .join op .. => .join op
  | .leaf l => .leaf l

/-! ## Numbered trees that stand -/

namespace Numbered.Tree

theorem label_shape (t : Tree) : t.shape.label = t.label := by
  cases t <;> rfl

theorem isComment_plain (t : Tree) :
    Cursor.isComment t.plain = true ↔ t.label = .leaf .comment := by
  cases t with
  | seq | join => simp [plain, Cursor.isComment, label]
  | leaf id l => cases l <;> simp [plain, Cursor.isComment, label]

theorem isGroup_plain {t : Tree} {closed : Bool} (h : t.label = .seq (.group closed)) :
    t.plain.isGroup = true := by
  cases t with
  | seq id kind ts =>
    obtain rfl : kind = .group closed := PocketShell.Tree.Label.seq.inj h
    rw [plain]
    rfl
  | join | leaf => cases h

variable {slot : Slot} {t : Tree}

theorem admits_of_stands (h : Stands slot t.plain) : slot.admits t.label = true := by
  cases t with
  | seq id kind ts =>
    rw [plain] at h
    cases h with
    | seq admitted => exact admitted
  | join id op left right =>
    rw [plain] at h
    cases h with
    | join admitted => exact admitted
  | leaf id l =>
    rw [plain] at h
    cases h with
    | leaf admitted => exact admitted

theorem stands_child {child : Tree} (h : Stands slot t.plain) (hchild : child ∈ t.children) :
    ∃ slot', Stands slot' child.plain := by
  cases t with
  | leaf => cases hchild
  | seq id kind ts =>
    rw [plain] at h
    cases h with
    | seq _ members _ _ => exact ⟨_, members _ (List.mem_reverse.2 (List.mem_map_of_mem hchild))⟩
  | join id op left right =>
    rw [plain] at h
    cases h with
    | join _ hl hr =>
      rcases List.mem_pair.1 hchild with rfl | rfl
      · exact ⟨_, hl⟩
      · exact ⟨_, hr⟩

/-- Beside a group there are only comments, whatever their numbers. -/
theorem isComment_of_alone {ts : List Tree} {g u : Tree}
    (h : PocketShell.Tree.Alone (ts.map plain)) (hg : g ∈ ts) (hgroup : g.plain.isGroup = true)
    (hu : u ∈ ts) (hne : u ≠ g) : Cursor.isComment u.plain = true := by
  have hone := h g.plain (List.mem_map_of_mem hg) hgroup
  rw [List.filter_map] at hone
  obtain ⟨v, hv, -⟩ := List.map_eq_singleton_iff.1 hone
  have honly (w : Tree) (hw : w ∈ ts) (hword : Cursor.isComment w.plain = false) : w = v := by
    have hmem : w ∈ ts.filter ((fun t => !Cursor.isComment t) ∘ plain) :=
      List.mem_filter.2 ⟨hw, by simp [hword]⟩
    simpa [hv] using hmem
  cases hword : Cursor.isComment u.plain with
  | true => rfl
  | false =>
    have hgv := honly g hg (PocketShell.Tree.not_isComment_of_isGroup hgroup)
    exact absurd ((honly u hu hword).trans hgv.symm) hne

end Numbered.Tree

namespace Forest

def label (f : Forest) (n : NodeId) : Tree.Label := (f.shape n).label

/-! ## Nodes in their slots -/

/-- A node may stand in a slot. A sequence on the left of an operator holds something. -/
structure Placed (f : Forest) (slot : Slot) (n : NodeId) : Prop where
  admitted : slot.admits (f.label n) = true
  words : ∀ op, slot = .left op → ∀ kind parts, f.shape n = .seq kind parts →
    ∃ m ∈ parts, f.label m ≠ .leaf .comment

/-- What a node holds stands where it may stand. -/
structure Settled (f : Forest) (n : NodeId) : Prop where
  members : ∀ kind parts, f.shape n = .seq kind parts → ∀ m ∈ parts, f.Placed kind.inside m
  alone : ∀ kind parts, f.shape n = .seq kind parts →
    ∀ g ∈ parts, ∀ closed, f.label g = .seq (.group closed) →
      ∀ m ∈ parts, m ≠ g → f.label m = .leaf .comment
  sides : ∀ op left right, f.shape n = .join op left right →
    f.Placed (.left op) left ∧ ∃ r, right = some r ∧ f.Placed (.right op) r

variable {f : Forest} {parent : Option NodeId} {t : Numbered.Tree} {slot : Slot}

theorem HasTree.label_eq (h : f.HasTree parent t) : f.label t.id = t.label := by
  rw [label, h.shape, Numbered.Tree.label_shape]

theorem HasTree.placed (h : f.HasTree parent t) (hs : Stands slot t.plain) :
    f.Placed slot t.id := by
  refine ⟨?_, fun op hop kind parts hshape => ?_⟩
  · rw [h.label_eq]
    exact Numbered.Tree.admits_of_stands hs
  · rw [h.shape] at hshape
    cases t with
    | join | leaf => cases hshape
    | seq id k ts =>
      obtain ⟨rfl, rfl⟩ := Shape.seq.inj hshape
      rw [Numbered.Tree.plain] at hs
      cases hs with
      | seq _ _ _ words =>
        obtain ⟨part, hpart, hword⟩ := List.any_eq_true.1 (words op hop)
        obtain ⟨u, hu, rfl⟩ := List.mem_map.1 (List.mem_reverse.1 hpart)
        refine ⟨u.id, List.mem_map_of_mem hu, ?_⟩
        rw [(h.part u hu).label_eq, Ne, ← Numbered.Tree.isComment_plain]
        simpa using hword

theorem HasTree.settled_seq {id : NodeId} {kind : Sequence} {ts : List Numbered.Tree}
    (h : f.HasTree parent (.seq id kind ts))
    (hs : Stands slot (Numbered.Tree.seq id kind ts).plain) : f.Settled id := by
  have hshape : f.shape id = .seq kind (ts.map Numbered.Tree.id) := h.shape
  rw [Numbered.Tree.plain] at hs
  cases hs with
  | seq _ members alone _ =>
    constructor
    case sides => simp [hshape]
    case members =>
      intro kind' parts heq m hm
      obtain ⟨rfl, rfl⟩ := Shape.seq.inj (hshape.symm.trans heq)
      obtain ⟨u, hu, rfl⟩ := List.mem_map.1 hm
      exact (h.part u hu).placed (members _ (List.mem_reverse.2 (List.mem_map_of_mem hu)))
    case alone =>
      intro kind' parts heq g hg closed hgroup m hm hne
      obtain ⟨rfl, rfl⟩ := Shape.seq.inj (hshape.symm.trans heq)
      obtain ⟨v, hv, rfl⟩ := List.mem_map.1 hg
      obtain ⟨u, hu, rfl⟩ := List.mem_map.1 hm
      rw [(h.part v hv).label_eq] at hgroup
      rw [(h.part u hu).label_eq, ← Numbered.Tree.isComment_plain]
      exact Numbered.Tree.isComment_of_alone (Tree.alone_reverse.1 alone) hv
        (Numbered.Tree.isGroup_plain hgroup) hu fun heq => hne (congrArg Numbered.Tree.id heq)

theorem HasTree.settled_join {id : NodeId} {op : JoinOp} {left right : Numbered.Tree}
    (h : f.HasTree parent (.join id op left right))
    (hs : Stands slot (Numbered.Tree.join id op left right).plain) : f.Settled id := by
  have hshape : f.shape id = .join op left.id (some right.id) := h.shape
  rw [Numbered.Tree.plain] at hs
  cases hs with
  | join _ hl hr =>
    refine ⟨by simp [hshape], by simp [hshape], fun op' left' right' heq => ?_⟩
    obtain ⟨rfl, rfl, rfl⟩ := Shape.join.inj (hshape.symm.trans heq)
    exact ⟨h.left.placed hl, right.id, rfl, h.right.placed hr⟩

/-- A leaf holds nothing. -/
theorem settled_leaf {n : NodeId} {l : Leaf} (h : f.shape n = .leaf l) : f.Settled n := by
  constructor <;> simp [h]

theorem HasTree.settled (h : f.HasTree parent t) (hs : Stands slot t.plain) :
    ∀ e ∈ t.nodes parent, f.Settled e.1 := by
  induction t using Numbered.Tree.children_induct generalizing parent slot with
  | step t ih =>
    intro e he
    rcases List.mem_cons.1 he with rfl | he
    · cases t with
      | seq => exact h.settled_seq hs
      | join => exact h.settled_join hs
      | leaf => exact settled_leaf h.shape
    · rw [Numbered.Tree.inner_eq_flatMap] at he
      obtain ⟨child, hchild, he⟩ := List.mem_flatMap.1 he
      obtain ⟨slot', hs'⟩ := Numbered.Tree.stands_child hs hchild
      exact ih child hchild (h.child child hchild) hs' e he

/-- Strays are variables, and numbers without a node read as comments. -/
theorem Holds.settled {strays : List NodeId} (h : f.Holds strays (t.nodes none))
    (hs : Stands slot t.plain) (n : NodeId) : f.Settled n := by
  have htree : f.HasTree none t := h.get
  rcases h.node_cases n with hmem | ⟨-, name, hname⟩ | ⟨-, hnode⟩
  · exact htree.settled hs _ hmem
  · exact settled_leaf (congrArg Node.shape hname)
  · exact settled_leaf (congrArg Node.shape hnode)

/-! ## Well-shaped tables -/

/-- The shape of scripts, node by node. -/
structure WellShaped (f : Forest) : Prop where
  join_sides : ∀ n op left right, f.shape n = .join op left right →
    op.precedence ≤ (f.label left).tightness ∧
      ∃ r, right = some r ∧ op.precedence < (f.label r).tightness
  redirect_left : ∀ n op left right, f.shape n = .join op left right → op.isRedirect = true →
    f.label left = .seq (.command false)
  target_iff : ∀ n target, f.label n = .seq (.command target) →
    (target = true ↔ ∃ p op left, f.parent? n = some p ∧ f.shape p = .join op left (some n) ∧
      op.isRedirect = true)
  left_words : ∀ n op left right target parts, f.shape n = .join op left right →
    f.shape left = .seq (.command target) parts → ∃ m ∈ parts, f.label m ≠ .leaf .comment
  group_alone : ∀ n target parts, f.shape n = .seq (.command target) parts →
    ∀ g ∈ parts, ∀ closed, f.label g = .seq (.group closed) →
      target = false ∧ parts.count g = 1 ∧ ∀ m ∈ parts, m ≠ g → f.label m = .leaf .comment
  quoted_iff : ∀ n style quoted, f.label n = .seq (.sub style quoted) →
    (quoted = true ↔ ∃ p, f.parent? n = some p ∧ f.label p = .seq .dblQuote)
  statements : ∀ n kind body, f.shape n = .seq kind body → kind.isHolder = false →
    ∀ m ∈ body, (∃ target, f.label m = .seq (.command target)) ∨ ∃ op, f.label m = .join op
  dblQuotes : ∀ n body, f.shape n = .seq .dblQuote body →
    ∀ m ∈ body, (∃ text, f.label m = .leaf (.ident text)) ∨
      (∃ name, f.label m = .leaf (.var name)) ∨ ∃ style quoted, f.label m = .seq (.sub style quoted)

section Settled

variable (hsettled : ∀ n, f.Settled n) {context : NodeId} (hintact : f.Intact context)
  (hroot : f.label root = .seq .script) {n : NodeId}

include hsettled hintact

/-- What has a parent stands in a slot of it. -/
theorem placed_of_parent {p : NodeId} (h : f.parent? n = some p) :
    (∃ kind parts, f.shape p = .seq kind parts ∧ f.Placed kind.inside n) ∨
      (∃ op right, f.shape p = .join op n right ∧ right ≠ some n ∧ f.Placed (.left op) n) ∨
      ∃ op left, f.shape p = .join op left (some n) ∧ f.Placed (.right op) n := by
  have hchild : n ∈ (f.shape p).members := (hintact.parent_iff n p).1 h
  have honce := hintact.once p
  cases hshape : f.shape p with
  | leaf l => simp [hshape, Shape.members] at hchild
  | seq kind parts =>
    rw [hshape] at hchild
    exact .inl ⟨kind, parts, rfl, (hsettled p).members kind parts hshape n hchild⟩
  | join op left right =>
    obtain ⟨hleft, r, rfl, hright⟩ := (hsettled p).sides op left right hshape
    rw [hshape] at hchild honce
    rcases List.mem_pair.1 hchild with rfl | rfl
    · refine .inr (.inl ⟨op, some r, rfl, ?_, hleft⟩)
      rintro ⟨⟩
      simp [Shape.members] at honce
    · exact .inr (.inr ⟨op, left, rfl, hright⟩)

omit hsettled in
include hroot in
/-- All but the script, and what is no part of it, has a parent. -/
theorem exists_parent {kind : Sequence} (h : f.label n = .seq kind) (hkind : kind ≠ .script) :
    ∃ p, f.parent? n = some p := by
  have hsize : n < f.size := by
    by_contra hn
    have hnode : f.node n = {} := by
      rw [node, Array.getElem?_eq_none (Nat.le_of_not_lt hn), Option.getD_none]
    simp [label, shape, hnode, Shape.label] at h
  rcases hintact.connected n hsize with hreach | hstray
  · rcases hreach.cases_tail with rfl | ⟨p, -, hp⟩
    · exact absurd (Tree.Label.seq.inj (h.symm.trans hroot)) hkind
    · exact ⟨p, (hintact.parent_iff n p).2 hp⟩
  · obtain ⟨name, hname⟩ := hstray.isVariable
    simp [label, hname, Shape.label] at h

include hroot in
theorem target_iff_of_settled {target : Bool} (h : f.label n = .seq (.command target)) :
    target = true ↔ ∃ p op left, f.parent? n = some p ∧ f.shape p = .join op left (some n) ∧
      op.isRedirect = true := by
  obtain ⟨p, hp⟩ := exists_parent hintact hroot h (by simp)
  rcases placed_of_parent hsettled hintact hp with
    ⟨kind, parts, hshape, hplaced⟩ | ⟨op, right, hshape, hright, hplaced⟩ | ⟨op, left, hshape, hplaced⟩
  · have hadmits := Slot.admits_command (h ▸ hplaced.admitted)
    cases kind <;> simp_all [Sequence.inside]
  · have hadmits := Slot.admits_command (h ▸ hplaced.admitted)
    simp_all
  · have hadmits := Slot.admits_command (h ▸ hplaced.admitted)
    simp_all

include hroot in
theorem quoted_iff_of_settled {style : SubStyle} {quoted : Bool}
    (h : f.label n = .seq (.sub style quoted)) :
    quoted = true ↔ ∃ p, f.parent? n = some p ∧ f.label p = .seq .dblQuote := by
  obtain ⟨p, hp⟩ := exists_parent hintact hroot h (by simp)
  rcases placed_of_parent hsettled hintact hp with
    ⟨kind, parts, hshape, hplaced⟩ | ⟨op, right, hshape, -, hplaced⟩ | ⟨op, left, hshape, hplaced⟩
  · have hadmits := Slot.admits_sub (h ▸ hplaced.admitted)
    cases kind <;> simp_all [Sequence.inside, label, Shape.label]
  · exact absurd hplaced.admitted (by simp [h, Slot.admits])
  · exact absurd hplaced.admitted (by simp [h, Slot.admits])

include hroot in
theorem wellShaped_of_settled : f.WellShaped where
  join_sides := by
    intro n op left right hshape
    obtain ⟨hleft, r, hr, hright⟩ := (hsettled n).sides op left right hshape
    exact ⟨(Slot.admits_left hleft.admitted).1, r, hr, Slot.admits_right hright.admitted⟩
  redirect_left := fun n op left right hshape =>
    (Slot.admits_left ((hsettled n).sides op left right hshape).1.admitted).2
  target_iff := fun n target => target_iff_of_settled hsettled hintact hroot
  left_words := fun n op left right target parts hshape =>
    ((hsettled n).sides op left right hshape).1.words op rfl (.command target) parts
  group_alone := by
    intro n target parts hshape g hg closed hgroup
    have hplaced := (hsettled n).members _ parts hshape g hg
    have honce := hintact.once n
    rw [hshape] at honce
    refine ⟨?_, (List.nodup_iff_count_eq_one.1 honce) g hg, ?_⟩
    · simpa [hgroup, Sequence.inside, Slot.admits] using hplaced.admitted
    · exact (hsettled n).alone _ parts hshape g hg closed hgroup
  quoted_iff := fun n style quoted => quoted_iff_of_settled hsettled hintact hroot
  statements := by
    intro n kind body hshape hkind m hm
    have hplaced := (hsettled n).members kind body hshape m hm
    rw [Sequence.inside_eq_statement hkind] at hplaced
    exact (Slot.admits_statement hplaced.admitted).imp_left fun h => ⟨false, h⟩
  dblQuotes := by
    intro n body hshape m hm
    have hplaced := (hsettled n).members .dblQuote body hshape m hm
    rcases Slot.admits_inQuotes hplaced.admitted with h | h | ⟨style, h⟩
    · exact .inl h
    · exact .inr (.inl h)
    · exact .inr (.inr ⟨style, true, h⟩)

end Settled

/-! ## Runs -/

/-- What a run leads to is a cursor in a script that stands. -/
theorem standing_feedAll (tokens : List Token) (f : Forest) (context : NodeId)
    (h : feedAll {} root tokens = (f, .ok context)) :
    ∃ strays c, f.At strays context c ∧ c.Valid ∧ c.Standing := by
  induction tokens using List.reverseRecOn generalizing f context with
  | nil =>
    obtain ⟨rfl, hcontext⟩ := Prod.mk.inj h
    obtain rfl := Except.ok.inj hcontext
    exact ⟨[], Cursor.start, at_start, Cursor.valid_start, Cursor.standing_start⟩
  | append_singleton tokens token ih =>
    rw [feedAll_concat] at h
    split at h
    · rename_i f₁ context₁ hrun
      obtain ⟨strays, c, hat, hvalid, hstanding⟩ := ih f₁ context₁ hrun
      obtain ⟨c', hfeed, hvalid', hat'⟩ := hat.step hvalid h
      exact ⟨_, c', hat', hvalid', Cursor.standing_feed hvalid hstanding hfeed⟩
    · simp at h

/-- Whatever tokens were fed, as long as none was refused, the nodes have the shape of a script. -/
theorem wellShaped_feedAll (tokens : List Token) (f : Forest) (context : NodeId)
    (h : feedAll {} root tokens = (f, .ok context)) : f.WellShaped := by
  obtain ⟨strays, ⟨focus, plainPath⟩, ⟨t, path, hshows, rfl, hfocus, rfl⟩, -, hstands, -⟩ :=
    standing_feedAll tokens f context h
  obtain ⟨top, htop, hplain⟩ := hshows.whole
  have hholds : f.Holds strays (top.nodes none) := by
    simpa [Numbered.nodesAt, Numbered.pathNodes, Numbered.above] using htop.holds
  have hstands : Stands .top top.plain := by
    rw [hplain, plain_of_focus hfocus]
    exact hstands
  have hroot : f.label root = .seq .script := by
    have htree : f.HasTree none top := hholds.get
    have hadmits := Numbered.Tree.admits_of_stands hstands
    rw [← show top.id = root from htop.root, htree.label_eq]
    cases hlabel : top.label <;> simp_all [Slot.admits]
  exact wellShaped_of_settled (hholds.settled hstands) (intact_of_shows hshows) hroot

/-- A redirection in a pipe, a group with a comment behind it, and a substitution in double quotes
that is still open. -/
def nestedTokens : List Token :=
  [⟨.identifier, "a", {}⟩, ⟨.lt, "<", {}⟩, ⟨.identifier, "f", {}⟩, ⟨.pipe, "|", {}⟩,
    ⟨.lparen, "(", {}⟩, ⟨.identifier, "b", {}⟩, ⟨.rparen, ")", {}⟩, ⟨.hash, "#", {}⟩,
    ⟨.newline, "\n", {}⟩, ⟨.dblQuote, "\"", {}⟩, ⟨.dollarParen, "$(", {}⟩, ⟨.identifier, "c", {}⟩,
    ⟨.ampAmp, "&&", {}⟩]

theorem wellShaped_nestedTokens : (feedAll {} root nestedTokens).2 = .ok 18 ∧
    (feedAll {} root nestedTokens).1.WellShaped := by
  have hrun : (feedAll {} root nestedTokens).2 = .ok 18 := by decide
  exact ⟨hrun, wellShaped_feedAll nestedTokens _ 18 (Prod.ext rfl hrun)⟩

end Forest

end PocketShell
