import Mathlib.Logic.Relation
import PocketShell.Proofs.Script.Everywhere
import PocketShell.Proofs.Script.Numbering

/-!
# Edits

A token changes a script under construction by a few edits, all at the end of the path to the
context.

* `Numbered.Site` : a node with all below it, and the crumbs above it;
* `Numbered.Edit` : one change at a place. The context is left upwards one node at a time;
* `Numbered.MayLeave` : the nodes that a token may leave. A sequence is left with the tokens that
  end it (`Sequence.endsWith`), and an operator when it has its right side, apart from `Lapses`;
* `Numbered.Steps.left` : which of the nodes above the context are left, and which are new;
* `Numbered.Steps.settled_before` : a test that fails beside the path fails there for ever.
-/

namespace PocketShell

open Relation

/-- The kind of a node that is a sequence. -/
def Shape.sequence? : Shape → Option Sequence
  | seq kind _ => some kind
  | _ => none

/-- The tokens that end a sequence. A group is closed first, and then left with one of the tokens
that may follow a closed group. -/
def Sequence.endsWith : Sequence → TokenKind → Bool
  | .dblQuote, k => k = .dblQuote
  | .sub .dollar _, k => k = .rparen
  | .sub .backtick _, k => k = .backtick
  | .group false, _ => false
  | .group true, k => k = .newline || k = .semicolon || k = .hash || k = .rparen ||
      (JoinOp.ofToken? k).isSome
  | .script, _ | .command _, _ => true

/-- The sequences that may be left with a backtick that does not end them. -/
def Sequence.isCrossed : Sequence → Bool
  | .dblQuote | .group false => true
  | _ => false

/-- Whether a backtick would cross one of these sequences, which stand around each other, the
innermost first: the innermost substitution ends with it, and there are double quotes or an open
group in between. -/
def Sequence.crossing (kinds : List Sequence) : Bool :=
  kinds.findSome? Cursor.substitution = some .backtick &&
    (kinds.takeWhile fun kind => (Cursor.substitution kind).isNone).any isCrossed

theorem Sequence.crossing_cons {kind : Sequence} {kinds : List Sequence}
    (h : Cursor.substitution kind = none) (hcrossed : kind.isCrossed = false) :
    crossing (kind :: kinds) = crossing kinds := by
  simp [crossing, h, hcrossed]

theorem Sequence.crossing_append {kinds rest : List Sequence} {kind sub : Sequence}
    (hkinds : ∀ kind ∈ kinds, Cursor.substitution kind = none)
    (hsub : Cursor.substitution sub = some .backtick) (hmem : kind ∈ kinds)
    (hcrossed : kind.isCrossed = true) : crossing (kinds ++ sub :: rest) = true := by
  have hfound : (kinds ++ sub :: rest).findSome? Cursor.substitution = some .backtick := by
    rw [List.findSome?_append, List.findSome?_eq_none_iff.2 hkinds]
    simp [hsub]
  have hbelow : (kinds ++ sub :: rest).takeWhile (fun k => (Cursor.substitution k).isNone) =
      kinds := by
    rw [List.takeWhile_append_of_pos fun k hk => by simp [hkinds k hk]]
    simp [hsub]
  rw [crossing, hfound, hbelow, List.any_eq_true.2 ⟨kind, hmem, hcrossed⟩]
  rfl

/-- Whether a tree is the right side of an operator: a join, or a command that holds anything
besides comments. -/
def Tree.isFilled : Tree → Bool
  | join .. => true
  | seq (.command _) body => Cursor.hasWords body
  | _ => false

namespace Numbered

/-! ## Places -/

abbrev Site := Tree × List Crumb

def Tree.kind? : Tree → Option Sequence
  | seq _ kind _ => some kind
  | _ => none

def Crumb.kind? : Crumb → Option Sequence
  | seq _ kind _ => some kind
  | _ => none

theorem Tree.sequence?_shape (t : Tree) : t.shape.sequence? = t.kind? := by
  cases t <;> rfl

theorem Crumb.sequence?_shape (child : NodeId) (crumb : Crumb) :
    (crumb.shape child).sequence? = crumb.kind? := by
  cases crumb <;> rfl

theorem Crumb.kind?_fill (t : Tree) (crumb : Crumb) : (crumb.fill t).kind? = crumb.kind? := by
  cases crumb <;> rfl

abbrev Entry := NodeId × Option Sequence

/-- A node and those above it. -/
def spine (a : Site) : List Entry :=
  (a.1.id, a.1.kind?) :: a.2.map fun crumb => (crumb.id, crumb.kind?)

/-- The sequences among a node and those above it. -/
def sequences (a : Site) : List Sequence := (spine a).filterMap Prod.snd

theorem sequences_seq (id : NodeId) (kind : Sequence) (parts : List Tree) (path : List Crumb) :
    sequences (.seq id kind parts, path) = kind :: path.filterMap Crumb.kind? := by
  simp [sequences, spine, Tree.kind?, List.filterMap_map]

theorem spine_cons (t : Tree) (crumb : Crumb) (path : List Crumb) :
    spine (t, crumb :: path) = (t.id, t.kind?) :: spine (crumb.fill t, path) := by
  simp only [spine, List.map_cons, Crumb.id_fill, Crumb.kind?_fill]

theorem sequences_leaf (id : NodeId) (l : Leaf) (pid : NodeId) (kind : Sequence)
    (older : List Tree) (path : List Crumb) :
    sequences (.leaf id l, .seq pid kind older :: path) = kind :: path.filterMap Crumb.kind? := by
  rw [← sequences_seq pid kind (.leaf id l :: older) path, sequences, spine_cons]
  rfl

/-- A test holds of all nodes but those on the path. -/
def Settled (q : PocketShell.Tree → Bool) (a : Site) : Prop :=
  Cursor.Settled q a.1.plain (a.2.map Crumb.plain)

theorem settled_fill {q : PocketShell.Tree → Bool} {t : Tree} {crumb : Crumb} {path : List Crumb} :
    Settled q (crumb.fill t, path) ↔ Settled q (t, crumb :: path) ∧ q t.plain = true := by
  unfold Settled
  rw [Crumb.plain_fill]
  exact Cursor.settled_fill

/-! ## Edits -/

/-- The ways to leave a node before its time: double quotes or an open group with a backtick, on the
way out of a substitution, and an operator without its right side. -/
structure Lapses where
  cross : Prop
  abandon : Prop

/-- A token of kind `k` may leave a sequence of this kind. -/
def Leavable (k : TokenKind) (w : Lapses) (kind? : Option Sequence) : Prop :=
  ∀ kind, kind? = some kind →
    kind.endsWith k = true ∨ k = .backtick ∧ kind.isCrossed = true ∧ w.cross

/-- What a token of kind `k` may leave. -/
structure MayLeave (k : TokenKind) (w : Lapses) (t : Tree) : Prop where
  kind : Leavable k w t.kind?
  right : ∀ id op left right, t = .join id op left right → right.plain.isFilled = true ∨ w.abandon

theorem mayLeave_leaf {k : TokenKind} {w : Lapses} (id : NodeId) (l : Leaf) :
    MayLeave k w (.leaf id l) := ⟨nofun, nofun⟩

/-- A change at a place with a token of kind `k`. The nodes from `n` on are new. -/
inductive Edit (n : Nat) (k : TokenKind) (w : Lapses) : Site → Site → Prop where
  | write (id : NodeId) (kind : Sequence) (parts : List Tree) (path : List Crumb) (new : NodeId)
    (l : Leaf) (hnew : n ≤ new) :
    Edit n k w (.seq id kind parts, path) (.seq id kind (.leaf new l :: parts), path)
  | enter (id : NodeId) (kind : Sequence) (parts : List Tree) (path : List Crumb) {new : Tree}
    (hnew : n ≤ new.id) (hinner : new.inner = []) :
    Edit n k w (.seq id kind parts, path) (new, .seq id kind parts :: path)
  | leave {t : Tree} (crumb : Crumb) (path : List Crumb) (h : MayLeave k w t) :
    Edit n k w (t, crumb :: path) (crumb.fill t, path)
  | join {t : Tree} (crumb : Crumb) (path : List Crumb) (op : JoinOp) {joined command : NodeId}
    (hjoined : n ≤ joined) (hcommand : n ≤ command) (h : MayLeave k w t) :
    Edit n k w (t, crumb :: path)
      (.seq command (.command op.isRedirect) [], .join joined op t :: crumb :: path)
  | drop (id : NodeId) (name : String) (pid : NodeId) (kind : Sequence) (older : List Tree)
    (path : List Crumb) :
    Edit n k w (.leaf id (.var name), .seq pid kind older :: path) (.seq pid kind older, path)
  | rewrite (id : NodeId) (l l' : Leaf) (path : List Crumb) :
    Edit n k w (.leaf id l, path) (.leaf id l', path)

abbrev Edits (n : Nat) (k : TokenKind) (w : Lapses) : Site → Site → Prop :=
  ReflTransGen (Edit n k w)

/-- The end of a group. -/
def Closes (k : TokenKind) (a b : Site) : Prop :=
  k = .rparen ∧ ∃ id parts path,
    a = (.seq id (.group false) parts, path) ∧ b = (.seq id (.group true) parts, path)

/-- Edits, and possibly the end of a group. -/
def Steps (n : Nat) (k : TokenKind) (w : Lapses) (a b : Site) : Prop :=
  ∃ m, Edits n k w a m ∧ (b = m ∨ Closes k m b)

variable {n : Nat} {k : TokenKind} {w : Lapses} {a b : Site}

theorem Edits.steps (h : Edits n k w a b) : Steps n k w a b := ⟨b, h, .inl rfl⟩

theorem Steps.head {a' : Site} (h : Edits n k w a a') (hsteps : Steps n k w a' b) :
    Steps n k w a b := by
  obtain ⟨m, hm, hb⟩ := hsteps
  exact ⟨m, h.trans hm, hb⟩

/-! ## Which nodes are left -/

/-- The first of the entries are gone, and the others are kept below new ones. -/
def Track (n : Nat) (before gone after : List Entry) : Prop :=
  ∃ kept fresh, before = gone ++ kept ∧ after = fresh ++ kept ∧ ∀ e ∈ fresh, n ≤ e.1

theorem track_refl (es : List Entry) : Track n es [] es := ⟨es, [], rfl, rfl, by simp⟩

theorem Track.push {before gone after : List Entry} {e : Entry} (h : Track n before gone after)
    (he : n ≤ e.1) : Track n before gone (e :: after) := by
  obtain ⟨kept, fresh, rfl, rfl, hfresh⟩ := h
  exact ⟨kept, e :: fresh, rfl, rfl, List.forall_mem_cons.2 ⟨he, hfresh⟩⟩

theorem Track.pop {before gone after : List Entry} {e : Entry}
    (h : Track n before gone (e :: after)) :
    Track n before gone after ∨ Track n before (gone ++ [e]) after := by
  obtain ⟨kept, fresh, rfl, hafter, hfresh⟩ := h
  cases fresh with
  | nil =>
    obtain rfl : e :: after = kept := hafter
    exact .inr ⟨after, [], by simp, rfl, by simp⟩
  | cons e' fresh =>
    obtain ⟨rfl, rfl⟩ : e = e' ∧ after = fresh ++ kept := by simpa using hafter
    exact .inl ⟨kept, fresh, rfl, rfl, (List.forall_mem_cons.1 hfresh).2⟩

/-- The nodes that are gone between two places were left with good reason, and what held beside the
path still does. -/
structure Left (n : Nat) (k : TokenKind) (w : Lapses) (q : PocketShell.Tree → Bool) (a b : Site)
    (gone : List Entry) : Prop where
  track : Track n (spine a) gone (spine b)
  kinds : ∀ e ∈ gone, Leavable k w e.2
  settled : Settled q a → Settled q b

/-- A test that leaves pass, and that nodes pass when they are left. -/
structure Fair (k : TokenKind) (w : Lapses) (q : PocketShell.Tree → Bool) : Prop where
  leaf : ∀ l, q (.leaf l) = true
  leave : ∀ t, MayLeave k w t → q t.plain = true

section Left

variable {q : PocketShell.Tree → Bool} {t : Tree} {crumb : Crumb} {path : List Crumb}
  {gone : List Entry}

theorem inside_of_inner (h : t.inner = []) : t.plain.inside q = true := by
  cases t with
  | leaf id l => simp [Tree.plain, PocketShell.Tree.inside]
  | join id op left right => simp [Tree.inner] at h
  | seq id kind parts =>
    cases parts with
    | nil => simp [Tree.plain, PocketShell.Tree.inside]
    | cons part parts => simp [Tree.inner] at h

/-- The children of a sequence are all beside the path below a new one. -/
theorem inside_seq (q : PocketShell.Tree → Bool) (id : NodeId) (kind : Sequence)
    (parts : List Tree) :
    (Tree.seq id kind parts).plain.inside q = (Crumb.seq id kind parts).plain.beside q := by
  simp only [Tree.plain, PocketShell.Tree.inside, List.all_reverse, Crumb.plain,
    PocketShell.Crumb.beside]

theorem Left.leave (h : Left n k w q a (t, crumb :: path) gone) (ht : MayLeave k w t)
    (hq : Fair k w q) : ∃ gone, Left n k w q a (crumb.fill t, path) gone := by
  have hsettled (ha : Settled q a) : Settled q (crumb.fill t, path) :=
    settled_fill.2 ⟨h.settled ha, hq.leave t ht⟩
  have htrack := h.track
  rw [spine_cons] at htrack
  rcases htrack.pop with htrack | htrack
  · exact ⟨gone, htrack, h.kinds, hsettled⟩
  · refine ⟨gone ++ [(t.id, t.kind?)], htrack, ?_, hsettled⟩
    exact List.forall_mem_append.2 ⟨h.kinds, List.forall_mem_singleton.2 ht.kind⟩

theorem Left.edit {c : Site} (h : Left n k w q a b gone) (hq : Fair k w q)
    (hedit : Edit n k w b c) : ∃ gone, Left n k w q a c gone := by
  cases hedit with
  | write id kind parts path new l hnew =>
    refine ⟨gone, h.track, h.kinds, fun ha => ?_⟩
    obtain ⟨hinside, hbeside⟩ := h.settled ha
    refine ⟨?_, hbeside⟩
    simp only [Tree.plain, PocketShell.Tree.inside, List.all_reverse] at hinside ⊢
    rw [List.map_cons, List.all_cons, hinside, Bool.and_true, Tree.plain]
    exact hq.leaf l
  | @enter id kind parts path new hnew hinner =>
    refine ⟨gone, h.track.push hnew, h.kinds, fun ha => ?_⟩
    obtain ⟨hinside, hbeside⟩ := h.settled ha
    rw [inside_seq] at hinside
    exact ⟨inside_of_inner hinner, List.forall_mem_cons.2 ⟨hinside, hbeside⟩⟩
  | leave crumb path ht => exact h.leave ht hq
  | @join t crumb path op joined command hjoined hcommand ht =>
    obtain ⟨gone, hleft⟩ := h.leave ht hq
    have htrack := (hleft.track.push (e := (joined, none)) hjoined).push
      (e := (command, some (.command op.isRedirect))) hcommand
    simp only [spine, Crumb.id_fill, Crumb.kind?_fill] at htrack
    refine ⟨gone, htrack, hleft.kinds, fun ha => ?_⟩
    obtain ⟨⟨hinside, hbeside⟩, hqt⟩ := settled_fill.1 (hleft.settled ha)
    refine ⟨inside_of_inner (by simp [Tree.inner]), List.forall_mem_cons.2 ⟨?_, hbeside⟩⟩
    simp only [Crumb.plain, PocketShell.Crumb.beside, PocketShell.Tree.everywhere_eq, hqt]
    exact hinside
  | drop id name pid kind older path =>
    obtain ⟨gone, hleft⟩ := h.leave (mayLeave_leaf id (.var name)) hq
    refine ⟨gone, hleft.track, hleft.kinds, fun ha => ?_⟩
    obtain ⟨⟨-, hbeside⟩, -⟩ := settled_fill.1 (hleft.settled ha)
    obtain ⟨holder, hbeside⟩ := List.forall_mem_cons.1 hbeside
    exact ⟨(inside_seq q pid kind older).trans holder, hbeside⟩
  | rewrite id l l' path =>
    refine ⟨gone, h.track, h.kinds, fun ha => ?_⟩
    obtain ⟨-, hbeside⟩ := h.settled ha
    exact ⟨inside_of_inner (by simp [Tree.inner]), hbeside⟩

theorem Edits.left (h : Edits n k w a b) (hq : Fair k w q) :
    ∃ gone, Left n k w q a b gone := by
  induction h with
  | refl => exact ⟨[], track_refl _, by simp, fun ha => ha⟩
  | tail _ hedit ih =>
    obtain ⟨gone, hgone⟩ := ih
    exact hgone.edit hq hedit

theorem settled_close (q : PocketShell.Tree → Bool) (id : NodeId) (parts : List Tree)
    (path : List Crumb) : Settled q (.seq id (.group true) parts, path) ↔
      Settled q (.seq id (.group false) parts, path) := by
  have hinside : (Tree.seq id (.group true) parts).plain.inside q =
      (Tree.seq id (.group false) parts).plain.inside q := by
    simp only [Tree.plain, PocketShell.Tree.inside]
  constructor
  · exact fun h => ⟨hinside.symm.trans h.inside, h.beside⟩
  · exact fun h => ⟨hinside.trans h.inside, h.beside⟩

/-- Which of the nodes above a place are left with a token, and which are new. -/
theorem Steps.left (h : Steps n k w a b) (hq : Fair k w q) :
    ∃ m gone, Left n k w q a m gone ∧ (spine b).map Prod.fst = (spine m).map Prod.fst ∧
      (Settled q b ↔ Settled q m) := by
  obtain ⟨m, hedits, hb⟩ := h
  obtain ⟨gone, hgone⟩ := hedits.left hq
  refine ⟨m, gone, hgone, ?_⟩
  rcases hb with rfl | ⟨-, id, parts, path, rfl, rfl⟩
  · exact ⟨rfl, .rfl⟩
  · exact ⟨rfl, settled_close q id parts path⟩

/-! ## What is settled stays -/

theorem Edit.settled_before (h : Edit n k w a b) (hb : Settled q b) : Settled q a := by
  cases h with
  | write id kind parts path new l hnew =>
    obtain ⟨hinside, hbeside⟩ := hb
    refine ⟨?_, hbeside⟩
    simp only [Tree.plain, PocketShell.Tree.inside, List.all_reverse] at hinside ⊢
    rw [List.map_cons, List.all_cons, Bool.and_eq_true] at hinside
    exact hinside.2
  | enter id kind parts path hnew hinner =>
    obtain ⟨holder, hbeside⟩ := List.forall_mem_cons.1 hb.beside
    exact ⟨(inside_seq q id kind parts).trans holder, hbeside⟩
  | leave crumb path ht => exact (settled_fill.1 hb).1
  | join crumb path op hjoined hcommand ht =>
    obtain ⟨hjoin, hbeside⟩ := List.forall_mem_cons.1 hb.beside
    refine ⟨?_, hbeside⟩
    simp only [Crumb.plain, PocketShell.Crumb.beside, PocketShell.Tree.everywhere_eq,
      Bool.and_eq_true] at hjoin
    exact hjoin.2
  | drop id name pid kind older path =>
    refine ⟨inside_of_inner (by simp [Tree.inner]), List.forall_mem_cons.2 ⟨?_, hb.beside⟩⟩
    exact (inside_seq q pid kind older).symm.trans hb.inside
  | rewrite id l l' path => exact ⟨inside_of_inner (by simp [Tree.inner]), hb.beside⟩

/-- A test that fails beside the path fails there for ever. -/
theorem Steps.settled_before (h : Steps n k w a b) (hb : Settled q b) : Settled q a := by
  obtain ⟨m, hedits, hm⟩ := h
  have hsettled : Settled q m := by
    rcases hm with rfl | ⟨-, id, parts, path, rfl, rfl⟩
    · exact hb
    · exact (settled_close q id parts path).1 hb
  clear hm
  induction hedits with
  | refl => exact hsettled
  | tail _ hedit ih => exact ih (hedit.settled_before hsettled)

end Left

/-! ## Kinds stay -/

def kindsIn (es : List (NodeId × Node)) : List Entry :=
  es.map fun e => (e.1, e.2.shape.sequence?)

def kindsAbove : List Crumb → List Entry
  | [] => []
  | crumb :: path => (crumb.id, crumb.kind?) :: (kindsIn crumb.inner ++ kindsAbove path)

/-- All nodes with their kinds. -/
def kinds (a : Site) : List Entry :=
  (a.1.id, a.1.kind?) :: (kindsIn a.1.inner ++ kindsAbove a.2)

theorem kindsIn_nodes (t : Tree) (parent : Option NodeId) :
    kindsIn (t.nodes parent) = (t.id, t.kind?) :: kindsIn t.inner := by
  rw [Tree.nodes, kindsIn, List.map_cons, Tree.entry, Tree.sequence?_shape]
  rfl

theorem kindsIn_pathNodes (child : NodeId) (path : List Crumb) :
    kindsIn (pathNodes child path) = kindsAbove path := by
  induction path generalizing child with
  | nil => rfl
  | cons crumb path ih =>
    rw [pathNodes, kindsIn, List.map_cons, Crumb.sequence?_shape, List.map_append, kindsAbove,
      ← ih crumb.id]
    rfl

theorem kindsIn_nodesAt (t : Tree) (path : List Crumb) :
    kindsIn (nodesAt t path) = kinds (t, path) := by
  rw [nodesAt, kindsIn, List.map_append, kinds, ← kindsIn_pathNodes t.id path]
  exact congrArg (· ++ _) (kindsIn_nodes t _)

theorem kinds_of_inner {t : Tree} (h : t.inner = []) (path : List Crumb) :
    kinds (t, path) = (t.id, t.kind?) :: kindsAbove path := by
  rw [kinds, h]
  rfl

/-- The nodes below a sequence are beside the path below a new child. -/
theorem kinds_seq (id : NodeId) (kind : Sequence) (parts : List Tree) (path : List Crumb) :
    kinds (.seq id kind parts, path) = kindsAbove (.seq id kind parts :: path) := by
  rw [kinds, Tree.inner]
  rfl

theorem kindsAbove_join (id : NodeId) (op : JoinOp) (left : Tree) (path : List Crumb) :
    kindsAbove (.join id op left :: path) = (id, none) :: kinds (left, path) := by
  rw [kindsAbove, Crumb.inner, kindsIn_nodes]
  rfl

theorem mem_kinds_fill {t : Tree} {crumb : Crumb} {path : List Crumb} {e : Entry} :
    e ∈ kinds (crumb.fill t, path) ↔ e ∈ kinds (t, crumb :: path) := by
  rw [← kindsIn_nodesAt, ← kindsIn_nodesAt]
  exact ((nodesAt_fill t crumb path).map _).mem_iff

theorem spine_sublist (a : Site) : (spine a).Sublist (kinds a) := by
  have hpath (path : List Crumb) :
      (path.map fun crumb => (crumb.id, crumb.kind?)).Sublist (kindsAbove path) := by
    induction path with
    | nil => exact .refl _
    | cons crumb path ih => exact .cons_cons _ (ih.trans (List.sublist_append_right ..))
  exact .cons_cons _ ((hpath a.2).trans (List.sublist_append_right ..))

/-- Who is there after an edit is new, or was there before as a node of the same kind. -/
theorem Edit.mem_kinds (h : Edit n k w a b) : ∀ e ∈ kinds b, n ≤ e.1 ∨ e ∈ kinds a := by
  have hleaf (id : NodeId) (l : Leaf) (path : List Crumb) :
      kinds (.leaf id l, path) = (id, none) :: kindsAbove path :=
    kinds_of_inner (by simp [Tree.inner]) path
  intro e he
  cases h with
  | write id kind parts path new l hnew =>
    have he := (@mem_kinds_fill (.leaf new l) (.seq id kind parts) path e).1 he
    rw [hleaf, ← kinds_seq] at he
    rcases List.mem_cons.1 he with rfl | he
    · exact .inl hnew
    · exact .inr he
  | enter id kind parts path hnew hinner =>
    rw [kinds_of_inner hinner, ← kinds_seq] at he
    rcases List.mem_cons.1 he with rfl | he
    · exact .inl hnew
    · exact .inr he
  | leave crumb path ht => exact .inr (mem_kinds_fill.1 he)
  | join crumb path op hjoined hcommand ht =>
    rw [kinds_of_inner (by simp [Tree.inner]), kindsAbove_join] at he
    rcases List.mem_cons.1 he with rfl | he
    · exact .inl hcommand
    · rcases List.mem_cons.1 he with rfl | he
      · exact .inl hjoined
      · exact .inr he
  | drop id name pid kind older path =>
    rw [kinds_seq] at he
    rw [hleaf]
    exact .inr (List.mem_cons_of_mem _ he)
  | rewrite id l l' path =>
    rw [hleaf] at he ⊢
    exact .inr he

theorem Edits.mem_kinds (h : Edits n k w a b) : ∀ e ∈ kinds b, n ≤ e.1 ∨ e ∈ kinds a := by
  induction h with
  | refl => exact fun e he => .inr he
  | tail _ hedit ih =>
    intro e he
    rcases hedit.mem_kinds e he with hnew | he
    · exact .inl hnew
    · exact ih e he

/-- A node is new, or it is of the kind that it was, or it is a group that was closed. -/
theorem Steps.mem_kinds (h : Steps n k w a b) :
    ∀ e ∈ kinds b, n ≤ e.1 ∨ e ∈ kinds a ∨ k = .rparen ∧ e.2 = some (.group true) := by
  obtain ⟨m, hedits, hb⟩ := h
  intro e he
  have hm (he : e ∈ kinds m) :=
    (hedits.mem_kinds e he).imp_right (Or.inl (b := k = .rparen ∧ e.2 = some (.group true)))
  rcases hb with rfl | ⟨hk, id, parts, path, rfl, rfl⟩
  · exact hm he
  · rcases List.mem_cons.1 he with rfl | he
    · exact .inr (.inr ⟨hk, rfl⟩)
    · refine hm (List.mem_cons_of_mem _ ?_)
      rwa [Tree.inner] at he ⊢

end Numbered

end PocketShell
