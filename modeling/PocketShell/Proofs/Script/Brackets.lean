import PocketShell.Proofs.Script.Moments
import PocketShell.Proofs.Script.Slots

/-!
# Bracket discipline

Double quotes, groups and substitutions are left with the tokens that end them, unless a backtick
crosses them: it ends the innermost substitution, whatever is still open inside.

* `Moment.Disciplined` : a token leaves nothing that it does not end, and closes groups only if it
  is a closing parenthesis;
* `Moment.Takes.disciplined`, `Moment.Takes.not_disciplined` : a moment is disciplined unless it
  crosses something;
* `Forest.parse_brackets` : a script comes of disciplined moments, and has no open group, exactly if
  no backtick crosses anything on the way.
-/

namespace PocketShell

/-- Whether a node is anything but an open group. -/
def Tree.isShut : Tree → Bool
  | seq (.group false) _ => false
  | _ => true

/-! ## A backtick ends the innermost substitution -/

namespace Cursor

variable {t : Tree} {path rest : List Crumb} {kind kind' : Sequence} {parts parts' : List Tree}
  {token : Token} {c d : Cursor}

/-- Where `ascend` ends does not depend on what is below. -/
theorem ascend_of_ascend {α : Type} {answer : Sequence → Option α} {a : α} (t' : Tree)
    (h : ascend answer t path = some (a, kind, parts, rest)) :
    ∃ parts', ascend answer t' path = some (a, kind, parts', rest) := by
  induction path generalizing t t' with
  | nil => simp [ascend] at h
  | cons crumb path ih =>
    cases crumb with
    | join op left => exact ih _ h
    | seq k older =>
      simp only [ascend] at h ⊢
      split at h
      · simp only [Option.some.injEq, Prod.mk.injEq] at h
        obtain ⟨rfl, rfl, -, rfl⟩ := h
        exact ⟨_, rfl⟩
      · exact ih _ h

theorem length_leave (h : leave t path = .ok d) : d.path.length < path.length := by
  unfold leave at h
  split at h
  · obtain rfl := Except.ok.inj h
    exact Nat.lt_succ_self _
  · cases h

/-- After a backtick the cursor is outside the innermost substitution, if a backtick began that. -/
theorem length_backtick {quoted : Bool}
    (hup : ascend substitution t path = some (.backtick, kind', parts', rest))
    (h : backtick kind parts path quoted = .ok d) : d.path.length < rest.length := by
  obtain ⟨parts', hup⟩ := ascend_of_ascend (.seq kind parts.reverse) hup
  have hkind := (ascend_eq_some hup).1
  simp only [backtick, hup] at h
  cases kind' with
  | sub style quoted => exact length_leave h
  | script | command | group | dblQuote => cases hkind

theorem length_feedSequence
    (hup : ascend substitution t path = some (.backtick, kind', parts', rest))
    (htoken : token.kind = .backtick) (hkind : substitution kind = none)
    (h : feedSequence kind parts path token = .ok d) : d.path.length < rest.length := by
  have hlist (hlist : feedList kind parts path token =
      feedCommand false [] (.seq kind parts :: path) token)
      (h : feedList kind parts path token = .ok d) : d.path.length < rest.length := by
    obtain ⟨parts'', hup⟩ :=
      ascend_of_ascend (.seq kind (.seq (.command false) [] :: parts).reverse) hup
    have hup' : ascend substitution (.seq (.command false) []) (.seq kind parts :: path) =
        some (.backtick, kind', parts'', rest) := by
      simpa only [ascend, hkind] using hup
    rw [hlist] at h
    simp only [feedCommand, htoken] at h
    exact length_backtick hup' h
  cases kind with
  | script => exact hlist (by simp [feedList, htoken]) h
  | group closed =>
    cases closed with
    | false => exact hlist (by simp [feedList, htoken]) h
    | true =>
      simp only [feedSequence, feedClosedGroup, htoken] at h
      split at h <;> cases h
  | command target =>
    simp only [feedSequence, feedCommand, htoken] at h
    exact length_backtick hup h
  | dblQuote =>
    simp only [feedSequence, feedDblQuote, htoken] at h
    exact length_backtick hup h
  | sub => cases hkind

theorem length_feedVariable {name : String}
    (hup : ascend substitution t path = some (.backtick, kind', parts', rest))
    (htoken : token.kind = .backtick) (hvalid : ValidBelow (.leaf (.var name)) path)
    (h : feedVariable name path token = .ok d) : d.path.length < rest.length := by
  obtain ⟨kind, older, outer, rfl, hkind, -⟩ := holder_of_valid hvalid rfl (by simp)
  have hnone := substitution_of_isHolder hkind
  have hup' : ascend substitution (.seq kind (t :: older).reverse) outer =
      some (.backtick, kind', parts', rest) := by
    simpa only [ascend, hnone] using hup
  have hident : token.kind ≠ .identifier := by simp [htoken]
  simp only [feedVariable, if_neg hident, feedSequence_identifier hkind, feedFocus] at h
  split at h
  · exact length_feedSequence hup' htoken hnone h
  · exact length_feedSequence hup' htoken hnone h

end Cursor

/-! ## What a moment leaves -/

namespace Numbered

/-- The sequences that a backtick would cross, and the substitution that it would end. -/
theorem exists_split_of_crossing {es : List Entry}
    (h : Sequence.crossing (es.filterMap Prod.snd) = true) :
    ∃ below sub above, es = below ++ sub :: above ∧
      (∀ e ∈ below, e.2.bind Cursor.substitution = none) ∧
      sub.2.bind Cursor.substitution = some .backtick ∧
      ∃ e ∈ below, ∃ kind, e.2 = some kind ∧ kind.isCrossed = true := by
  simp only [Sequence.crossing, Bool.and_eq_true, decide_eq_true_eq] at h
  obtain ⟨hfound, hany⟩ := h
  rw [← List.head?_filterMap, List.filterMap_filterMap, List.head?_filterMap] at hfound
  obtain ⟨below, sub, above, rfl, hsub, hbelow⟩ := List.findSome?_eq_some_iff.1 hfound
  refine ⟨below, sub, above, rfl, hbelow, hsub, ?_⟩
  obtain ⟨kind, hkind, hstyle⟩ := Option.bind_eq_some_iff.1 hsub
  have hnone : ∀ k ∈ below.filterMap Prod.snd, (Cursor.substitution k).isNone = true := by
    intro k hk
    obtain ⟨e, he, hek⟩ := List.mem_filterMap.1 hk
    simpa [hek] using hbelow e he
  rw [List.filterMap_append, List.filterMap_cons_some hkind,
    List.takeWhile_append_of_pos hnone, List.takeWhile_cons_of_neg (by simp [hstyle]),
    List.append_nil] at hany
  obtain ⟨k, hk, hcrossed⟩ := List.any_eq_true.1 hany
  obtain ⟨e, he, hek⟩ := List.mem_filterMap.1 hk
  exact ⟨e, he, k, hek, hcrossed⟩

/-- What has an answer above a place, with none below it, is what `ascend` finds. -/
theorem ascend_of_split {α : Type} {answer : Sequence → Option α} {x : α} {crumb : Crumb}
    {crossed rest : List Crumb} (t : PocketShell.Tree)
    (hcrossed : ∀ crumb ∈ crossed, crumb.kind?.bind answer = none)
    (hanswer : crumb.kind?.bind answer = some x) :
    ∃ kind parts, Cursor.ascend answer t ((crossed ++ crumb :: rest).map Crumb.plain) =
      some (x, kind, parts, rest.map Crumb.plain) := by
  induction crossed generalizing t with
  | nil =>
    cases crumb with
    | join => cases hanswer
    | seq id kind older =>
      have hkind : answer kind = some x := hanswer
      simp [Crumb.plain, Cursor.ascend, hkind]
  | cons first crossed ih =>
    obtain ⟨hfirst, hothers⟩ := List.forall_mem_cons.1 hcrossed
    cases first with
    | join id op left => exact ih _ hothers
    | seq id kind older =>
      have hkind : answer kind = none := hfirst
      obtain ⟨kind', parts, hup⟩ := ih (.seq kind (t :: older.map Tree.plain).reverse) hothers
      refine ⟨kind', parts, ?_⟩
      simpa only [List.cons_append, List.map_cons, Crumb.plain, Cursor.ascend, hkind] using hup

end Numbered

namespace Forest

variable {f : Forest} {id : NodeId} {kind : Sequence}

theorem sequence?_eq_some {children : List NodeId} (h : f.shape id = .seq kind children) :
    f.sequence? id = some kind := by
  rw [sequence?, h]
  rfl

theorem exists_shape (h : f.sequence? id = some kind) :
    ∃ children, f.shape id = .seq kind children := by
  unfold sequence? Shape.sequence? at h
  split at h
  · obtain rfl := Option.some.inj h
    exact ⟨_, ‹_›⟩
  · cases h

end Forest

namespace Forest.Stands

open Numbered (Site spine kinds)

variable {f : Forest} {context id : NodeId} {a : Site} {c : Cursor} {e : Numbered.Entry}
  {kind : Sequence}

theorem lineage_eq (h : f.Stands context a c) : f.lineage context = (spine a).map Prod.fst := by
  obtain ⟨strays, hshows⟩ := h.shows
  rw [← h.id, lineage, hshows.ancestors_eq]
  simp [spine]

theorem nodup_spine (h : f.Stands context a c) : ((spine a).map Prod.fst).Nodup := by
  obtain ⟨strays, hshows⟩ := h.shows
  have hnodup : ((kinds a).map Prod.fst).Nodup := by
    rw [show kinds a = Numbered.kindsIn (Numbered.nodesAt a.1 a.2) from
      (Numbered.kindsIn_nodesAt a.1 a.2).symm, Numbered.kindsIn, List.map_map]
    exact hshows.holds.nodup
  exact ((Numbered.spine_sublist a).map _).nodup hnodup

theorem of_mem_kinds (h : f.Stands context a c) (he : e ∈ kinds a) :
    f.sequence? e.1 = e.2 ∧ e.1 < f.size := by
  obtain ⟨strays, hshows⟩ := h.shows
  rw [show kinds a = Numbered.kindsIn (Numbered.nodesAt a.1 a.2) from
    (Numbered.kindsIn_nodesAt a.1 a.2).symm] at he
  obtain ⟨⟨id, node⟩, hmem, rfl⟩ := List.mem_map.1 he
  refine ⟨?_, hshows.holds.lt_size (List.mem_map_of_mem hmem)⟩
  rw [sequence?, shape, hshows.holds.node hmem]

theorem mem_kinds (h : f.Stands context a c) (hkind : f.sequence? id = some kind) :
    (id, some kind) ∈ kinds a := by
  obtain ⟨strays, hshows⟩ := h.shows
  rcases hshows.holds.node_cases id with hmem | ⟨-, name, hnode⟩ | ⟨-, hnode⟩
  · rw [show kinds a = Numbered.kindsIn (Numbered.nodesAt a.1 a.2) from
      (Numbered.kindsIn_nodesAt a.1 a.2).symm]
    refine List.mem_map.2 ⟨_, hmem, ?_⟩
    rw [← hkind]
    rfl
  · simp [sequence?, shape, hnode, Shape.sequence?] at hkind
  · simp [sequence?, shape, hnode, Shape.sequence?] at hkind

/-- A backtick crosses something only for a context that has an eye for it. -/
theorem of_crosses (h : f.Stands context a c) (hcrosses : f.crosses context = true) :
    Sequence.crossing (Numbered.sequences a) = true ∧
      ((∃ kind parts, c.focus = .seq kind parts) ∨ ∃ name, c.focus = .leaf (.var name)) := by
  obtain ⟨strays, hshows⟩ := h.shows
  have hshape := hshows.shape
  rw [h.id] at hshape
  unfold crosses at hcrosses
  rw [hshape] at hcrosses
  split at hcrosses
  · cases hcrosses
  · cases hcrosses
  · rename_i hcomment hquote
    rw [← h.id, hshows.sequences_eq] at hcrosses
    refine ⟨hcrosses, ?_⟩
    obtain ⟨focus, path⟩ := c
    cases focus with
    | seq kind parts => exact .inl ⟨kind, parts, rfl⟩
    | leaf l =>
      obtain ⟨id, hleaf⟩ := Growth.leaf_of_focus h.focus
      rw [hleaf] at hcomment hquote
      rcases Cursor.leaf_of_valid h.valid with ⟨name, rfl⟩ | ⟨text, rfl⟩ | rfl
      · exact .inr ⟨name, rfl⟩
      · exact absurd rfl (hquote text)
      · exact absurd rfl hcomment

end Forest.Stands

namespace Moment

open Numbered (Site spine Leavable)

/-- The context is at a node or below it before a token, and not after it. -/
def Leaves (m : Moment) (id : NodeId) : Prop :=
  id ∈ m.before.lineage m.context ∧ id ∉ m.after.lineage m.next

/-- A token leaves nothing that it does not end, and closes groups only if it is a closing
parenthesis. -/
structure Disciplined (m : Moment) : Prop where
  left : ∀ id kind children, m.Leaves id → m.before.shape id = .seq kind children →
    kind.endsWith m.token.kind = true
  closed : ∀ id children children', m.before.shape id = .seq (.group false) children →
    m.after.shape id = .seq (.group true) children' → m.token.kind = .rparen

variable {m : Moment} {a b : Site} {c d : Cursor}

/-- What a token leaves is the lower part of the way up from the context. -/
theorem Takes.gone (h : m.Takes a b c d) :
    ∃ gone kept, spine a = gone ++ kept ∧ kept.length ≤ (spine b).length ∧
      (∀ id, m.Leaves id ↔ id ∈ gone.map Prod.fst) ∧
      ∀ e ∈ gone, Leavable m.token.kind (m.before.lapses m.context m.token.kind) e.2 := by
  obtain ⟨mid, gone, ⟨⟨kept, fresh, hbefore, hafter, hfresh⟩, hkinds, -⟩, hspine, -⟩ :=
    h.steps.left (q := fun _ => true) ⟨fun _ => rfl, fun _ _ => rfl⟩
  have hspine : (spine b).map Prod.fst = fresh.map Prod.fst ++ kept.map Prod.fst := by
    rw [hspine, hafter, List.map_append]
  refine ⟨gone, kept, hbefore, ?_, fun id => ?_, hkinds⟩
  · have := congrArg List.length hspine
    simp only [List.length_map, List.length_append] at this
    omega
  · have hnodup := h.before.nodup_spine
    rw [hbefore, List.map_append] at hnodup
    rw [Leaves, h.before.lineage_eq, h.after.lineage_eq, hspine, hbefore, List.map_append]
    constructor
    · rintro ⟨hmem, hnot⟩
      rcases List.mem_append.1 hmem with hgone | hkept
      · exact hgone
      · exact absurd (List.mem_append_right _ hkept) hnot
    · intro hgone
      refine ⟨List.mem_append_left _ hgone, fun hmem => ?_⟩
      rcases List.mem_append.1 hmem with hfr | hkept
      · -- new nodes have numbers that no node had before
        obtain ⟨e, he, rfl⟩ := List.mem_map.1 hfr
        obtain ⟨e', he', heq⟩ := List.mem_map.1 hgone
        have hold := (h.before.of_mem_kinds ((Numbered.spine_sublist a).subset
          (hbefore ▸ List.mem_append_left _ he'))).2
        exact absurd (hfresh e he) (Nat.not_le.2 (heq ▸ hold))
      · exact (List.nodup_append.1 hnodup).2.2 _ hgone _ hkept rfl

theorem Takes.disciplined (h : m.Takes a b c d)
    (hcross : ¬ (m.before.lapses m.context m.token.kind).cross) : m.Disciplined where
  left := by
    intro id kind children hleaves hshape
    obtain ⟨gone, kept, hspine, -, hgone, hkinds⟩ := h.gone
    obtain ⟨e, he, rfl⟩ := List.mem_map.1 ((hgone id).1 hleaves)
    have hmem := (Numbered.spine_sublist a).subset (hspine ▸ List.mem_append_left kept he)
    have hkind := (h.before.of_mem_kinds hmem).1.symm.trans (Forest.sequence?_eq_some hshape)
    rcases hkinds e he kind hkind with hends | ⟨-, -, hlapse⟩
    · exact hends
    · exact absurd hlapse hcross
  closed := by
    intro id children children' hbefore hafter
    have hopen := Forest.sequence?_eq_some hbefore
    have hmem := h.after.mem_kinds (Forest.sequence?_eq_some hafter)
    rcases h.steps.mem_kinds _ hmem with hnew | hold | ⟨hk, -⟩
    · have hlt := (h.before.of_mem_kinds (h.before.mem_kinds hopen)).2
      exact absurd hnew (Nat.not_le.2 hlt)
    · have hclosed := (h.before.of_mem_kinds hold).1.symm.trans hopen
      cases hclosed
    · exact hk

/-- A backtick leads out of the innermost substitution, if a backtick began that. -/
theorem Takes.length_lt {first sub : Numbered.Entry} {below above : List Numbered.Entry}
    (h : m.Takes a b c d) (hk : m.token.kind = .backtick)
    (hfocus : (∃ kind parts, c.focus = .seq kind parts) ∨ ∃ name, c.focus = .leaf (.var name))
    (hspine : spine a = first :: (below ++ sub :: above))
    (hbelow : ∀ e ∈ first :: below, e.2.bind Cursor.substitution = none)
    (hsub : sub.2.bind Cursor.substitution = some .backtick) : (spine b).length ≤ above.length := by
  obtain ⟨hfirst, hothers⟩ := List.forall_mem_cons.1 hbelow
  obtain ⟨rfl, hpath⟩ := List.cons.inj hspine
  obtain ⟨crossed, upper, hsplit, rfl, hupper⟩ := List.map_eq_append_iff.1 hpath
  obtain ⟨crumb, rest, rfl, rfl, rfl⟩ := List.map_eq_cons_iff.1 hupper
  obtain ⟨kind', parts', hup⟩ := Numbered.ascend_of_split c.focus.tree
    (fun crumb hcrumb => hothers _ (List.mem_map_of_mem hcrumb)) hsub
  rw [← hsplit, h.before.path] at hup
  have hvalid := h.before.valid
  have hfeed := h.feed
  have hfocus? := h.before.focus
  have hlt : d.path.length < (rest.map Numbered.Crumb.plain).length := by
    obtain ⟨focus, path⟩ := c
    rcases hfocus with ⟨kind, parts, rfl⟩ | ⟨name, rfl⟩
    · obtain ⟨id, parts, ht, rfl⟩ := Growth.seq_of_focus hfocus?
      rw [ht] at hfirst
      exact Cursor.length_feedSequence hup hk hfirst hfeed
    · exact Cursor.length_feedVariable hup hk hvalid hfeed
  rw [List.length_map, ← h.after.path, List.length_map] at hlt
  rw [spine, List.length_cons, List.length_map, List.length_map]
  exact hlt

theorem Takes.not_disciplined (h : m.Takes a b c d)
    (hcross : (m.before.lapses m.context m.token.kind).cross) : ¬ m.Disciplined := by
  intro hdisciplined
  obtain ⟨hk, hcrosses⟩ := hcross
  obtain ⟨hcrossing, hfocus⟩ := h.before.of_crosses hcrosses
  obtain ⟨below, sub, above, hspine, hbelow, hsub, e, he, kind, hkind, hcrossed⟩ :=
    Numbered.exists_split_of_crossing hcrossing
  have hle : (spine b).length ≤ above.length := by
    cases below with
    | nil => cases he
    | cons first below => exact h.length_lt hk hfocus hspine hbelow hsub
  obtain ⟨gone, kept, hsplit, hkept, hgone, -⟩ := h.gone
  -- too little is kept for anything below the substitution to be among it
  have hsub : below <+: gone := by
    refine List.prefix_of_prefix_length_le ⟨_, hspine.symm⟩ ⟨_, hsplit.symm⟩ ?_
    have hlength := congrArg List.length (hspine.symm.trans hsplit)
    simp only [List.length_append, List.length_cons] at hlength
    omega
  have hmem := (Numbered.spine_sublist a).subset (hspine ▸ List.mem_append_left _ he)
  obtain ⟨children, hshape⟩ := Forest.exists_shape ((h.before.of_mem_kinds hmem).1.trans hkind)
  have hends := hdisciplined.left e.1 kind children
    ((hgone e.1).2 (List.mem_map_of_mem (hsub.subset he))) hshape
  rw [hk] at hends
  rcases kind with _ | _ | (_ | _) | _ | _ <;> simp_all [Sequence.isCrossed, Sequence.endsWith]

end Moment

/-! ## Whole scripts -/

namespace Cursor

theorem isShut_seq {kind : Sequence} (h : (Tree.Label.seq kind).isOpen = false)
    (body : List Tree) : (Tree.seq kind body).isShut = true := by
  unfold Tree.isShut
  split
  · rename_i heq
    cases heq
    cases h
  · rfl

theorem along_of_labels {t : Tree} {path : List Crumb} (ht : t.isShut = true)
    (hpath : ∀ crumb ∈ path, crumb.label.isOpen = false) : Along Tree.isShut t path := by
  induction path generalizing t with
  | nil => exact ht
  | cons crumb path ih =>
    obtain ⟨hcrumb, hpath⟩ := List.forall_mem_cons.1 hpath
    refine ⟨ht, ih ?_ hpath⟩
    cases crumb with
    | join => rfl
    | seq kind older => exact isShut_seq hcrumb _

/-- Where a script may end there is no open group on the way up. -/
theorem along_isShut {c : Cursor} (h : c.isComplete = true) :
    Along Tree.isShut c.focus.tree c.path := by
  rw [isComplete, Bool.and_eq_true, Bool.not_eq_true', List.any_cons, Bool.or_eq_false_iff] at h
  obtain ⟨⟨hfocus, hpath⟩, -⟩ := h
  refine along_of_labels ?_ fun crumb hcrumb => ?_
  · cases hf : c.focus with
    | leaf => rfl
    | seq kind parts =>
      rw [hf] at hfocus
      exact isShut_seq hfocus _
  · simpa using List.any_eq_false.1 hpath crumb.label (List.mem_map_of_mem hcrumb)

end Cursor

namespace Forest

variable {s : Source} {f : Forest}

/-- A token that crosses nothing leaves no open group behind. -/
theorem fair_isShut {k : TokenKind} {w : Numbered.Lapses} (hcross : ¬ w.cross) :
    Numbered.Fair k w Tree.isShut where
  leaf := fun _ => rfl
  leave := by
    intro t ht
    cases t with
    | leaf | join => simp [Numbered.Tree.plain, Tree.isShut]
    | seq id kind parts =>
      rcases kind with _ | _ | (_ | _) | _ | _
      case group.false =>
        rcases ht.kind (.group false) rfl with hends | ⟨-, -, hlapse⟩
        · cases hends
        · exact absurd hlapse hcross
      all_goals simp [Numbered.Tree.plain, Tree.isShut]

/-- In a script every group is closed, and all brackets were left with the tokens that end them,
exactly if no backtick crossed any. -/
theorem parse_brackets (h : parse s = .ok f) :
    ((∀ t ∈ f.statements, t.everywhere Tree.isShut = true) ∧ ∀ m ∈ moments s, m.Disciplined) ↔
      ∀ m ∈ moments s, m.token.kind = .backtick → m.before.crosses m.context = false := by
  obtain ⟨last, a, c, hrun, hstands, hcomplete⟩ := exists_run_of_parse h
  constructor
  · rintro ⟨-, hdisciplined⟩ m hm hk
    obtain ⟨a, b, c, d, htakes⟩ := hrun.takes.1 m hm
    by_contra hcrosses
    exact htakes.not_disciplined ⟨hk, by simpa using hcrosses⟩ (hdisciplined m hm)
  · intro hnone
    have hcross (m : Moment) (hm : m ∈ moments s) :
        ¬ (m.before.lapses m.context m.token.kind).cross := by
      rintro ⟨hk, hcrosses⟩
      simp [hnone m hm hk] at hcrosses
    refine ⟨(hstands.everywhere_statements fun _ => rfl).2 ⟨?_, ?_⟩, fun m hm => ?_⟩
    · exact hrun.settled (fun m hm => fair_isShut (hcross m hm)) hstands
    · exact Cursor.along_isShut hcomplete
    · obtain ⟨a, b, c, d, htakes⟩ := hrun.takes.1 m hm
      exact htakes.disciplined (hcross m hm)

/-- A command with an open group in a substitution that has ended. -/
def openGroup (part : Tree) : Tree :=
  .seq (.command false) [.seq (.sub .backtick false) [.seq (.command false)
    [.seq (.group false) [.seq (.command false) [part]]]]]

theorem everywhere_openGroup (part : Tree) : (openGroup part).everywhere Tree.isShut = false := by
  simp [openGroup, Tree.everywhere, Tree.everywhereAll, Tree.isShut]

/-- A backtick crosses double quotes and a group. -/
theorem parse_brackets_crossing : ∃ f, parse (Source.ofText "`(\"a`") = .ok f ∧
    ∃ m ∈ moments (Source.ofText "`(\"a`"),
      m.token.kind = .backtick ∧ m.before.crosses m.context = true := by
  have hparses : Cursor.start.Parses ⟨{}, "`(\"a`".toList⟩
      (.ok ⟨.seq (.command false) [.seq (.sub .backtick false) [.seq (.command false)
        [.seq (.group false) [.seq (.command false) [.seq .dblQuote [.leaf (.ident "a")]]]]]],
        [.seq .script []]⟩) :=
    .step rfl rfl (.step rfl rfl (.step rfl rfl (.step rfl rfl (.step rfl rfl (.ended rfl rfl)))))
  obtain ⟨-, f, hf, hbody⟩ := parse_of_parses hparses
  have hbody : f.statements = [openGroup (.seq .dblQuote [.leaf (.ident "a")])] := hbody
  refine ⟨f, hf, ?_⟩
  by_contra hnone
  obtain ⟨hshut, -⟩ := (parse_brackets hf).2 fun m hm hk => by
    cases hcrosses : m.before.crosses m.context with
    | false => rfl
    | true => exact absurd ⟨m, hm, hk, hcrosses⟩ hnone
  rw [hbody] at hshut
  have hgroup := hshut _ List.mem_cons_self
  rw [everywhere_openGroup] at hgroup
  cases hgroup

/-- A script with an open group: the backtick ends the substitution all the same. -/
theorem parse_openGroup : ∃ f, parse (Source.ofText "`(a`") = .ok f ∧
    f.statements = [openGroup (.leaf (.ident "a"))] ∧
    ¬ ∀ t ∈ f.statements, t.everywhere Tree.isShut = true := by
  have hparses : Cursor.start.Parses ⟨{}, "`(a`".toList⟩
      (.ok ⟨.seq (.command false) [.seq (.sub .backtick false) [.seq (.command false)
        [.seq (.group false) [.seq (.command false) [.leaf (.ident "a")]]]]], [.seq .script []]⟩) :=
    .step rfl rfl (.step rfl rfl (.step rfl rfl (.step rfl rfl (.ended rfl rfl))))
  obtain ⟨-, f, hf, hbody⟩ := parse_of_parses hparses
  have hbody : f.statements = [openGroup (.leaf (.ident "a"))] := hbody
  refine ⟨f, hf, hbody, fun hshut => ?_⟩
  rw [hbody] at hshut
  have hgroup := hshut _ List.mem_cons_self
  rw [everywhere_openGroup] at hgroup
  cases hgroup

end Forest

end PocketShell
