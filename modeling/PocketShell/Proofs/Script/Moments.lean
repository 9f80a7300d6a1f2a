import PocketShell.Proofs.Script.Leaving

/-!
# The tokens of a parse, one by one

* `Forest.moments` : each token that parsing a source feeds, with the forest and the context before
  and after it;
* `Forest.Run` : the moments follow upon each other (`Forest.run_of_parseFrom`). What each of them
  keeps holds to the end (`Run.forward`), and what none of them brings about held before
  (`Run.backward`);
* `Forest.Stands` : the place of the context, of which there is one (`Stands.unique`);
* `Moment.Takes` : each moment takes the context from place to place (`Run.takes`);
* `Run.settled`, `Run.settled_of_mem` : tests of the nodes beside the path, along a run.
-/

namespace PocketShell

/-- One token of a parse. -/
structure Moment where
  before : Forest
  context : NodeId
  token : Token
  after : Forest
  next : NodeId

namespace Forest

/-! ## Runs -/

/-- The tokens that `parseFrom` feeds. -/
def momentsFrom (f : Forest) (context : NodeId) (s : Source) : List Moment :=
  match _hn : f.nextToken context s with
  | (_, .error _) => []
  | (s', .ok token) =>
    match f.feed context token with
    | (_, .error _) => []
    | (f', .ok next) => ⟨f, context, token, f', next⟩ :: momentsFrom f' next s'
termination_by s.size
decreasing_by exact size_nextToken _hn

/-- The tokens that `parse` feeds. -/
def moments (s : Source) : List Moment := momentsFrom {} root s

/-- Moments that follow upon each other. -/
inductive Run : Forest → NodeId → List Moment → Forest → NodeId → Prop where
  | nil (f : Forest) (context : NodeId) : Run f context [] f context
  | cons {m : Moment} {ms : List Moment} {g : Forest} {last : NodeId}
    (hfeed : m.before.feed m.context m.token = (m.after, .ok m.next))
    (h : Run m.after m.next ms g last) : Run m.before m.context (m :: ms) g last

variable {f f' g : Forest} {context next last : NodeId} {s s' : Source} {token : Token}
  {ms : List Moment} {m : Moment} {P : Forest → NodeId → Prop}

theorem momentsFrom_step (hnext : f.nextToken context s = (s', .ok token))
    (hfeed : f.feed context token = (f', .ok next)) :
    f.momentsFrom context s = ⟨f, context, token, f', next⟩ :: f'.momentsFrom next s' := by
  rw [momentsFrom]
  split
  · simp_all
  · rename_i heq
    rw [hnext, Prod.mk.injEq, Except.ok.injEq] at heq
    obtain ⟨rfl, rfl⟩ := heq
    split <;> simp_all

theorem momentsFrom_halt {halt : Halt} (hnext : f.nextToken context s = (s', .error halt)) :
    f.momentsFrom context s = [] := by
  rw [momentsFrom]
  split
  · rfl
  · simp_all

/-- The moments of a parse lead to its script. -/
theorem run_of_parseFrom (h : (f.parseFrom context s).2 = .ok g) :
    ∃ last, Run f context (f.momentsFrom context s) g last ∧ g.checkComplete last = .ok () := by
  induction hsize : s.size using Nat.strongRecOn generalizing f context s with
  | ind n ih =>
    subst hsize
    rw [parseFrom] at h
    split at h
    · cases h
    · rename_i s' cause hnext
      rw [momentsFrom_halt hnext]
      split at h
      · split at h
        · rename_i hcheck
          cases h
          exact ⟨context, .nil _ context, hcheck⟩
        · cases h
      · cases h
    · rename_i s' token hnext
      split at h
      · rename_i f' next hfeed
        obtain ⟨last, hrun, hcheck⟩ := ih s'.size (size_nextToken hnext) h rfl
        rw [momentsFrom_step hnext hfeed]
        exact ⟨last, .cons (m := ⟨f, context, token, f', next⟩) hfeed hrun, hcheck⟩
      · cases h

theorem Run.feed_of_mem (h : Run f context ms g last) (hm : m ∈ ms) :
    m.before.feed m.context m.token = (m.after, .ok m.next) := by
  induction h with
  | nil => cases hm
  | cons hfeed _ ih =>
    rcases List.mem_cons.1 hm with rfl | hm
    · exact hfeed
    · exact ih hm

/-- What every moment keeps holds all the time. -/
theorem Run.forward (h : Run f context ms g last) (hP : P f context)
    (hstep : ∀ m ∈ ms, P m.before m.context → P m.after m.next) :
    (∀ m ∈ ms, P m.before m.context) ∧ P g last := by
  induction h with
  | nil => exact ⟨by simp, hP⟩
  | @cons m ms g last hfeed h ih =>
    obtain ⟨hm, hms⟩ := List.forall_mem_cons.1 hstep
    obtain ⟨hall, hlast⟩ := ih (hm hP) hms
    exact ⟨List.forall_mem_cons.2 ⟨hP, hall⟩, hlast⟩

/-- What holds at the end, and what no moment brings about, held all the time. -/
theorem Run.backward (h : Run f context ms g last) (hP : P g last)
    (hstep : ∀ m ∈ ms, P m.after m.next → P m.before m.context) :
    (∀ m ∈ ms, P m.after m.next) ∧ P f context := by
  induction h with
  | nil => exact ⟨by simp, hP⟩
  | @cons m ms g last hfeed h ih =>
    obtain ⟨hm, hms⟩ := List.forall_mem_cons.1 hstep
    obtain ⟨hall, hnext⟩ := ih hP hms
    exact ⟨List.forall_mem_cons.2 ⟨hnext, hall⟩, hm hnext⟩

/-! ## Places -/

open Numbered (Site Steps)

variable {t t' : Numbered.Tree} {path path' : List Numbered.Crumb} {strays strays' : List NodeId}
  {a b : Site} {c d : Cursor}

/-- A table has one tree below a node. -/
theorem HasTree.unique {p p' : Option NodeId} (h : f.HasTree p t) (h' : f.HasTree p' t')
    (hid : t.id = t'.id) : t = t' := by
  have hshape : t.shape = t'.shape := by rw [← h.shape, ← h'.shape, hid]
  induction t using Numbered.Tree.induct generalizing p p' t' with
  | leaf id l =>
    cases t' with
    | leaf id' l' =>
      obtain rfl : id = id' := hid
      obtain rfl : l = l' := Shape.leaf.inj hshape
      rfl
    | seq | join => cases hshape
  | join id op left right ihl ihr =>
    cases t' with
    | join id' op' left' right' =>
      obtain rfl : id = id' := hid
      obtain ⟨rfl, hleft, hright⟩ := Shape.join.inj hshape
      rw [ihl h.left h'.left hleft ?_, ihr h.right h'.right (Option.some.inj hright) ?_]
      · rw [← h.right.shape, ← h'.right.shape, Option.some.inj hright]
      · rw [← h.left.shape, ← h'.left.shape, hleft]
    | seq | leaf => cases hshape
  | seq id kind parts ih =>
    cases t' with
    | seq id' kind' parts' =>
      obtain rfl : id = id' := hid
      obtain ⟨rfl, hparts⟩ := Shape.seq.inj hshape
      have hlength : parts.length = parts'.length := by simpa using congrArg List.length hparts
      obtain rfl : parts = parts' := by
        refine List.ext_getElem hlength fun i hi hi' => ?_
        have hid : parts[i].id = parts'[i].id := by
          simpa [hi, hi'] using congrArg (·[i]?) hparts
        have hpart := h.part _ (List.getElem_mem hi)
        have hpart' := h'.part _ (List.getElem_mem hi')
        exact ih _ (List.getElem_mem hi) hpart hpart' hid
          (by rw [← hpart.shape, ← hpart'.shape, hid])
      rfl
    | leaf | join => cases hshape

/-- A forest shows one place with a node. -/
theorem Shows.unique (h : f.Shows strays t path) (h' : f.Shows strays' t' path')
    (hid : t.id = t'.id) : t = t' ∧ path = path' := by
  induction path generalizing t t' path' with
  | nil =>
    have habove : Numbered.above path' = none := by rw [← h'.parent?, ← hid, h.parent?]; rfl
    cases path' with
    | nil => exact ⟨h.hasTree.unique h'.hasTree hid, rfl⟩
    | cons => cases habove
  | cons crumb path ih =>
    have habove : Numbered.above path' = some crumb.id := by
      rw [← h'.parent?, ← hid, h.parent?]
      rfl
    cases path' with
    | nil => cases habove
    | cons crumb' path' =>
      have hcrumb : crumb'.id = crumb.id := Option.some.inj habove
      obtain ⟨hfill, rfl⟩ := ih (shows_fill.2 h) (shows_fill.2 h') (by simp [hcrumb])
      obtain rfl := h.hasTree.unique h'.hasTree hid
      cases crumb <;> cases crumb' <;> simp_all [Numbered.Crumb.fill]

/-- A forest shows this place with the context, as a valid cursor sees it. -/
structure Stands (f : Forest) (context : NodeId) (a : Site) (c : Cursor) : Prop where
  shows : ∃ strays, f.Shows strays a.1 a.2
  id : a.1.id = context
  focus : a.1.focus? = some c.focus
  path : a.2.map Numbered.Crumb.plain = c.path
  valid : c.Valid

theorem stands_start : ({} : Forest).Stands root (.seq root .script [], []) Cursor.start :=
  ⟨⟨[], shows_start⟩, rfl, rfl, rfl, Cursor.valid_start⟩

theorem Stands.at_cursor (h : f.Stands context a c) : ∃ strays, f.At strays context c := by
  obtain ⟨strays, hshows⟩ := h.shows
  exact ⟨strays, a.1, a.2, hshows, h.id, h.focus, h.path⟩

theorem Stands.unique (h : f.Stands context a c) (h' : f.Stands context b d) : a = b := by
  obtain ⟨strays, hshows⟩ := h.shows
  obtain ⟨strays', hshows'⟩ := h'.shows
  obtain ⟨ht, hpath⟩ := hshows.unique hshows' (h.id.trans h'.id.symm)
  exact Prod.ext ht hpath

/-- A token takes the context from place to place. -/
theorem Stands.step (h : f.Stands context a c) (hfeed : f.feed context token = (f', .ok next)) :
    ∃ b d, f'.Stands next b d ∧ c.feed token = .ok d ∧
      Steps f.size token.kind (f.lapses context token.kind) a b := by
  obtain ⟨strays, hat⟩ := h.at_cursor
  obtain ⟨d, hd, hvalid, t, path, hshows, hid, hfocus, hpath⟩ := hat.step h.valid hfeed
  obtain ⟨strays', hshows'⟩ := h.shows
  have hon : Growth.on (Growth.feed context token) f = (.ok next, f') := by
    obtain ⟨hafter, hresult⟩ := Prod.mk.inj hfeed
    exact Prod.ext hresult hafter
  have hvalid' : Cursor.ValidBelow c.focus.label (a.2.map Numbered.Crumb.plain) := by
    rw [h.path]
    exact h.valid
  have hyields := Growth.yields_feed token (hshows'.mono (List.subset_cons_self a.1.id strays'))
    h.focus hvalid' List.mem_cons_self
  rw [h.id] at hyields
  obtain ⟨b, hb, hbid, hsteps⟩ := hyields next f' hon
  obtain ⟨rfl, rfl⟩ := hb.unique hshows (hbid.trans hid.symm)
  exact ⟨b, d, ⟨⟨_, hb⟩, hbid, hfocus, hpath, hvalid⟩, hd, hsteps⟩

end Forest

open Numbered (Site Steps Fair)

/-- A moment takes the context from one place to another. -/
structure Moment.Takes (m : Moment) (a b : Site) (c d : Cursor) : Prop where
  before : m.before.Stands m.context a c
  after : m.after.Stands m.next b d
  feed : c.feed m.token = .ok d
  steps : Steps m.before.size m.token.kind (m.before.lapses m.context m.token.kind) a b

namespace Forest

variable {f g : Forest} {context last : NodeId} {s : Source} {ms : List Moment} {m : Moment}
  {a b : Site} {c d : Cursor} {q : Tree → Bool}

theorem Run.takes (h : Run {} root ms g last) :
    (∀ m ∈ ms, ∃ a b c d, m.Takes a b c d) ∧ ∃ a c, g.Stands last a c := by
  have hstep (m : Moment) (hm : m ∈ ms) (hstands : ∃ a c, m.before.Stands m.context a c) :
      ∃ a b c d, m.Takes a b c d := by
    obtain ⟨a, c, hstands⟩ := hstands
    obtain ⟨b, d, hafter, hd, hsteps⟩ := hstands.step (h.feed_of_mem hm)
    exact ⟨a, b, c, d, hstands, hafter, hd, hsteps⟩
  obtain ⟨hall, hlast⟩ := h.forward (P := fun f context => ∃ a c, f.Stands context a c)
    ⟨_, _, stands_start⟩ fun m hm hstands => by
      obtain ⟨a, b, c, d, htakes⟩ := hstep m hm hstands
      exact ⟨b, d, htakes.after⟩
  exact ⟨fun m hm => hstep m hm (hall m hm), hlast⟩

/-! ## Tests along a run -/

/-- A test that every moment is fair to holds beside the path all the time. -/
theorem Run.settled (h : Run {} root ms g last)
    (hq : ∀ m ∈ ms, Fair m.token.kind (m.before.lapses m.context m.token.kind) q)
    (hstands : g.Stands last a c) : Numbered.Settled q a := by
  refine (h.forward
    (P := fun f context => ∀ a c, f.Stands context a c → Numbered.Settled q a) ?_ ?_).2 a c hstands
  · intro a c hstands
    obtain rfl := hstands.unique stands_start
    exact ⟨Numbered.inside_of_inner (by simp [Numbered.Tree.inner]), by simp⟩
  · intro m hm hbefore b d hafter
    obtain ⟨a, b', c, d', htakes⟩ := h.takes.1 m hm
    obtain rfl := hafter.unique htakes.after
    obtain ⟨mid, gone, hleft, -, hsettled⟩ := htakes.steps.left (hq m hm)
    exact hsettled.2 (hleft.settled (hbefore a c htakes.before))

/-- A test that holds beside the path at the end did so all the time. -/
theorem Run.settled_of_mem (h : Run {} root ms g last) (hstands : g.Stands last a c)
    (ha : Numbered.Settled q a) (hm : m ∈ ms) (hafter : m.after.Stands m.next b d) :
    Numbered.Settled q b := by
  refine (h.backward
    (P := fun f context => ∀ a c, f.Stands context a c → Numbered.Settled q a) ?_ ?_).1
    m hm b d hafter
  · intro a' c' hstands'
    rwa [hstands'.unique hstands]
  · intro m hm hafter a c hbefore
    obtain ⟨a', b, c', d, htakes⟩ := h.takes.1 m hm
    obtain rfl := hbefore.unique htakes.before
    exact htakes.steps.settled_before (hafter b d htakes.after)

/-- The statements of a script pass a test if all beside the path to the context does, and all on
it. -/
theorem Stands.everywhere_statements (h : f.Stands context a c)
    (hq : ∀ body, q (.seq .script body) = true) :
    (∀ t ∈ f.statements, t.everywhere q = true) ↔
      Numbered.Settled q a ∧ Cursor.Along q c.focus.tree c.path := by
  obtain ⟨strays, hat⟩ := h.at_cursor
  have htree : Cursor.plug c.focus.tree c.path = .seq .script c.statements :=
    Cursor.tree_of_valid h.valid
  rw [hat.statements_eq h.valid, Numbered.Settled, plain_of_focus h.focus, h.path,
    ← Cursor.everywhere_plug, htree, Tree.everywhere_eq, hq, Bool.true_and, Tree.inside,
    List.all_eq_true]

/-- A parse is a run to a place where a script may end. -/
theorem exists_run_of_parse (h : parse s = .ok g) :
    ∃ last a c, Run {} root (moments s) g last ∧ g.Stands last a c ∧ c.isComplete = true := by
  obtain ⟨last, hrun, hcheck⟩ := run_of_parseFrom h
  obtain ⟨a, c, hstands⟩ := hrun.takes.2
  refine ⟨last, a, c, hrun, hstands, ?_⟩
  obtain ⟨strays, hat⟩ := hstands.at_cursor
  rw [checkComplete_eq hat hstands.valid] at hcheck
  split at hcheck
  · assumption
  · cases hcheck

end Forest

end PocketShell
