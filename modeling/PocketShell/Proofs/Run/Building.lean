import PocketShell.Proofs.Run.Waiting
import PocketShell.Run.Meaning

/-!
# What scripts are built from

The job of every part of a script is put together in a few ways. What is kept by all of them holds of
the jobs of all scripts.

* `Tree.Builds` : the ways to put jobs together, each of which keeps `P`. What is known of the streams
  of files and buffers is `S`;
* `Tree.builds_job`, `Tree.builds_statements` : then `P` holds of the job of a part of a script and of
  statements, if it holds of what follows;
* `Tree.builds_starts` : every part of a script can begin on any standard input that nobody waits for,
  and from there on it agrees with its input about who waits.
-/

namespace PocketShell.Tree

/-- A property of jobs that is kept wherever jobs are put together. -/
structure Builds (cancellable : Bool) (S : Stream → Prop) (P : Job → Prop) : Prop where
  exit : ∀ status, P (.exit status)
  emit : ∀ text k, P k → P (.emit text k)
  lookup : ∀ name k, (∀ text, P (k text)) → P (.lookup name k)
  openFile : ∀ name overwrite k, (∀ file : OpenFile, S file.stream → P (k file)) →
    P (.openFile name overwrite k)
  exec : ∀ argv k, (∀ status, P (k status)) → P (.exec cancellable argv k)
  pipe : ∀ left right k, P left → P right → (∀ status, P (k status)) →
    P (.pipe .left (privateStream cancellable) left right k)
  /-- Output that is kept in a buffer. -/
  buffered : ∀ inner k, P inner → (∀ frame status, S frame.stream → P (k frame status)) →
    P (buffered cancellable inner k)
  /-- Output that goes to a file. -/
  diverted : ∀ (file : OpenFile) inner k, S file.stream → P inner →
    (∀ frame status, P (k frame status)) → P (.within (.output (.file file)) inner k)
  /-- Input that is there at once. -/
  fed : ∀ source inner (k : Int → Job), S source → P inner → (∀ status, P (k status)) →
    P (.within (.input source.shut) inner fun _ status => k status)

section

variable {cancellable : Bool} {S : Stream → Prop} {P : Job → Prop}

theorem builds_redirected (h : Builds cancellable S P) {overwrite : Bool} {target : Job}
    {k : Int → Job} {use : OpenFile → Job} (htarget : P target) (hk : ∀ status, P (k status))
    (huse : ∀ file : OpenFile, S file.stream → P (use file)) :
    P (redirected cancellable overwrite target k use) := by
  refine h.buffered _ _ htarget fun frame _ _ => ?_
  dsimp only
  split
  · exact hk _
  · exact h.openFile _ _ _ huse

theorem builds_expandVar (h : Builds cancellable S P) (name : String) {k : String → Job}
    (hk : ∀ text, P (k text)) : P (expandVar name k) := by
  unfold expandVar
  split
  · exact hk _
  · exact h.lookup _ _ hk

mutual

theorem builds_job (h : Builds cancellable S P) (t : Tree) (k : Int → Job)
    (hk : ∀ status, P (k status)) : P (t.job cancellable k) := by
  cases t with
  | seq kind body =>
    cases kind with
    | script => exact builds_statements h body 0 k hk
    | group closed => exact builds_statements h body 0 k hk
    | command target =>
      cases target with
      | false =>
        rw [job]
        cases hgroup : firstGroup? cancellable body k with
        | some group => exact builds_firstGroup h body k hk group hgroup
        | none =>
          refine builds_segments h body _ fun parts status => ?_
          split
          · exact hk _
          · exact h.exec _ _ hk
      | true => exact builds_segments h body _ fun parts _ => h.emit _ _ (hk 0)
    | dblQuote => exact builds_expandAll h body _ fun text => h.emit _ _ (hk 0)
    | sub style quoted =>
      exact h.buffered _ _ (builds_statements h body 0 .exit h.exit) fun frame status _ =>
        h.emit _ _ (hk status)
  | join op left right =>
    have hleft := builds_job h left .exit h.exit
    have hright := builds_job h right .exit h.exit
    cases op with
    | pipe => exact h.pipe _ _ _ hleft hright hk
    | and
    | or =>
      refine builds_job h left _ fun status => ?_
      split
      · exact builds_job h right k hk
      · exact hk status
    | write
    | append =>
      exact builds_redirected h hright hk fun file hfile =>
        h.diverted _ _ _ hfile hleft fun frame status => hk _
    | read => exact builds_redirected h hright hk fun file hfile => h.fed _ _ _ hfile hleft hk
    | readStr => exact h.buffered _ _ hright fun frame _ hframe => h.fed _ _ _ hframe hleft hk
  | dangling op left => exact hk 1
  | leaf l =>
    cases l with
    | ident text => exact h.emit _ _ (hk 0)
    | whitespace text => exact h.emit _ _ (hk 0)
    | quote text => exact h.emit _ _ (hk 0)
    | var name => exact builds_expandVar h name fun text => h.emit _ _ (hk 0)
    | comment => exact hk 0

theorem builds_statements (h : Builds cancellable S P) (ts : List Tree) (status : Int)
    (k : Int → Job) (hk : ∀ status, P (k status)) : P (statements cancellable ts status k) := by
  cases ts with
  | nil => exact hk status
  | cons t ts => exact builds_job h t _ fun status => builds_statements h ts status k hk

theorem builds_firstGroup (h : Builds cancellable S P) (ts : List Tree) (k : Int → Job)
    (hk : ∀ status, P (k status)) (group : Job)
    (hgroup : firstGroup? cancellable ts k = some group) : P group := by
  cases ts with
  | nil => cases hgroup
  | cons t ts =>
    have hrest := builds_firstGroup h ts k hk group
    cases t with
    | seq kind body =>
      cases kind with
      | group closed =>
        cases hgroup
        exact builds_statements h body 0 k hk
      | script => exact hrest hgroup
      | command target => exact hrest hgroup
      | dblQuote => exact hrest hgroup
      | sub style quoted => exact hrest hgroup
    | join op left right => exact hrest hgroup
    | dangling op left => exact hrest hgroup
    | leaf l => exact hrest hgroup

theorem builds_segments (h : Builds cancellable S P) (ts : List Tree)
    (k : List Segment → Option Int → Job) (hk : ∀ parts status, P (k parts status)) :
    P (segments cancellable ts k) := by
  cases ts with
  | nil => exact hk [] none
  | cons t ts =>
    have hpart (part : Segment) :
        P (segments cancellable ts fun parts status => k (part :: parts) status) :=
      builds_segments h ts _ fun parts status => hk _ status
    cases t with
    | seq kind body =>
      cases kind with
      | dblQuote => exact builds_expandAll h body _ fun text => hpart (.literal text)
      | sub style quoted =>
        exact h.buffered _ _ (builds_statements h body 0 .exit h.exit) fun frame status _ =>
          builds_segments h ts _ fun parts later => hk _ _
      | script => exact builds_segments h ts k hk
      | command target => exact builds_segments h ts k hk
      | group closed => exact builds_segments h ts k hk
    | join op left right => exact builds_segments h ts k hk
    | dangling op left => exact builds_segments h ts k hk
    | leaf l =>
      cases l with
      | ident text => exact hpart (.literal text)
      | whitespace text => exact hpart .gap
      | quote text => exact hpart (.literal text)
      | var name => exact builds_expandVar h name fun text => hpart (.expansion text)
      | comment => exact hpart .gap

theorem builds_expand (h : Builds cancellable S P) (t : Tree) (k : String → Job)
    (hk : ∀ text, P (k text)) : P (expand cancellable t k) := by
  cases t with
  | seq kind body =>
    cases kind with
    | dblQuote => exact builds_expandAll h body k hk
    | sub style quoted =>
      exact h.buffered _ _ (builds_statements h body 0 .exit h.exit) fun frame _ _ => hk _
    | script => exact hk ""
    | command target => exact hk ""
    | group closed => exact hk ""
  | join op left right => exact hk ""
  | dangling op left => exact hk ""
  | leaf l =>
    cases l with
    | ident text => exact hk text
    | whitespace text => exact hk text
    | quote text => exact hk text
    | var name => exact builds_expandVar h name hk
    | comment => exact hk ""

theorem builds_expandAll (h : Builds cancellable S P) (ts : List Tree) (k : String → Job)
    (hk : ∀ text, P (k text)) : P (expandAll cancellable ts k) := by
  cases ts with
  | nil => exact hk ""
  | cons t ts =>
    exact builds_expand h t _ fun text => builds_expandAll h ts _ fun rest => hk (text ++ rest)

end

end

/-! ## Where nobody waits

The streams that a part of a script makes for itself are new, those that it reads to their end are
closed, and files come without a reader. -/

open Job (Starts)

variable {cancellable : Bool} {k : Int → Job}

theorem starts_buffered {inner : Job} {k : Frame → Int → Job} (hinner : inner.Starts)
    (hk : ∀ frame status, frame.stream.Awaited none → (k frame status).Starts) :
    (buffered cancellable inner k).Starts :=
  fun s hs => ⟨.of_fresh rfl rfl, hinner s hs, fun frame status s hframe hs =>
    hk frame status hframe s hs⟩

theorem starts_diverted {file : OpenFile} {inner : Job} {k : Frame → Int → Job}
    (hfile : file.stream.Awaited none) (hinner : inner.Starts)
    (hk : ∀ frame status, (k frame status).Starts) :
    (Job.within (.output (.file file)) inner k).Starts :=
  fun s hs => ⟨hfile, hinner s hs, fun frame status s _ hs => hk frame status s hs⟩

theorem starts_fed {source : Stream} {inner : Job} (hsource : source.Awaited none)
    (hinner : inner.Starts) (hk : ∀ status, (k status).Starts) :
    (Job.within (.input source.shut) inner fun _ status => k status).Starts :=
  fun _ hs => ⟨⟨hs, source.closed_shut⟩, hinner _ hsource.shut, fun _ status s _ hs =>
    hk status s hs⟩

/-- Every part of a script can begin where nobody waits. -/
theorem builds_starts (cancellable : Bool) :
    Builds cancellable (fun s => s.Awaited none) Starts where
  exit _ := fun _ hs => hs
  emit _ _ hk := hk
  lookup _ _ hk := fun s hs text => hk text s hs
  openFile _ _ _ hk := fun s hs file hfile => hk file hfile s hs
  exec _ _ hk := fun _ hs => ⟨hs, hk⟩
  pipe _ _ _ hleft hright hk := fun s hs => ⟨hleft s hs, hright _ (.of_fresh rfl rfl), hk⟩
  buffered _ _ hinner hk := starts_buffered hinner hk
  diverted _ _ _ hfile hinner hk := starts_diverted hfile hinner hk
  fed _ _ _ hsource hinner hk := starts_fed hsource hinner hk

end PocketShell.Tree
