import PocketShell.Proofs.Sequential.Programs

/-!
# The cancellation of a run

Nothing that a shell runs cancels the run, so a run that was not cancelled when it began is not
cancelled at any of its steps.

* `Sequential.Keeps` : an action on states leaves the cancellation as it is. This is closed under
  all ways to put actions together;
* `Sequential.keeps_evalAll` : statements keep it.
-/

namespace PocketShell.Sequential

variable {α β : Type} {host : Host} {dest : Option String}

/-- An action that leaves the cancellation as it is. -/
def Keeps (act : State → State × α) : Prop :=
  ∀ s, (act s).1.cancellation = s.cancellation

theorem cancellation_write (dest : Option String) (s : State) (text : String) :
    (s.write dest text).cancellation = s.cancellation := by
  cases dest <;> rfl

theorem cancellation_writeSome (dest : Option String) (s : State) (text : Option String) :
    (s.writeSome dest text).cancellation = s.cancellation := by
  cases text with
  | none => rfl
  | some text => exact cancellation_write dest s text

theorem cancellation_read (s : State) (want : Want) :
    (s.read want).1.cancellation = s.cancellation := by
  unfold State.read
  split <;> rfl

theorem cancellation_openFile (overwrite : Bool) (key : String) (s : State) :
    (s.openFile overwrite key).cancellation = s.cancellation := by
  unfold State.openFile
  split <;> rfl

/-- A command that does not cancel the run. -/
theorem keeps_perform {p : Program α} (hp : p.Calm) (dest : Option String) :
    Keeps (perform dest p) := by
  intro s
  induction p generalizing s with
  | done a => rfl
  | write text k ih => exact (ih true (hp true) _).trans (cancellation_write dest s text)
  | complain text k ih => exact ih true (hp true) _
  | read want k ih => exact (ih _ (hp _) _).trans (cancellation_read s want)
  | relay render seen k ih =>
    rw [perform]
    split
    · exact ih _ _ (hp _ _) _
    · exact (ih _ _ (hp _ _) _).trans (cancellation_writeSome dest _ _)
  | file name k ih => exact ih _ (hp _) _
  | save name text k ih => exact ih () hp _
  | pause k => exact hp.elim
  | cancel k => exact hp.elim

namespace Keeps

theorem pure (a : α) : Keeps fun s => (s, a) := fun _ => rfl

theorem bind {act : State → State × α} {then_ : α → State → State × β} (h : Keeps act)
    (hn : ∀ a, Keeps (then_ a)) : Keeps fun s => then_ (act s).2 (act s).1 :=
  fun s => (hn _ _).trans (h s)

theorem write (dest : Option String) (text : String) (a : α) :
    Keeps fun s => (s.write dest text, a) :=
  fun s => cancellation_write dest s text

theorem capture {act : State → State × Int} (h : Keeps act) : Keeps fun s => s.capture act :=
  fun s => h { s with output := "" }

theorem feed {act : State → State × Int} (h : Keeps act) (text : String) :
    Keeps (State.feed text act) :=
  fun s => h { s with input := text }

theorem divert {act : String → State → State × Int} (h : ∀ key, Keeps (act key)) (overwrite : Bool)
    (name : String) : Keeps (State.divert overwrite name act) :=
  fun s => (h _ _).trans (cancellation_openFile overwrite (FileName.normalize name) s)

theorem ite {p : Prop} [Decidable p] {act act' : State → State × α} (h : Keeps act)
    (h' : Keeps act') : Keeps fun s => if p then act s else act' s := by
  intro s
  split
  · exact h s
  · exact h' s

end Keeps

theorem keeps_launch (hhost : ∀ argv, (host.exec argv).Calm) (cancellable : Bool)
    (dest : Option String) (argv : List String) : Keeps (launch host cancellable dest argv) := by
  intro s
  unfold launch
  split
  · rfl
  · exact keeps_perform (hhost argv) dest s

mutual

theorem keeps_eval (hhost : ∀ argv, (host.exec argv).Calm) (cancellable : Bool) (t : Tree)
    (dest : Option String) : Keeps (eval host cancellable t dest) := by
  cases t with
  | seq kind body =>
    cases kind with
    | script => exact keeps_evalAll hhost cancellable body dest 0
    | group closed => exact keeps_evalAll hhost cancellable body dest 0
    | command target =>
      cases target with
      | false =>
        intro s
        rw [eval]
        cases hgroup : evalGroup? host cancellable body dest s with
        | some done => exact keeps_evalGroup hhost cancellable body dest s hgroup
        | none =>
          have hparts := keeps_segments hhost cancellable body s
          generalize segments host cancellable body s = found at hparts ⊢
          obtain ⟨s', parts, status⟩ := found
          simp only
          split
          · exact hparts
          · exact (keeps_launch hhost cancellable dest _ s').trans hparts
      | true =>
        exact (keeps_segments hhost cancellable body).bind fun found =>
          Keeps.write dest (Words.join found.1) 0
    | dblQuote =>
      exact (keeps_expandAll hhost cancellable body).bind fun text => Keeps.write dest text 0
    | sub style quoted =>
      exact (keeps_evalAll hhost cancellable body none 0).capture.bind fun found =>
        Keeps.write dest (Tree.chomp found.1) found.2
  | join op left right =>
    have hl := keeps_eval hhost cancellable left
    have hr := keeps_eval hhost cancellable right
    have hchoice (p : Int → Prop) [DecidablePred p] (status : Int) : Keeps fun s =>
        if p status then eval host cancellable right dest s else (s, status) :=
      Keeps.ite (hr dest) (Keeps.pure status)
    -- a redirection, once the name of its file is known
    have hfile (act : String → State → State × Int) (hact : ∀ name, Keeps (act name))
        (found : String × Int) : Keeps fun s =>
          if found.1.isEmpty then (s, Tree.redirectFailed) else act found.1 s :=
      Keeps.ite (Keeps.pure _) (hact found.1)
    cases op with
    | pipe =>
      exact (hl none).capture.bind fun found =>
        ((hr dest).feed found.1).bind fun _ => Keeps.pure found.2
    | and => exact (hl dest).bind (hchoice (· = 0))
    | or => exact (hl dest).bind (hchoice (· ≠ 0))
    | write =>
      exact (hr none).capture.bind (hfile _ (Keeps.divert (fun key => hl (some key)) true))
    | append =>
      exact (hr none).capture.bind (hfile _ (Keeps.divert (fun key => hl (some key)) false))
    | read =>
      exact (hr none).capture.bind (hfile _ fun name s =>
        (hl dest).feed ((s.store.read? name).getD "") s)
    | readStr => exact (hr none).capture.bind fun found => (hl dest).feed found.1
  | dangling op left => exact Keeps.pure 1
  | leaf l =>
    cases l with
    | ident text => exact Keeps.write dest text 0
    | whitespace text => exact Keeps.write dest text 0
    | quote text => exact Keeps.write dest text 0
    | var name => exact Keeps.write dest (variableText host name) 0
    | comment => exact Keeps.pure 0

/-- Statements keep the cancellation. -/
theorem keeps_evalAll (hhost : ∀ argv, (host.exec argv).Calm) (cancellable : Bool) (ts : List Tree)
    (dest : Option String) (status : Int) : Keeps (evalAll host cancellable ts dest status) := by
  cases ts with
  | nil => exact Keeps.pure status
  | cons t ts =>
    exact (keeps_eval hhost cancellable t dest).bind fun status =>
      keeps_evalAll hhost cancellable ts dest status

theorem keeps_evalGroup (hhost : ∀ argv, (host.exec argv).Calm) (cancellable : Bool)
    (ts : List Tree) (dest : Option String) (s : State) {done : State × Int}
    (h : evalGroup? host cancellable ts dest s = some done) :
    done.1.cancellation = s.cancellation := by
  cases ts with
  | nil => cases h
  | cons t ts =>
    cases t with
    | seq kind body =>
      cases kind with
      | group closed =>
        obtain rfl := Option.some.inj h
        exact keeps_eval hhost cancellable (.seq (.group closed) body) dest s
      | script | command | dblQuote | sub => exact keeps_evalGroup hhost cancellable ts dest s h
    | join | dangling | leaf => exact keeps_evalGroup hhost cancellable ts dest s h

theorem keeps_segments (hhost : ∀ argv, (host.exec argv).Calm) (cancellable : Bool)
    (ts : List Tree) : Keeps (segments host cancellable ts) := by
  cases ts with
  | nil => exact Keeps.pure _
  | cons t ts =>
    have hrest := keeps_segments hhost cancellable ts
    cases t with
    | seq kind body =>
      cases kind with
      | dblQuote => exact (keeps_expandAll hhost cancellable body).bind fun _ s => hrest s
      | sub style quoted =>
        exact (keeps_evalAll hhost cancellable body none 0).capture.bind fun _ s => hrest s
      | script | command | group => exact hrest
    | join | dangling => exact hrest
    | leaf l => cases l <;> exact hrest

theorem keeps_expand (hhost : ∀ argv, (host.exec argv).Calm) (cancellable : Bool) (t : Tree) :
    Keeps (expand host cancellable t) := by
  cases t with
  | seq kind body =>
    cases kind with
    | dblQuote => exact keeps_expandAll hhost cancellable body
    | sub style quoted =>
      exact (keeps_evalAll hhost cancellable body none 0).capture.bind fun found =>
        Keeps.pure (Tree.chomp found.1)
    | script | command | group => exact Keeps.pure ""
  | join | dangling => exact Keeps.pure ""
  | leaf l => cases l <;> exact Keeps.pure _

theorem keeps_expandAll (hhost : ∀ argv, (host.exec argv).Calm) (cancellable : Bool)
    (ts : List Tree) : Keeps (expandAll host cancellable ts) := by
  cases ts with
  | nil => exact Keeps.pure ""
  | cons t ts =>
    exact (keeps_expand hhost cancellable t).bind fun text =>
      (keeps_expandAll hhost cancellable ts).bind fun rest => Keeps.pure (text ++ rest)

end

end PocketShell.Sequential
