import PocketShell.Command.Basic
import PocketShell.Proofs.Streams

/-!
# What commands read

* `Program.bind_assoc` : the parts of a program can be put together in either order;
* `Program.Reports` : a program ends at once, and with what;
* `Scene.Offers` : standard input holds a text, and nothing more will come. Reading all of it gives
  that text and leaves nothing (`Program.resume_readAll`);
* `Command.readInputs` : reads inputs one after the other. What they are is `Command.offered`
  (`Command.resume_readInputs`).
-/

namespace PocketShell

namespace Program

variable {α β γ : Type}

theorem bind_assoc (p : Program α) (f : α → Program β) (g : β → Program γ) :
    (p.bind f).bind g = p.bind fun a => (f a).bind g := by
  induction p with
  | done a => rfl
  | write text k ih => exact congrArg (write text) (funext ih)
  | complain text k ih => exact congrArg (complain text) (funext ih)
  | read want k ih => exact congrArg (read want) (funext ih)
  | relay render seen k ih =>
    exact congrArg (relay render seen) (funext fun text => funext (ih text))
  | file name k ih => exact congrArg (file name) (funext ih)
  | save name text k ih => exact congrArg (save name text) (funext ih)
  | pause k ih => exact congrArg pause (funext ih)
  | cancel k ih => exact congrArg cancel (funext ih)

/-- A program that is started in a scene ends at once, with this result. -/
def Reports (p : Program α) (sc : Scene) (result : α) : Prop :=
  ∃ sc', p.resume .nothing sc = (sc', .finished result)

end Program

/-- Standard input holds a text, and nothing more will come. -/
structure Scene.Offers (sc : Scene) (text : String) : Prop where
  closed : sc.stdin.closed = true
  text : sc.stdin.text = text.toList

namespace Program

variable {α : Type} {sc : Scene} {text : String}

/-- Standard input is read to its end. -/
theorem resume_readAll (h : sc.Offers text) (k : Except Fault String → Program α) :
    ∃ stdin, Scene.Offers { sc with stdin := stdin } "" ∧
      (readAll.bind k).resume .nothing sc =
        (k (.ok text)).resume .nothing { sc with stdin := stdin } := by
  have hpoll := Stream.poll_of_closed Stream.takeChunk? h.closed sc.world.cancellation
  have hticket : Wait.nothing.ticket? = none := rfl
  have htaken : String.ofList sc.stdin.text = text := by rw [h.text, String.ofList_toList]
  cases hempty : sc.stdin.isEmpty with
  | true =>
    have hnone : sc.stdin.text = [] := (Stream.isEmpty_iff _).1 hempty
    have htext : text = "" := by rw [← htaken, hnone]
    rw [Stream.takeChunk?, if_pos hempty] at hpoll
    refine ⟨sc.stdin, ⟨h.closed, hnone⟩, ?_⟩
    change Program.resume (relay _ _ _) _ _ = _
    rw [resume, hticket, hpoll, htext]
    rfl
  | false =>
    rw [Stream.takeChunk?, if_neg (by simp [hempty])] at hpoll
    have hdrained : sc.stdin.drain.2.closed = true := h.closed
    refine ⟨sc.stdin.drain.2, ⟨hdrained, rfl⟩, ?_⟩
    change Program.resume (relay _ _ _) _ _ = _
    rw [resume, hticket, hpoll]
    simp only [Option.map_none, Option.getD_none, if_true, Stream.await_of_closed hdrained,
      String.empty_append]
    rw [Stream.drain, htaken]
    rfl

end Program

/-! ## Several inputs -/

namespace Command

variable {α : Type} {sc : Scene} {text : String}

/-- Reads inputs in order. -/
def readInputs : List String → Program (List (Except Trouble String))
  | [] => .done []
  | file :: files =>
    (readInput file).bind fun answer => (readInputs files).bind fun answers =>
      .done (answer :: answers)

/-- What inputs are when `text` is on standard input: it is read when it is asked for first, and
nothing is left of it then. -/
def offered (st : Store) (text : String) : List String → List (Except Trouble String)
  | [] => []
  | file :: files =>
    if file = "-" then .ok text :: offered st "" files
    else ((st.read? file).elim (.error .missing) .ok) :: offered st text files

theorem resume_readInput_stdin (h : sc.Offers text) (k : Except Trouble String → Program α) :
    ∃ stdin, Scene.Offers { sc with stdin := stdin } "" ∧
      ((readInput "-").bind k).resume .nothing sc =
        (k (.ok text)).resume .nothing { sc with stdin := stdin } := by
  rw [readInput, if_pos rfl, Program.bind_assoc]
  exact Program.resume_readAll h _

theorem resume_readInput_file {file : String} (hfile : file ≠ "-")
    (k : Except Trouble String → Program α) (sc : Scene) :
    ((readInput file).bind k).resume .nothing sc =
      (k ((sc.world.store.read? file).elim (.error .missing) .ok)).resume .nothing sc := by
  rw [readInput, if_neg hfile, Program.bind, Program.resume]
  cases sc.world.store.read? file <;> rfl

/-- Inputs are read one after the other. -/
theorem resume_readInputs (h : sc.Offers text) (files : List String)
    (k : List (Except Trouble String) → Program α) :
    ∃ sc', ((readInputs files).bind k).resume .nothing sc =
      (k (offered sc.world.store text files)).resume .nothing sc' := by
  induction files generalizing sc text k with
  | nil => exact ⟨sc, rfl⟩
  | cons file files ih =>
    have hparts : (readInputs (file :: files)).bind k =
        (readInput file).bind fun answer => (readInputs files).bind fun answers =>
          k (answer :: answers) := by
      simp only [readInputs, Program.bind_assoc]
      rfl
    rw [hparts, offered]
    by_cases hfile : file = "-"
    · subst hfile
      obtain ⟨stdin, hrest, hread⟩ := resume_readInput_stdin h fun answer =>
        (readInputs files).bind fun answers => k (answer :: answers)
      rw [hread, if_pos rfl]
      exact ih hrest _
    · rw [resume_readInput_file hfile, if_neg hfile]
      exact ih h _

end Command

end PocketShell
