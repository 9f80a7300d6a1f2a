import PocketShell.Command.Registry
import PocketShell.Proofs.Bindings
import PocketShell.Proofs.Delivery
import PocketShell.Proofs.Run.Deeds
import PocketShell.Run.Session

/-!
# Commands whose input arrives in pieces

What a command of a shell reports and writes does not depend on how its input is cut into pieces.

* `Outlook` : what can be told of the output and the files, without the pieces that the output came in;
* `Program.Seamless` : a program that either collects all of its input or passes all of it on;
* `Session.Leads` : a session that comes to another program, after some polls and events;
* `Session.leads_relay` : where a relay leads, whatever pieces its input comes in;
* `Program.Seamless.agree` : two sessions of a seamless program on the same text come to the same.
-/

namespace PocketShell

/-- What a program does with its input: it collects all of it, or passes on what comes. -/
inductive Intake where
  | collect
  | forward
deriving DecidableEq

/-- What a relay writes for a chunk. -/
def Intake.render : Intake → String → Option String
  | collect => fun _ => none
  | forward => some

/-! ## Output without its pieces -/

/-- What can be told of the output and the files. -/
structure Outlook where
  closed : Bool
  text : List Char
  /-- The file that the output goes to: its name, whether it is stored, and its content. -/
  file? : Option (String × Bool × String)
  errors : Stream
  store : Store

namespace Outlook

/-- After more output. -/
def append (o : Outlook) (text : String) : Outlook :=
  { o with
    text := o.text ++ text.toList
    file? := o.file?.map fun (name, stored, content) => (name, stored, content ++ text)
    store :=
      match o.file? with
      | some (name, true, content) => ⟨o.store.files.insert name (content ++ text)⟩
      | _ => o.store }

/-- It makes no difference whether output comes in one piece or in two. -/
theorem append_append (o : Outlook) (text text' : String) :
    (o.append text).append text' = o.append (text ++ text') := by
  obtain ⟨closed, before, file?, errors, store⟩ := o
  rcases file? with _ | ⟨name, stored, content⟩
  · simp [append]
  · cases stored <;> simp [append, String.append_assoc, Bindings.insert_insert]

/-- After a text has been passed on, if it is passed on at all. Nothing is written for an empty one. -/
def pass (use : Intake) (cs : List Char) (o : Outlook) : Outlook :=
  if use = .forward ∧ cs ≠ [] then o.append (String.ofList cs) else o

@[simp] theorem pass_nil (use : Intake) (o : Outlook) : o.pass use [] = o := by
  simp [pass]

@[simp] theorem closed_pass (use : Intake) (cs : List Char) (o : Outlook) :
    (o.pass use cs).closed = o.closed := by
  unfold pass
  split <;> rfl

theorem pass_pass (use : Intake) (cs ds : List Char) (o : Outlook) :
    (o.pass use cs).pass use ds = o.pass use (cs ++ ds) := by
  cases use with
  | collect => simp [pass]
  | forward =>
    by_cases hcs : cs = []
    · simp [hcs]
    · by_cases hds : ds = []
      · simp [hds]
      · simp [pass, hcs, hds, append_append]

end Outlook

/-- The file that a sink goes to. -/
def Sink.handle? : Sink → Option (String × Bool × String)
  | stream _ => none
  | file f => some (f.name, f.stored, f.content)

namespace Scene

def outlook (sc : Scene) : Outlook :=
  ⟨sc.stdout.toStream.closed, sc.stdout.toStream.text, sc.stdout.handle?, sc.stderr, sc.world.store⟩

theorem write_of_closed {sc : Scene} (h : sc.outlook.closed = true) (text : String) :
    sc.write text = (sc, false) := by
  have hclosed : sc.stdout.toStream.closed = true := h
  unfold write
  cases hsink : sc.stdout with
  | stream s =>
    rw [hsink] at hclosed
    have hs : s.closed = true := hclosed
    simp [Sink.write, Stream.write, hs, Except.map]
  | file f =>
    rw [hsink] at hclosed
    have hf : f.stream.closed = true := hclosed
    simp [Sink.write, OpenFile.write, Stream.write, hf, Except.map]

theorem write_of_open {sc : Scene} (h : sc.outlook.closed = false) (text : String) :
    ∃ sc', sc.write text = (sc', true) ∧ sc'.outlook = sc.outlook.append text ∧
      sc'.stdin = sc.stdin ∧ sc'.world.cancellation = sc.world.cancellation := by
  have hopen : sc.stdout.toStream.closed = false := h
  unfold write
  cases hsink : sc.stdout with
  | stream s =>
    rw [hsink] at hopen
    obtain ⟨t, hw, hopen', htext⟩ := Stream.write_of_open hopen text
    have hw' : s.write text = .ok t := hw
    refine ⟨{ sc with stdout := .stream t }, by simp [Sink.write, hw', Except.map], ?_, rfl, rfl⟩
    have hs : s.closed = false := hopen
    have htext' : t.text = s.text ++ text.toList := htext
    simp [outlook, Outlook.append, hsink, Sink.toStream, Sink.handle?, hs, hopen', htext']
  | file f =>
    rw [hsink] at hopen
    obtain ⟨t, hw, hopen', htext⟩ := Stream.write_of_open hopen text
    have hw' : f.stream.write text = .ok t := hw
    let f' := { f with stream := t, content := f.content ++ text }
    refine ⟨{ sc with stdout := .file f', world := { sc.world with store := f'.save sc.world.store } },
      by simp [Sink.write, OpenFile.write, hw', Except.map, f'], ?_, rfl, rfl⟩
    have hs : f.stream.closed = false := hopen
    have htext' : t.text = f.stream.text ++ text.toList := htext
    cases hstored : f.stored <;>
      simp [outlook, Outlook.append, hsink, Sink.toStream, Sink.handle?, hs, hopen', htext', f',
        OpenFile.save, hstored]

end Scene

/-! ## Seamless programs -/

namespace Program

variable {α β : Type}

/-- A program that does not show how its input is cut: it collects all of it, or it passes all of it
on and goes on in the same way when nobody takes it. -/
def Seamless (use : Intake) : Program α → Prop
  | done _ => True
  | write _ k => ∀ ok, (k ok).Seamless use
  | relay render _ k =>
    render = use.render ∧ (∀ text, (k text (.ended .endOfStream)).Seamless use) ∧
      (use = .forward →
        ∃ next, ∀ text, k text .refused = next ∧ k text (.ended .endOfStream) = next)
  | file _ k => ∀ content, (k content).Seamless use
  | complain _ _ | read _ _ | save _ _ _ | pause _ | cancel _ => False

theorem Seamless.bind {use : Intake} {p : Program α} {f : α → Program β}
    (hp : p.Seamless use) (hf : ∀ a, (f a).Seamless use) :
    (p.bind f).Seamless use := by
  induction p with
  | done a => exact hf a
  | write text k ih => exact fun ok => ih ok (hp ok)
  | relay render seen k ih =>
    obtain ⟨hrender, hended, hforward⟩ := hp
    refine ⟨hrender, fun text => ih text _ (hended text), fun huse => ?_⟩
    obtain ⟨next, hnext⟩ := hforward huse
    refine ⟨next.bind f, fun text => ?_⟩
    dsimp only
    rw [(hnext text).1, (hnext text).2]
    exact ⟨rfl, rfl⟩
  | file name k ih => exact fun content => ih content (hp content)
  | complain text k | read want k | save name text k | pause k | cancel k => exact hp.elim

theorem seamless_pure {use : Intake} (a : α) : (pure a : Program α).Seamless use := trivial

theorem seamless_say {use : Intake} (text : String) : (say text).Seamless use :=
  fun _ => trivial

theorem seamless_readAll : readAll.Seamless .collect := ⟨rfl, fun _ => trivial, nofun⟩

end Program

namespace Command

open Program

theorem seamless_readInput (input : String) : (readInput input).Seamless .collect := by
  unfold readInput
  split
  · refine seamless_readAll.bind fun answer => ?_
    cases answer <;> exact trivial
  · intro content
    cases content <;> exact trivial

namespace Cat

theorem seamless_passOn : passOn.Seamless .forward :=
  ⟨rfl, fun _ => trivial, fun _ => ⟨.done (.ok ()), fun _ => ⟨rfl, rfl⟩⟩⟩

theorem seamless_plain (files : List String) (result : Result) :
    (plain files result).Seamless .forward := by
  induction files generalizing result with
  | nil => exact seamless_pure result
  | cons file files ih =>
    unfold plain
    split
    · refine seamless_passOn.bind fun answer => ?_
      cases answer with
      | ok _ => exact ih result
      | error cause => exact ih _
    · rename_i hfile
      -- a file is not standard input, so nothing is collected here
      have hread : (readInput file).Seamless .forward := by
        rw [readInput, if_neg hfile]
        intro content
        cases content <;> exact trivial
      refine hread.bind fun answer => ?_
      cases answer with
      | ok text => exact (seamless_say text).bind fun _ => ih result
      | error trouble => exact ih _

theorem seamless_numbered (files : List String) (number : Nat) (result : Result) :
    (numbered files number result).Seamless .collect := by
  induction files generalizing number result with
  | nil => exact seamless_pure result
  | cons file files ih =>
    unfold numbered
    refine (seamless_readInput file).bind fun answer => ?_
    cases answer with
    | ok text => exact ih _ _
    | error trouble => exact ih _ _

theorem seamless_run (args : List String) : ∃ use, (run args).Seamless use := by
  unfold run
  dsimp only
  split
  · exact ⟨.forward, seamless_pure _⟩
  · split
    · exact ⟨.collect, seamless_numbered _ _ _⟩
    · exact ⟨.forward, seamless_plain _ _⟩

end Cat

theorem Rev.seamless_readFrom (done : String) (files : List String) :
    (Rev.readFrom done files).Seamless .collect := by
  induction files generalizing done with
  | nil => exact seamless_pure _
  | cons file files ih =>
    unfold Rev.readFrom
    refine (seamless_readInput file).bind fun answer => ?_
    cases answer with
    | ok text => exact ih _
    | error trouble => exact seamless_pure _

theorem Rev.seamless_run (args : List String) : (Rev.run args).Seamless .collect := by
  unfold Rev.run
  split
  · exact seamless_pure _
  · refine (Rev.seamless_readFrom _ _).bind fun answer => ?_
    cases answer <;> exact seamless_pure _

theorem Tr.seamless_onInput (change : List Char → List Char) :
    (Tr.onInput change).Seamless .collect := by
  refine seamless_readAll.bind fun answer => ?_
  cases answer <;> exact seamless_pure _

theorem Tr.seamless_run (args : List String) : (Tr.run args).Seamless .collect := by
  unfold Tr.run
  dsimp only
  split
  · exact seamless_pure _
  · split
    · exact seamless_pure _
    · split
      · exact Tr.seamless_onInput _
      · split
        · exact seamless_pure _
        · exact Tr.seamless_onInput _

theorem Wc.seamless_countFrom (rows : List Wc.Row) (complaints : String) (files : List String) :
    (Wc.countFrom rows complaints files).Seamless .collect := by
  induction files generalizing rows complaints with
  | nil => exact seamless_pure _
  | cons file files ih =>
    unfold Wc.countFrom
    refine (seamless_readInput file).bind fun answer => ?_
    cases answer with
    | ok text => exact ih _ _
    | error trouble => exact ih _ _

theorem Wc.seamless_run (args : List String) : (Wc.run args).Seamless .collect := by
  unfold Wc.run
  dsimp only
  split
  · exact seamless_pure _
  · exact (Wc.seamless_countFrom _ _ _).bind fun _ => seamless_pure _

theorem seamless_run {c : Command} (hc : c.isCustom = Bool.false) (env : Bindings String)
    (args : List String) : ∃ use, (c.run env args).Seamless use := by
  cases c with
  | cat => exact Cat.seamless_run args
  | rev => exact ⟨.collect, Rev.seamless_run args⟩
  | tr => exact ⟨.collect, Tr.seamless_run args⟩
  | wc => exact ⟨.collect, Wc.seamless_run args⟩
  | env =>
    refine ⟨.collect, ?_⟩
    show (Env.run env args).Seamless .collect
    unfold Env.run
    split <;> exact seamless_pure _
  | printf => exact ⟨.collect, by cases args <;> exact seamless_pure _⟩
  | echo => exact ⟨.collect, seamless_pure _⟩
  | false => exact ⟨.collect, seamless_pure _⟩
  | true => exact ⟨.collect, seamless_pure _⟩
  | constant name result => exact ⟨.collect, seamless_pure _⟩
  | custom name program steady => cases hc

end Command

/-! ## Relays -/

/-- A scene whose standard input and the events to come on it give this text. -/
structure Scene.Fed (sc : Scene) (ticket : Option Nat) (events : List Event) (cs : List Char) :
    Prop where
  awaited : sc.stdin.Awaited ticket
  quiet : (sc.stdin.cancellable && sc.fired) = false
  supplies : sc.stdin.Supplies events cs

/-- Writing has nothing to do with the input. -/
theorem Scene.Fed.congr {sc sc' : Scene} {ticket : Option Nat} {events : List Event}
    {cs : List Char} (h : sc.Fed ticket events cs) (hstdin : sc'.stdin = sc.stdin)
    (hc : sc'.world.cancellation = sc.world.cancellation) : sc'.Fed ticket events cs where
  awaited := by rw [hstdin]; exact h.awaited
  quiet := by rw [hstdin, fired, hc]; exact h.quiet
  supplies := by rw [hstdin]; exact h.supplies

namespace Program

variable {α : Type} {use : Intake} {seen : String} {k : String → Stop → Program α} {wait : Wait}
  {sc : Scene} {events : List Event} {cs : List Char}

/-- How a relay of a text may end: all of it has been read, or nobody takes it. -/
inductive RelayEnds (use : Intake) (seen : String) (cs : List Char) (o : Outlook) :
    String → Stop → List Char → Outlook → Prop where
  | ended (htaken : use = .forward → o.closed = true → cs = []) :
    RelayEnds use seen cs o (seen ++ String.ofList cs) (.ended .endOfStream) [] (o.pass use cs)
  | refused {text : String} {left : List Char} (huse : use = .forward) (hclosed : o.closed = true) :
    RelayEnds use seen cs o text .refused left o

/-- A relay that has read the first of a text already. -/
theorem RelayEnds.after {taken left left' : List Char} {o o' : Outlook} {text : String} {stop : Stop}
    (htaken : use = .forward → o.closed = true → taken = [])
    (h : RelayEnds use (seen ++ String.ofList taken) left (o.pass use taken) text stop left' o') :
    RelayEnds use seen (taken ++ left) o text stop left' o' := by
  cases h with
  | ended hleft =>
    rw [String.append_assoc, ← String.ofList_append, Outlook.pass_pass]
    refine .ended fun huse hclosed => ?_
    rw [htaken huse hclosed, hleft huse (by rw [Outlook.closed_pass, hclosed])]
    rfl
  | refused huse hclosed =>
    rw [Outlook.closed_pass] at hclosed
    rw [htaken huse hclosed, Outlook.pass_nil]
    exact .refused huse hclosed

/-- Unless nobody takes it, all of the text is read. -/
theorem RelayEnds.of_taken {o o' : Outlook} {text : String} {stop : Stop} {left : List Char}
    (h : RelayEnds use seen cs o text stop left o')
    (htaken : ¬ (use = .forward ∧ o.closed = true)) :
    text = seen ++ String.ofList cs ∧ stop = .ended .endOfStream ∧ left = [] ∧
      o' = o.pass use cs := by
  cases h with
  | ended _ => exact ⟨rfl, rfl, rfl, rfl⟩
  | refused huse hclosed => exact absurd ⟨huse, hclosed⟩ htaken

theorem RelayEnds.of_refused {o o' : Outlook} {text : String} {stop : Stop} {left : List Char}
    (h : RelayEnds use seen cs o text stop left o') (huse : use = .forward)
    (hclosed : o.closed = true) :
    (stop = .refused ∨ stop = .ended .endOfStream) ∧ o' = o := by
  cases h with
  | ended htaken =>
    rw [htaken huse hclosed, Outlook.pass_nil]
    exact ⟨.inr rfl, rfl⟩
  | refused => exact ⟨.inl rfl, rfl⟩

/-- What a relay makes of a chunk: it is not taken, or the relay goes on. -/
theorem emit_cases (use : Intake) (sc : Scene) {chunk : String} (hchunk : chunk.toList ≠ []) :
    use = .forward ∧ sc.outlook.closed = true ∧
        ((use.render chunk).map sc.write).getD (sc, true) = (sc, false) ∨
      ∃ sc', ((use.render chunk).map sc.write).getD (sc, true) = (sc', true) ∧
        (use = .forward → sc.outlook.closed = false) ∧
        sc'.outlook = sc.outlook.pass use chunk.toList ∧ sc'.stdin = sc.stdin ∧
        sc'.world.cancellation = sc.world.cancellation := by
  cases use with
  | collect => exact .inr ⟨sc, rfl, nofun, by simp [Outlook.pass], rfl, rfl⟩
  | forward =>
    cases hclosed : sc.outlook.closed with
    | true => exact .inl ⟨rfl, rfl, Scene.write_of_closed hclosed chunk⟩
    | false =>
      obtain ⟨sc', hwrite, houtlook, hstdin, hc⟩ := Scene.write_of_open hclosed chunk
      refine .inr ⟨sc', hwrite, fun _ => rfl, ?_, hstdin, hc⟩
      rw [houtlook, Outlook.pass, if_pos ⟨rfl, hchunk⟩, String.ofList_toList]

/-- What one poll of a relay comes to. -/
inductive RelayTurn (use : Intake) (seen : String) (k : String → Stop → Program α) (wait : Wait)
    (sc : Scene) (events : List Event) (cs : List Char) : Prop where
  | stops {sc' : Scene} {text : String} {stop : Stop} {left : List Char}
    (hresume : (relay use.render seen k).resume wait sc = (k text stop).resume .nothing sc')
    (hfed : sc'.Fed none events left)
    (hends : RelayEnds use seen cs sc.outlook text stop left sc'.outlook)
  | waits {sc' : Scene} {n : Nat} {taken left : List Char}
    (hresume : (relay use.render seen k).resume wait sc =
      (sc', .waiting ⟨.ticket n, relay use.render (seen ++ String.ofList taken) k⟩))
    (hfed : sc'.Fed (some n) events left) (hopen : sc'.stdin.closed = false)
    (hempty : sc'.stdin.text = []) (hcs : cs = taken ++ left)
    (htaken : use = .forward → sc.outlook.closed = true → taken = [])
    (houtlook : sc'.outlook = sc.outlook.pass use taken)

/-- After a chunk has been read and taken, the relay asks whether there will be more. -/
theorem relayTurn_of_taken {t : Stream} {chunk : String} {left : List Char} {sc₂ : Scene}
    (hpoll : sc.stdin.poll Stream.takeChunk? sc.world.cancellation wait.ticket? =
      (t, sc.world.cancellation, .ready (.ok chunk)))
    (hemit : ((use.render chunk).map { sc with
        stdin := t, world := { sc.world with cancellation := sc.world.cancellation } }.write).getD
      ({ sc with stdin := t, world := { sc.world with cancellation := sc.world.cancellation } },
        true) = (sc₂, true))
    (htaken : use = .forward → sc.outlook.closed = false)
    (houtlook : sc₂.outlook = sc.outlook.pass use chunk.toList)
    (hcs : cs = chunk.toList ++ left) (hempty : sc₂.stdin.text = [])
    (hfed : sc₂.Fed none events left) : RelayTurn use seen k wait sc events cs := by
  have hopen (huse : use = .forward) (hclosed : sc.outlook.closed = true) : False := by
    rw [htaken huse] at hclosed
    cases hclosed
  rcases sc₂.stdin.await_cases sc₂.fired with ⟨hclosed, ha⟩ | ⟨-, hminds, hfired, -⟩ | ⟨hopen', -, ha⟩
  · obtain rfl := hfed.supplies.eq_nil hclosed hempty
    have hresume : (relay use.render seen k).resume wait sc =
        (k (seen ++ chunk) (.ended .endOfStream)).resume .nothing sc₂ := by
      simp only [resume, hpoll]
      rw [hemit]
      simp only [if_true, ha]
    have hends : RelayEnds use seen cs sc.outlook (seen ++ String.ofList cs) (.ended .endOfStream) []
        (sc.outlook.pass use cs) := .ended fun huse hclosed => (hopen huse hclosed).elim
    rw [hcs, List.append_nil, String.ofList_toList, ← houtlook] at hends
    rw [hcs, List.append_nil]
    exact .stops hresume hfed hends
  · have hquiet := hfed.quiet
    rw [hminds, hfired] at hquiet
    cases hquiet
  · have hresume : (relay use.render seen k).resume wait sc =
        ({ sc₂ with stdin := sc₂.stdin.enqueue true }, .waiting ⟨.ticket sc₂.stdin.issued,
          relay use.render (seen ++ String.ofList chunk.toList) k⟩) := by
      simp only [resume, hpoll]
      rw [hemit]
      simp only [if_true, ha, String.ofList_toList]
    have hsame : sc₂.stdin.SameContent (sc₂.stdin.enqueue true) := ⟨rfl, rfl, rfl⟩
    exact .waits hresume ⟨hfed.awaited.enqueue_true hopen' hempty, hfed.quiet, hfed.supplies.congr hsame⟩
      hopen' hempty hcs (fun huse hclosed => (hopen huse hclosed).elim) houtlook

theorem relayTurn (use : Intake) (seen : String) (k : String → Stop → Program α)
    (h : sc.Fed wait.ticket? events cs) : RelayTurn use seen k wait sc events cs := by
  cases Stream.looks Stream.takeChunk?_eq_none_iff h.quiet h.awaited with
  | @served u t chunk hsame hidle hserve hpoll =>
    have hs : Want.chunk.serve u = some (chunk, t) := hserve
    let sc₁ := { sc with
      stdin := t, world := { sc.world with cancellation := sc.world.cancellation } }
    obtain ⟨left, hcs, hsupplies⟩ :=
      (h.supplies.congr hsame).take (Want.closed_serve hs) (Want.text_serve hs)
    have hfed : sc₁.Fed none events left := by
      refine ⟨hidle.serve hs, ?_, hsupplies⟩
      show (t.cancellable && sc.fired) = false
      rw [Want.cancellable_serve hs, hsame.cancellable, h.quiet]
    obtain ⟨hne, hempty⟩ : chunk.toList ≠ [] ∧ t.text = [] := by
      obtain ⟨ch, more, hutext, ⟨-, hchunk, ht⟩ | ⟨hw, -⟩ | ⟨hw, -⟩⟩ := Want.serve_eq_some hs
      · exact ⟨by simp [hchunk, hutext], by rw [ht, Stream.text_drain]⟩
      · cases hw
      · cases hw
    rcases emit_cases use sc₁ hne with
      ⟨huse, hclosed, hemit⟩ | ⟨sc₂, hemit, htaken, houtlook, hstdin, hc⟩
    · have hresume : (relay use.render seen k).resume wait sc =
          (k (seen ++ chunk) .refused).resume .nothing sc₁ := by
        simp only [resume, hpoll]
        rw [hemit]
        rfl
      exact .stops hresume hfed (.refused huse hclosed)
    · have hempty₂ : sc₂.stdin.text = [] := by rw [hstdin]; exact hempty
      exact relayTurn_of_taken hpoll hemit htaken houtlook hcs hempty₂ (hfed.congr hstdin hc)
  | @ended u hsame hidle hclosed hempty hpoll =>
    obtain rfl := h.supplies.eq_nil hclosed hempty
    have hfed : Scene.Fed { sc with stdin := u } none events [] :=
      ⟨hidle, by rw [← h.quiet, ← hsame.cancellable]; rfl, h.supplies.congr hsame⟩
    have hends : RelayEnds use seen [] sc.outlook seen (.ended .endOfStream) [] sc.outlook := by
      have hall : RelayEnds use seen [] sc.outlook _ _ _ _ := .ended fun _ _ => rfl
      simpa using hall
    exact .stops (by simp only [resume, hpoll]) hfed hends
  | @waits u n hsame hwaits hopen hempty hpoll =>
    have hfed : Scene.Fed { sc with stdin := u } (some n) events cs :=
      ⟨hwaits, by rw [← h.quiet, ← hsame.cancellable]; rfl, h.supplies.congr hsame⟩
    have hresume : (relay use.render seen k).resume wait sc =
        ({ sc with stdin := u },
          .waiting ⟨.ticket n, relay use.render (seen ++ String.ofList []) k⟩) := by
      simp only [resume, hpoll]
      simp
    exact .waits hresume hfed (hsame.closed.trans hopen) (hsame.text.trans hempty) rfl
      (fun _ _ => rfl) (Outlook.pass_nil _ _).symm

end Program

namespace Session

variable {α : Type} {p q : Program α} {wait : Wait} {sc sc' sc₁ : Scene} {e : Event}
  {events rest rest' : List Event} {use : Intake} {cs : List Char}

/-- A session comes to running another program, after some polls and events. -/
def Leads (p : Program α) (wait : Wait) (sc : Scene) (events : List Event) (q : Program α)
    (sc' : Scene) (rest : List Event) : Prop :=
  ∃ m, ∀ n, drive Suspended.resume Suspended.ready (n + m + 1) ⟨wait, p⟩ sc events =
    drive Suspended.resume Suspended.ready (n + 1) ⟨.nothing, q⟩ sc' rest

theorem Leads.of_resume_eq (h : p.resume wait sc = q.resume .nothing sc') :
    Leads p wait sc events q sc' events := by
  refine ⟨0, fun n => ?_⟩
  simp only [drive, Suspended.resume, h]

theorem Leads.of_waiting {w : Wait} {p' : Program α}
    (h : p.resume wait sc = (sc₁, .waiting ⟨w, p'⟩))
    (hready : Suspended.ready ⟨w, p'⟩ sc₁.stdin sc₁.fired = false)
    (hnext : Leads p' w (applyEvent e sc₁) rest q sc' rest') :
    Leads p wait sc (e :: rest) q sc' rest' := by
  obtain ⟨m, hm⟩ := hnext
  refine ⟨m + 1, fun n => ?_⟩
  rw [← hm]
  show drive Suspended.resume Suspended.ready (n + m + 1 + 1) ⟨wait, p⟩ sc (e :: rest) = _
  rw [drive]
  simp only [Suspended.resume, h, hready, Bool.false_eq_true, if_false]

/-- A session finishes with this result when it may be long enough. -/
def Reaches (p : Program α) (sc : Scene) (events : List Event) (result : α) (sc' : Scene)
    (rest : List Event) : Prop :=
  ∃ m, ∀ n, program (n + m + 1) p sc events = (sc', rest, .finished result)

theorem Reaches.of_leads {result : α} {sc'' : Scene} {rest'' : List Event}
    (h : Leads p .nothing sc events q sc' rest) (hq : Reaches q sc' rest result sc'' rest'') :
    Reaches p sc events result sc'' rest'' := by
  obtain ⟨m, hm⟩ := h
  obtain ⟨m', hm'⟩ := hq
  refine ⟨m' + m, fun n => ?_⟩
  rw [← Nat.add_assoc]
  exact (hm (n + m')).trans (hm' n)

/-- An event leaves the text that is to come as it is. -/
theorem fed_applyEvent {ticket : Option Nat} (h : sc.Fed ticket (e :: events) cs)
    (hopen : sc.stdin.closed = false) :
    (applyEvent e sc).Fed ticket events cs ∧ (applyEvent e sc).outlook = sc.outlook := by
  obtain ⟨hc, hsupplies⟩ := h.supplies.apply hopen sc.world.cancellation
  refine ⟨⟨e.awaited_apply h.awaited _, ?_, hsupplies⟩, rfl⟩
  show ((e.apply sc.stdin sc.world.cancellation).1.cancellable &&
    (e.apply sc.stdin sc.world.cancellation).2.fired) = false
  rw [hc, e.cancellable_apply]
  exact h.quiet

/-- Where a relay leads does not depend on the pieces of its input. -/
theorem leads_relay (use : Intake) (seen : String) (k : String → Stop → Program α) (wait : Wait)
    {sc : Scene} {events : List Event} {cs : List Char} (h : sc.Fed wait.ticket? events cs) :
    ∃ text stop left sc' rest, Leads (.relay use.render seen k) wait sc events (k text stop) sc' rest ∧
      sc'.Fed none rest left ∧
      Program.RelayEnds use seen cs sc.outlook text stop left sc'.outlook := by
  cases Program.relayTurn use seen k h with
  | stops hresume hfed hends => exact ⟨_, _, _, _, _, .of_resume_eq hresume, hfed, hends⟩
  | @waits sc₁ n taken left hresume hfed hopen hempty hcs htaken houtlook =>
    cases events with
    | nil =>
      rw [hfed.supplies.closed_of_nil] at hopen
      cases hopen
    | cons e events =>
      obtain ⟨hfed', hsame⟩ := fed_applyEvent hfed hopen
      obtain ⟨text, stop, left', sc', rest, hleads, hfed'', hends⟩ :=
        leads_relay use (seen ++ String.ofList taken) k (.ticket n) hfed'
      have hready := hfed.awaited.not_calls hopen hempty hfed.quiet
      rw [hsame, houtlook] at hends
      rw [hcs]
      exact ⟨text, stop, left', sc', rest, .of_waiting hresume hready hleads, hfed'',
        hends.after htaken⟩

/-- Where nobody takes what a relay passes on, it leads to what comes next, and nothing is written. -/
theorem leads_refused (seen : String) {k : String → Stop → Program α} {next : Program α}
    (hnext : ∀ text, k text .refused = next ∧ k text (.ended .endOfStream) = next)
    (h : sc.Fed none events cs) (hclosed : sc.outlook.closed = true) :
    ∃ left sc' rest, Leads (.relay Intake.forward.render seen k) .nothing sc events next sc' rest ∧
      sc'.Fed none rest left ∧ sc'.outlook = sc.outlook := by
  obtain ⟨text, stop, left, sc', rest, hleads, hfed, hends⟩ := leads_relay .forward seen k .nothing h
  obtain ⟨hstop, hsame⟩ := hends.of_refused rfl hclosed
  refine ⟨left, sc', rest, ?_, hfed, hsame⟩
  rcases hstop with rfl | rfl
  · rwa [(hnext text).1] at hleads
  · rwa [(hnext text).2] at hleads

end Session

/-! ## Two sessions -/

section

open Session

variable {α : Type} {use : Intake} {p : Program α} {a b : Scene} {events events' : List Event}
  {cs cs' : List Char}

/-- Two sessions come to the same. -/
def Agree (p : Program α) (a : Scene) (events : List Event) (b : Scene) (events' : List Event) :
    Prop :=
  ∃ result a' b' rest rest', Reaches p a events result a' rest ∧
    Reaches p b events' result b' rest' ∧ a'.outlook = b'.outlook

theorem Agree.of_leads {q : Program α} {a₁ b₁ : Scene} {rest rest' : List Event}
    (ha : Leads p .nothing a events q a₁ rest) (hb : Leads p .nothing b events' q b₁ rest')
    (h : Agree q a₁ rest b₁ rest') : Agree p a events b events' := by
  obtain ⟨result, a', b', left, left', ha', hb', houtlook⟩ := h
  exact ⟨result, a', b', left, left', .of_leads ha ha', .of_leads hb hb', houtlook⟩

/-- Two sessions of a seamless program on the same text come to the same. Where nobody takes what is
passed on, it need not be the same text. -/
theorem Program.Seamless.agree (hp : p.Seamless use) (ha : a.Fed none events cs)
    (hb : b.Fed none events' cs') (houtlook : a.outlook = b.outlook)
    (hcs : cs = cs' ∨ use = .forward ∧ a.outlook.closed = true) : Agree p a events b events' := by
  induction p generalizing a b events events' cs cs' with
  | done result =>
    exact ⟨result, a, b, events, events', ⟨0, fun _ => rfl⟩, ⟨0, fun _ => rfl⟩, houtlook⟩
  | complain text k | read want k | save name text k | pause k | cancel k => exact hp.elim
  | file name k ih =>
    have hstore : b.world.store = a.world.store := (congrArg Outlook.store houtlook).symm
    have hleads : Leads (.file name k) .nothing a events (k (a.world.store.read? name)) a events :=
      .of_resume_eq rfl
    refine .of_leads hleads (.of_resume_eq ?_) (ih _ (hp _) ha hb houtlook hcs)
    rw [← hstore]
    rfl
  | write text k ih =>
    cases hclosed : a.outlook.closed with
    | true =>
      have hwrite := Scene.write_of_closed hclosed text
      rw [houtlook] at hclosed
      have hwrite' := Scene.write_of_closed hclosed text
      have hnext : Agree (k false) a events b events' := ih _ (hp _) ha hb houtlook hcs
      refine .of_leads (.of_resume_eq ?_) (.of_resume_eq ?_) hnext
      · simp only [Program.resume, hwrite]
      · simp only [Program.resume, hwrite']
    | false =>
      obtain ⟨a₁, hwrite, houtlook₁, hstdin, hc⟩ := Scene.write_of_open hclosed text
      have hcs' : cs = cs' := hcs.resolve_right fun h => by simp [hclosed] at h
      rw [houtlook] at hclosed
      obtain ⟨b₁, hwrite', houtlook₁', hstdin', hc'⟩ := Scene.write_of_open hclosed text
      have hnext : Agree (k true) a₁ events b₁ events' :=
        ih _ (hp _) (ha.congr hstdin hc) (hb.congr hstdin' hc')
          (by rw [houtlook₁, houtlook₁', houtlook]) (.inl hcs')
      refine .of_leads (.of_resume_eq ?_) (.of_resume_eq ?_) hnext
      · simp only [Program.resume, hwrite]
      · simp only [Program.resume, hwrite']
  | relay render seen k ih =>
    obtain ⟨rfl, hended, hforward⟩ := hp
    by_cases hrefused : use = .forward ∧ a.outlook.closed = true
    · obtain ⟨rfl, hclosed⟩ := hrefused
      obtain ⟨next, hnext⟩ := hforward rfl
      obtain ⟨left, a₁, rest, hleads, hfed, hsame⟩ := leads_refused seen hnext ha hclosed
      obtain ⟨left', b₁, rest', hleads', hfed', hsame'⟩ :=
        leads_refused seen hnext hb (houtlook ▸ hclosed)
      have hlast : k "" (.ended .endOfStream) = next := (hnext "").2
      rw [← hlast] at hleads hleads'
      refine .of_leads hleads hleads' (ih "" _ (hended "") hfed hfed' ?_ (.inr ⟨rfl, ?_⟩))
      · rw [hsame, hsame', houtlook]
      · rw [hsame, hclosed]
    · obtain rfl : cs = cs' := hcs.resolve_right hrefused
      obtain ⟨text, stop, left, a₁, rest, hleads, hfed, hends⟩ := leads_relay use seen k .nothing ha
      obtain ⟨text', stop', left', b₁, rest', hleads', hfed', hends'⟩ :=
        leads_relay use seen k .nothing hb
      obtain ⟨rfl, rfl, rfl, hpass⟩ := hends.of_taken hrefused
      rw [houtlook] at hrefused
      obtain ⟨rfl, rfl, rfl, hpass'⟩ := hends'.of_taken hrefused
      refine .of_leads hleads hleads' (ih _ _ (hended _) hfed hfed' ?_ (.inl rfl))
      rw [hpass, hpass', houtlook]

end

/-- What a command reports and writes for an input that is written in pieces while it waits is what it
reports and writes for the same input when that is there at once. -/
theorem Session.command_of_delivers (cmd : Command) (hcmd : cmd.isCustom = false)
    (env : Bindings String) (args : List String) (sc : Scene) (minds : Bool)
    (hquiet : (minds && sc.fired) = false) (writes : List String)
    (events : List Event) (h : Event.Delivers events writes) :
    ∃ N result a b rest rest',
      (∀ n, N ≤ n → Session.program n (cmd.run env args)
        { sc with stdin := { cancellable := minds } } events = (a, rest, .finished result)) ∧
      (∀ n, N ≤ n → Session.program n (cmd.run env args)
        { sc with stdin := Stream.ofText (String.join writes) } [] = (b, rest', .finished result)) ∧
      a.stdout.toStream.text = b.stdout.toStream.text ∧ a.stderr = b.stderr ∧
      a.world.store = b.world.store := by
  obtain ⟨use, hp⟩ := Command.seamless_run hcmd env args
  have ha : Scene.Fed { sc with stdin := { cancellable := minds } } none events
      (String.join writes).toList := by
    rw [String.toList_join]
    exact ⟨.of_fresh rfl rfl, hquiet, .coming rfl h rfl⟩
  have hb : Scene.Fed { sc with stdin := Stream.ofText (String.join writes) } none []
      (String.join writes).toList := by
    refine ⟨Stream.awaited_ofText _, ?_, Stream.supplies_ofText _ []⟩
    rw [Stream.cancellable_ofText, Bool.false_and]
  obtain ⟨result, a, b, rest, rest', ⟨m, hm⟩, ⟨m', hm'⟩, houtlook⟩ := hp.agree ha hb rfl (.inl rfl)
  refine ⟨m + m' + 1, result, a, b, rest, rest', ?_, ?_, congrArg Outlook.text houtlook,
    congrArg Outlook.errors houtlook, congrArg Outlook.store houtlook⟩
  · intro n hn
    obtain ⟨n, rfl⟩ := Nat.exists_eq_add_of_le' hn
    rw [show n + (m + m' + 1) = n + m' + m + 1 by omega]
    exact hm (n + m')
  · intro n hn
    obtain ⟨n, rfl⟩ := Nat.exists_eq_add_of_le' hn
    rw [show n + (m + m' + 1) = n + m + m' + 1 by omega]
    exact hm' (n + m)

/-- Two lines in three pieces, two of which arrive at once. -/
def Session.pieces : List Event := [.write "a\nb", .both (.write "") (.write "c\n"), .close]

/-- A scene with a file. -/
def Session.desk : Scene := { world := { store := Store.ofList [("notes", "n\n")] } }

theorem Session.command_of_delivers_cat :
    (true && desk.fired) = false ∧ Event.Delivers pieces ["a\nb", "", "c\n"] ∧
      ∃ N result a b rest rest',
        (∀ n, N ≤ n → program n (Command.cat.run {} ["-", "notes", "-"])
          { desk with stdin := { cancellable := true } } pieces = (a, rest, .finished result)) ∧
        (∀ n, N ≤ n → program n (Command.cat.run {} ["-", "notes", "-"])
          { desk with stdin := Stream.ofText (String.join ["a\nb", "", "c\n"]) } [] =
            (b, rest', .finished result)) ∧
        a.stdout.toStream.text = b.stdout.toStream.text ∧ a.stderr = b.stderr ∧
        a.world.store = b.world.store :=
  ⟨rfl, rfl, command_of_delivers .cat rfl {} ["-", "notes", "-"] desk true rfl ["a\nb", "", "c\n"]
    pieces rfl⟩

end PocketShell
