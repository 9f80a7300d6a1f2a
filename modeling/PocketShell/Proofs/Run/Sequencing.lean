import PocketShell.Run.Meaning

/-!
# One job after another

* `Job.andThen` : a job, and then what is done with its status;
* `Job.poll_andThen` : it is polled as the first job until that one ends, and from there on as what
  follows;
* `Tree.job_andThen`, `Tree.statements_andThen` : what follows a part of a script is done after it,
  whatever the part is made of. So `Tree.statements_append` and `Tree.statements_eq_andThen`.

Nothing is asked of the host: its commands may wait, pause and cancel.
-/

namespace PocketShell

/-! ## Jobs -/

namespace Job

/-- A job, and then what is done with its status. -/
def andThen (p : Job) (k : Int → Job) : Job :=
  match p with
  | exit status => k status
  | emit text next => emit text (next.andThen k)
  | lookup name next => lookup name fun text => (next text).andThen k
  | openFile name overwrite next => openFile name overwrite fun file => (next file).andThen k
  | exec cancellable argv next => exec cancellable argv fun status => (next status).andThen k
  | command name state next => command name state fun status => (next status).andThen k
  | within frame inner next => within frame inner fun frame status => (next frame status).andThen k
  | pipe turn buffer left right next =>
    pipe turn buffer left right fun status => (next status).andThen k
  | settle side status buffer rest next =>
    settle side status buffer rest fun status => (next status).andThen k

/-- How a job and what follows it have come along, when the job alone has come so far. -/
def chain (host : Host) (k : Int → Job) : Scene × Progress Job Int → Scene × Progress Job Int
  | (sc, .finished status) => (k status).poll host sc
  | (sc, .waiting p) => (sc, .waiting (p.andThen k))
  | (sc, .interrupted p) => (sc, .interrupted (p.andThen k))

variable (host : Host) (k : Int → Job)

theorem chain_afterRight (outer : Scene) (left : Job) (next : Int → Job)
    (r : Scene × Progress Job Int) :
    chain host k (afterRight outer left next r) =
      afterRight outer left (fun status => (next status).andThen k) r := by
  obtain ⟨inner, progress⟩ := r
  cases progress <;> rfl

/-- A job is polled first, and what follows it when it has ended. -/
theorem poll_andThen (p : Job) (sc : Scene) :
    (p.andThen k).poll host sc = chain host k (p.poll host sc) := by
  induction p generalizing sc with
  | exit status => rfl
  | emit text next ih => exact ih _
  | lookup name next ih => exact ih _ _
  | openFile name overwrite next ih => exact ih _ _
  | exec cancellable argv next ih =>
    simp only [andThen, poll]
    split
    · exact ih _ _
    · rcases (host.exec argv).resume .nothing (sc.record (.exec argv)) with ⟨sc', progress⟩
      cases progress with
      | finished status => exact ih _ _
      | waiting state | interrupted state => rfl
  | command name state next ih =>
    simp only [andThen, poll]
    rcases state.resume sc with ⟨sc', progress⟩
    cases progress with
    | finished status => exact ih _ _
    | waiting state | interrupted state => rfl
  | within frame inner next _ ih =>
    simp only [andThen, poll]
    rcases poll host inner (frame.enter sc) with ⟨inside, progress⟩
    cases progress with
    | finished status => exact ih _ _ _
    | waiting inner | interrupted inner => rfl
  | pipe turn buffer left right next _ _ ih =>
    cases turn with
    | left =>
      simp only [andThen, poll]
      rcases poll host left (sideScene sc buffer .left) with ⟨inside, progress⟩
      cases progress with
      | finished status =>
        dsimp only
        rcases poll host right _ with ⟨inside', progress'⟩
        cases progress' with
        | finished _ => exact ih _ _
        | waiting right | interrupted right => rfl
      | waiting left => exact (chain_afterRight host k _ left next _).symm
      | interrupted left => rfl
    | right => exact (chain_afterRight host k _ left next _).symm
  | settle side status buffer rest next _ ih =>
    simp only [andThen, poll]
    rcases poll host rest (sideScene sc buffer side) with ⟨inside, progress⟩
    cases progress with
    | finished _ => exact ih _ _
    | waiting rest | interrupted rest => rfl

end Job

/-! ## Parts of scripts -/

namespace Tree

open Job

variable (cancellable : Bool)

theorem expandVar_andThen (name : String) (next : String → Job) (k : Int → Job) :
    (expandVar name next).andThen k = expandVar name fun text => (next text).andThen k := by
  unfold expandVar
  split <;> rfl

theorem redirected_andThen (overwrite : Bool) (target : Job) (next : Int → Job)
    (use : OpenFile → Job) (k : Int → Job) :
    (redirected cancellable overwrite target next use).andThen k =
      redirected cancellable overwrite target (fun status => (next status).andThen k)
        fun file => (use file).andThen k := by
  unfold redirected buffered
  simp only [andThen]
  congr
  funext frame status
  split <;> rfl

mutual

/-- What follows a part of a script is done after it. -/
theorem job_andThen (t : Tree) (next k : Int → Job) :
    (t.job cancellable next).andThen k =
      t.job cancellable fun status => (next status).andThen k := by
  cases t with
  | seq kind body =>
    cases kind with
    | script => exact statements_andThen body 0 next k
    | group closed => exact statements_andThen body 0 next k
    | command target =>
      cases target with
      | false =>
        have hgroup := firstGroup?_andThen body next k
        simp only [job]
        rw [← hgroup]
        cases firstGroup? cancellable body next with
        | some group => rfl
        | none =>
          simp only [Option.map_none, segments_andThen body]
          congr
          funext parts status
          split <;> rfl
      | true => exact segments_andThen body _ k
    | dblQuote => exact expandAll_andThen body _ k
    | sub style quoted => rfl
  | join op left right =>
    cases op with
    | pipe | readStr => rfl
    | and | or =>
      simp only [job, job_andThen left]
      congr
      funext status
      split
      · exact job_andThen right next k
      · rfl
    | write | append | read => exact redirected_andThen ..
  | dangling op left => rfl
  | leaf l =>
    cases l with
    | var name => exact expandVar_andThen ..
    | ident | whitespace | quote | comment => rfl

theorem statements_andThen (ts : List Tree) (status : Int) (next k : Int → Job) :
    (statements cancellable ts status next).andThen k =
      statements cancellable ts status fun status => (next status).andThen k := by
  cases ts with
  | nil => rfl
  | cons t ts =>
    rw [statements, job_andThen t, statements]
    exact congrArg _ (funext fun status => statements_andThen ts status next k)

theorem firstGroup?_andThen (ts : List Tree) (next k : Int → Job) :
    (firstGroup? cancellable ts next).map (·.andThen k) =
      firstGroup? cancellable ts fun status => (next status).andThen k := by
  cases ts with
  | nil => rfl
  | cons t ts =>
    have hrest := firstGroup?_andThen ts next k
    cases t with
    | seq kind body =>
      cases kind with
      | group closed => exact congrArg some (statements_andThen body 0 next k)
      | script | command | dblQuote | sub => exact hrest
    | join | dangling | leaf => exact hrest

theorem segments_andThen (ts : List Tree) (next : List Segment → Option Int → Job)
    (k : Int → Job) :
    (segments cancellable ts next).andThen k =
      segments cancellable ts fun parts status => (next parts status).andThen k := by
  cases ts with
  | nil => rfl
  | cons t ts =>
    have hrest (next : List Segment → Option Int → Job) := segments_andThen ts next k
    cases t with
    | seq kind body =>
      cases kind with
      | dblQuote =>
        simp only [segments, expandAll_andThen body, hrest]
      | sub style quoted =>
        simp only [segments, buffered, andThen, hrest]
      | script | command | group => exact hrest next
    | join | dangling => exact hrest next
    | leaf l =>
      cases l with
      | var name => simp only [segments, expandVar_andThen, hrest]
      | ident | whitespace | quote | comment => exact hrest _

theorem expand_andThen (t : Tree) (next : String → Job) (k : Int → Job) :
    (expand cancellable t next).andThen k =
      expand cancellable t fun text => (next text).andThen k := by
  cases t with
  | seq kind body =>
    cases kind with
    | dblQuote => exact expandAll_andThen body next k
    | script | command | group | sub => rfl
  | join | dangling => rfl
  | leaf l =>
    cases l with
    | var name => exact expandVar_andThen ..
    | ident | whitespace | quote | comment => rfl

theorem expandAll_andThen (ts : List Tree) (next : String → Job) (k : Int → Job) :
    (expandAll cancellable ts next).andThen k =
      expandAll cancellable ts fun text => (next text).andThen k := by
  cases ts with
  | nil => rfl
  | cons t ts =>
    rw [expandAll, expand_andThen t, expandAll]
    exact congrArg _ (funext fun text => expandAll_andThen ts _ k)

end

variable (ts us : List Tree) (status : Int) (k : Int → Job)

/-- Statements, and what follows them. -/
theorem statements_eq_andThen :
    statements cancellable ts status k = (statements cancellable ts status .exit).andThen k :=
  (statements_andThen cancellable ts status .exit k).symm

/-- Statements in front of others. -/
theorem statements_append :
    statements cancellable (ts ++ us) status k =
      statements cancellable ts status fun status => statements cancellable us status k := by
  induction ts generalizing status with
  | nil => rfl
  | cons t ts ih =>
    rw [List.cons_append, statements, statements]
    exact congrArg _ (funext ih)

end Tree

end PocketShell
