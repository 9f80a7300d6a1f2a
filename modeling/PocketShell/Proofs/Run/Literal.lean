import PocketShell.Proofs.Script.Closing
import PocketShell.Shell

/-!
# A `$` without a name is a word

Where two readings of a script differ in nothing but how a `$` that no name follows is read, as a
variable or as a word, their jobs are the same.

* `Segment.Alike` : two parts of a command add the same to any words;
* `Tree.job_literal` : a tree and its `Tree.literal` have the same job;
* `Shell.run_of_literal`, `Shell.exec_of_literal` : so a shell runs both alike.
-/

namespace PocketShell

/-! ## Parts of a command -/

/-- Two parts of a command add the same to any words. -/
def Segment.Alike (a b : Segment) : Prop :=
  ∀ w : Words, w.splitSegment a = w.splitSegment b ∧ w.joinSegment a = w.joinSegment b

namespace Words

variable {as bs : List Segment}

theorem foldl_alike (h : List.Forall₂ Segment.Alike as bs) (w : Words) :
    as.foldl splitSegment w = bs.foldl splitSegment w ∧
      as.foldl joinSegment w = bs.foldl joinSegment w := by
  induction h generalizing w with
  | nil => exact ⟨rfl, rfl⟩
  | cons hab _ ih =>
    rw [List.foldl_cons, List.foldl_cons, List.foldl_cons, List.foldl_cons, (hab w).1, (hab w).2]
    exact ⟨(ih _).1, (ih _).2⟩

theorem split_alike (h : List.Forall₂ Segment.Alike as bs) : split as = split bs := by
  rw [split, split, (foldl_alike h {}).1]

theorem join_alike (h : List.Forall₂ Segment.Alike as bs) : join as = join bs := by
  rw [join, join, (foldl_alike h {}).2]

end Words

namespace Segment

theorem Alike.refl (a : Segment) : Alike a a := fun _ => ⟨rfl, rfl⟩

/-- A `$` is no character at which an expansion is split. -/
theorem alike_dollar : Alike (.literal "$") (.expansion "$") := by
  intro w
  have hpush : (w.current.getD "").push '$' = w.current.getD "" ++ "$" := by
    apply String.toList_injective
    simp
  constructor
  · simp [Words.splitSegment, Words.splitChar, isSplitChar, Words.addChar, Words.addText, hpush]
  · simp [Words.joinSegment]

end Segment

/-! ## Jobs -/

namespace Tree

mutual

/-- A `$` without a name does what the word `$` does. -/
theorem job_literal (cancellable : Bool) (t : Tree) (k : Int → Job) :
    t.literal.job cancellable k = t.job cancellable k := by
  cases t with
  | seq kind body =>
    rw [literal]
    cases kind with
    | script => exact statements_literal cancellable body 0 k
    | group closed => exact statements_literal cancellable body 0 k
    | command target =>
      cases target with
      | false =>
        simp only [job, firstGroup?_literal cancellable body k]
        cases firstGroup? cancellable body k with
        | some group => rfl
        | none =>
          refine segments_literal cancellable body fun as bs status h => ?_
          rw [Words.split_alike h]
      | true =>
        refine segments_literal cancellable body fun as bs status h => ?_
        rw [Words.join_alike h]
    | dblQuote => exact expandAll_literal cancellable body _
    | sub style quoted => simp only [job, statements_literal cancellable body]
  | join op left right =>
    have hleft := job_literal cancellable left
    have hright := job_literal cancellable right
    cases op with
    | pipe | write | append | read | readStr => simp only [literal, job, hleft, hright]
    | and | or =>
      simp only [literal, job, hleft]
      congr
      funext status
      rw [hright]
  | dangling op left => rfl
  | leaf l =>
    cases l with
    | var name =>
      cases hname : name.isEmpty with
      | true => simp [literal, job, expandVar, hname]
      | false => simp [literal, hname]
    | ident | whitespace | quote | comment => rfl

theorem statements_literal (cancellable : Bool) (ts : List Tree) (status : Int) (k : Int → Job) :
    statements cancellable (literalAll ts) status k = statements cancellable ts status k := by
  cases ts with
  | nil => rfl
  | cons t ts =>
    rw [literalAll, statements, job_literal cancellable t, statements]
    exact congrArg _ (funext fun status => statements_literal cancellable ts status k)

theorem firstGroup?_literal (cancellable : Bool) (ts : List Tree) (k : Int → Job) :
    firstGroup? cancellable (literalAll ts) k = firstGroup? cancellable ts k := by
  cases ts with
  | nil => rfl
  | cons t ts =>
    have hrest := firstGroup?_literal cancellable ts k
    cases t with
    | seq kind body =>
      cases kind with
      | group closed => exact congrArg some (statements_literal cancellable body 0 k)
      | script | command | dblQuote | sub => exact hrest
    | join | dangling => exact hrest
    | leaf l =>
      cases l with
      | var name =>
        by_cases hname : name.isEmpty = true
        · rw [literalAll, literal, if_pos hname]
          exact hrest
        · rw [literalAll, literal, if_neg hname]
          exact hrest
      | ident | whitespace | quote | comment => exact hrest

/-- What is done with the parts must not depend on how a `$` is read. -/
theorem segments_literal (cancellable : Bool) (ts : List Tree)
    {k k' : List Segment → Option Int → Job}
    (hk : ∀ as bs status, List.Forall₂ Segment.Alike as bs → k as status = k' bs status) :
    segments cancellable (literalAll ts) k = segments cancellable ts k' := by
  cases ts with
  | nil => exact hk [] [] none .nil
  | cons t ts =>
    have hpart {a b : Segment} (hab : a.Alike b) :
        segments cancellable (literalAll ts) (fun parts status => k (a :: parts) status) =
          segments cancellable ts fun parts status => k' (b :: parts) status :=
      segments_literal cancellable ts fun as bs status h => hk _ _ status (.cons hab h)
    have hsame (a : Segment) := hpart (Segment.Alike.refl a)
    cases t with
    | seq kind body =>
      cases kind with
      | dblQuote =>
        exact (expandAll_literal cancellable body _).trans
          (congrArg _ (funext fun text => hsame (.literal text)))
      | sub style quoted =>
        simp only [literalAll, literal, segments, statements_literal cancellable body]
        refine congrArg _ (funext fun frame => funext fun status => ?_)
        exact segments_literal cancellable ts fun as bs later h =>
          hk _ _ _ (.cons (Segment.Alike.refl _) h)
      | script | command | group => exact segments_literal cancellable ts hk
    | join | dangling => exact segments_literal cancellable ts hk
    | leaf l =>
      cases l with
      | ident text => exact hsame (.literal text)
      | quote text => exact hsame (.literal text)
      | whitespace text => exact hsame .gap
      | comment => exact hsame .gap
      | var name =>
        cases hname : name.isEmpty with
        | true =>
          simpa [literalAll, literal, segments, expandVar, hname] using hpart Segment.alike_dollar
        | false =>
          simp only [literalAll, literal, hname, Bool.false_eq_true, if_false, segments]
          exact congrArg _ (funext fun text => hsame (.expansion text))

theorem expand_literal (cancellable : Bool) (t : Tree) (k : String → Job) :
    expand cancellable t.literal k = expand cancellable t k := by
  cases t with
  | seq kind body =>
    cases kind with
    | dblQuote => exact expandAll_literal cancellable body k
    | sub style quoted => simp only [literal, expand, statements_literal cancellable body]
    | script | command | group => rfl
  | join | dangling => rfl
  | leaf l =>
    cases l with
    | var name =>
      cases hname : name.isEmpty with
      | true => simp [literal, expand, expandVar, hname]
      | false => simp [literal, hname]
    | ident | whitespace | quote | comment => rfl

theorem expandAll_literal (cancellable : Bool) (ts : List Tree) (k : String → Job) :
    expandAll cancellable (literalAll ts) k = expandAll cancellable ts k := by
  cases ts with
  | nil => rfl
  | cons t ts =>
    rw [literalAll, expandAll, expand_literal cancellable t, expandAll]
    exact congrArg _ (funext fun text => expandAll_literal cancellable ts _)

end

end Tree

/-- A shell does not mind how a `$` without a name is read. -/
theorem Shell.run_of_literal (sh : Shell) {ts us : List Tree}
    (h : ts.map Tree.literal = us.map Tree.literal) (input : String) :
    sh.run ts input = sh.run us input := by
  have hjob : Tree.statements sh.cancellable ts 0 .exit =
      Tree.statements sh.cancellable us 0 .exit := by
    rw [← Tree.statements_literal, ← Tree.statements_literal sh.cancellable us,
      Tree.literalAll_eq, Tree.literalAll_eq, h]
  rw [Shell.run, Shell.run, hjob]

/-- A line is run as its statements, however a `$` without a name is read. -/
theorem Shell.exec_of_literal (sh : Shell) {line : String} {g : Forest} {ts : List Tree}
    (hparse : Forest.parse (Source.ofText line) = .ok g)
    (hts : g.statements.map Tree.literal = ts.map Tree.literal)
    (hblank : Text.isAllBlank line.toList = false) (input : String) :
    sh.exec line input = sh.run ts input := by
  rw [Shell.exec, hblank, if_neg Bool.false_ne_true, Shell.interpret, hparse]
  exact sh.run_of_literal hts input

end PocketShell
