import PocketShell.Proofs.Command.Escapes
import PocketShell.Proofs.Command.Formats
import Mathlib.Algebra.Order.Floor.Div

/-!
# Formats in rounds

A format is applied again and again until the arguments are used up.

* `meet` : every piece of a format with the argument that is there for it, by position;
* `outcome` : what pieces write, and what they complain about, once they have met their arguments;
* `round_append` : pieces that let a round pass write their outcome, and the round goes on;
* `roundCount`, `rounds_eq` : how many rounds there are, and what each of them writes;
* `arguments_meetings` : over all rounds, the arguments are taken one by one;
* `run_field` : a format that is a single directive writes a single field;
* `run_in_rounds` : the whole command, also where a field is too wide.
-/

namespace PocketShell.Command.Printf

/-! ## Pieces and their arguments -/

/-- What a piece writes, given the argument for it. -/
def Piece.shown (arg : List Char) : Piece → List Char
  | .literal text => (Escape.unescape text).output
  | .directive d => (render d arg).stdout

/-- Whether a piece asks for a number and gets something else. -/
def Piece.rejects (arg : List Char) : Piece → Bool
  | .literal _ => Bool.false
  | .directive d => d.isInteger && (integer? arg).isNone

def Piece.diagnostic (arg : List Char) (p : Piece) : List Char :=
  if p.rejects arg then invalidNumber arg else []

/-- Whether a round goes on after a piece. -/
def Piece.Passes : Piece → Prop
  | .literal text => ¬ Escape.stops text
  | .directive d => d.width ≤ maxWidth

/-- Every piece with the first of the given arguments that no piece before it takes; a missing
argument is empty. -/
def meet (pieces : List Piece) (given : List (List Char)) : List (Piece × List Char) :=
  pieces.mapIdx fun i p => (p, given.getD (taken (pieces.take i)) [])

/-- The arguments that are taken, in order. -/
def arguments (met : List (Piece × List Char)) : List (List Char) :=
  (met.filter fun m => m.1.takesArgument).map fun m => m.2

/-- What comes of pieces with their arguments. -/
def outcome (met : List (Piece × List Char)) : Output where
  stdout := met.flatMap fun m => m.1.shown m.2
  stderr := met.flatMap fun m => m.1.diagnostic m.2
  failed := met.any fun m => m.1.rejects m.2

/-- What the command reports. -/
def Output.report (o : Output) : Result where
  stdout := String.ofList o.stdout
  stderr := String.ofList o.stderr
  exitCode := if o.failed then 1 else 0

section meet

variable {p : Piece} {pieces before : List Piece} {args : List (List Char)}

theorem Output.append_assoc (a b c : Output) : (a.append b).append c = a.append (b.append c) := by
  simp [Output.append, Bool.or_assoc]

theorem Output.append_empty (o : Output) : o.append {} = o := by simp [Output.append]

theorem outcome_cons (m : Piece × List Char) (met : List (Piece × List Char)) :
    outcome (m :: met) = (outcome [m]).append (outcome met) := by
  simp [outcome, Output.append]

theorem taken_cons (p : Piece) (pieces : List Piece) :
    taken (p :: pieces) = (if p.takesArgument then 1 else 0) + taken pieces := by
  rw [taken, List.countP_cons, Nat.add_comm, taken]

theorem meet_cons (p : Piece) (pieces : List Piece) (given : List (List Char)) :
    meet (p :: pieces) given =
      (p, given.headD []) :: meet pieces (given.drop (if p.takesArgument then 1 else 0)) := by
  have hfirst : given.getD 0 [] = given.headD [] := by cases given <;> rfl
  simp only [meet, List.mapIdx_cons, List.take_zero, List.take_succ_cons, taken_cons]
  rw [← hfirst]
  simp [taken, List.getD_eq_getElem?_getD]

/-- A directive complains about an argument exactly if it asks for a number and gets none. -/
theorem complaint_render (d : Directive) (arg : List Char) :
    (render d arg).stderr = (Piece.directive d).diagnostic arg ∧
      (render d arg).failed = (Piece.directive d).rejects arg := by
  by_cases hinteger : d.isInteger
  · have hconversion : d.conversion = 'd' ∨ d.conversion = 'i' := by
      simpa [Directive.isInteger] using hinteger
    have hother : d.conversion ≠ '%' ∧ d.conversion ≠ 's' ∧ d.conversion ≠ 'b' ∧
        d.conversion ≠ 'c' := by
      rcases hconversion with hc | hc <;> simp [hc]
    obtain ⟨hpercent, hs, hb, hc⟩ := hother
    cases hvalue : integer? arg <;>
      simp [render, hpercent, hs, hb, hc, hinteger, hvalue, Piece.diagnostic, Piece.rejects]
  · have hquiet : (Piece.directive d).rejects arg = Bool.false := by
      simp [Piece.rejects, hinteger]
    rw [Piece.diagnostic, hquiet, if_neg Bool.false_ne_true]
    unfold render
    split_ifs <;> exact ⟨rfl, rfl⟩

theorem render_eq (d : Directive) (arg : List Char) :
    render d arg = outcome [(.directive d, arg)] := by
  obtain ⟨hstderr, hfailed⟩ := complaint_render d arg
  change (⟨(render d arg).stdout, (render d arg).stderr, (render d arg).failed⟩ : Output) = _
  rw [hstderr, hfailed]
  simp [outcome, Piece.shown]

theorem outcome_literal (text arg : List Char) (met : List (Piece × List Char)) :
    outcome ((.literal text, arg) :: met) =
      Output.append { stdout := (Escape.unescape text).output } (outcome met) := by
  simp [outcome, Output.append, Piece.shown, Piece.diagnostic, Piece.rejects]

theorem outcome_directive (d : Directive) (arg : List Char) (met : List (Piece × List Char)) :
    outcome ((.directive d, arg) :: met) = (render d arg).append (outcome met) := by
  rw [outcome_cons, render_eq]

/-- Pieces that let a round pass: the round goes on with the arguments that they leave. -/
theorem round_append (h : ∀ p ∈ before, p.Passes) (after : List Piece) (args : List (List Char)) :
    round (before ++ after) args =
      ((outcome (meet before args)).append (round after (args.drop (taken before))).1,
        (round after (args.drop (taken before))).2) := by
  -- Every piece puts what it writes in front of what the pieces behind it write.
  induction before generalizing args with
  | nil => simp [meet, outcome, taken, Output.append]
  | cons p before ih =>
    have hrest := ih fun q hq => h q (List.mem_cons_of_mem p hq)
    have hp := h p List.mem_cons_self
    rw [meet_cons, taken_cons, ← List.drop_drop]
    cases p with
    | literal text =>
      have hstop : (Escape.unescape text).stop = Bool.false := by
        simpa [Piece.Passes, Escape.stop_unescape] using hp
      rw [outcome_literal, Output.append_assoc]
      simp [round, hstop, hrest, Piece.takesArgument]
    | directive d =>
      have hwidth : ¬ d.width > maxWidth := Nat.not_lt.2 hp
      have hleft : (if d.takesArgument then args.tail else args) =
          args.drop (if (Piece.directive d).takesArgument then 1 else 0) := by
        cases hd : d.takesArgument <;> simp [Piece.takesArgument, hd]
      rw [outcome_directive, Output.append_assoc]
      simp only [List.cons_append, round, if_neg hwidth, hleft, hrest]

theorem round_of_passes (h : ∀ p ∈ pieces, p.Passes) (args : List (List Char)) :
    round pieces args = (outcome (meet pieces args), some (args.drop (taken pieces))) := by
  have hall := round_append h [] args
  rw [List.append_nil] at hall
  rw [hall, round, Output.append_empty]

/-- A piece that takes no argument does not look at one. -/
theorem outcome_of_not_takesArgument (hp : ¬ p.takesArgument) (arg other : List Char) :
    outcome [(p, arg)] = outcome [(p, other)] := by
  cases p with
  | literal text => rfl
  | directive d =>
    have hconversion : ((d.conversion ≠ 's' ∧ d.conversion ≠ 'b') ∧ d.conversion ≠ 'c') ∧
        ¬ d.isInteger := by
      simpa [Piece.takesArgument, Directive.takesArgument] using hp
    obtain ⟨⟨⟨hs, hb⟩, hc⟩, hinteger⟩ := hconversion
    have hplain (a : List Char) : render d a =
        if d.conversion = '%' then { stdout := ['%'] } else { stdout := d.text } := by
      rw [render, if_neg hs, if_neg hb, if_neg hc, if_neg hinteger]
    rw [← render_eq, ← render_eq, hplain arg, hplain other]

/-- Arguments beyond those that are taken make no difference. -/
theorem outcome_meet_take {m : Nat} (h : taken pieces ≤ m) :
    outcome (meet pieces (args.take m)) = outcome (meet pieces args) := by
  induction pieces generalizing args m with
  | nil => rfl
  | cons p pieces ih =>
    rw [taken_cons] at h
    rw [meet_cons, meet_cons, outcome_cons, outcome_cons (p, args.headD [])]
    by_cases hp : p.takesArgument
    · rw [if_pos hp] at h ⊢
      obtain ⟨m, rfl⟩ : ∃ m', m = m' + 1 := ⟨m - 1, by omega⟩
      have hhead : (args.take (m + 1)).headD [] = args.headD [] := by cases args <;> rfl
      have hdrop : (args.take (m + 1)).drop 1 = (args.drop 1).take m := by cases args <;> simp
      rw [hhead, hdrop, ih (by omega)]
    · rw [if_neg hp] at h ⊢
      rw [List.drop_zero, List.drop_zero, ih (by omega), outcome_of_not_takesArgument hp]

theorem arguments_cons (m : Piece × List Char) (met : List (Piece × List Char)) :
    arguments (m :: met) = (if m.1.takesArgument then [m.2] else []) ++ arguments met := by
  by_cases hm : m.1.takesArgument <;> simp [arguments, hm]

/-- The given arguments are taken in order, and empty ones once they have run out. -/
theorem arguments_meet (pieces : List Piece) (given : List (List Char)) :
    arguments (meet pieces given) = (List.range (taken pieces)).map fun j => given.getD j [] := by
  induction pieces generalizing given with
  | nil => rfl
  | cons p pieces ih =>
    rw [meet_cons, taken_cons, arguments_cons, ih]
    by_cases hp : p.takesArgument
    · have hfirst : given.headD [] = given.getD 0 [] := by cases given <;> rfl
      have hlater (j : Nat) : (given.drop 1).getD j [] = given.getD (j + 1) [] := by
        cases given <;> simp
      simp only [hp, if_true, hfirst, hlater, Nat.add_comm 1, List.range_succ_eq_map, List.map_cons,
        List.map_map, List.singleton_append]
      rfl
    · simp [hp]

end meet

/-! ## Rounds -/

/-- How often a format that takes `k` arguments is applied to `n` of them. -/
def roundCount (k n : Nat) : Nat := if k = 0 ∨ n = 0 then 1 else n ⌈/⌉ k

/-- Every piece of every round with its argument. -/
def meetings (pieces : List Piece) (args : List (List Char)) : List (Piece × List Char) :=
  (List.range (roundCount (taken pieces) args.length)).flatMap fun r =>
    meet pieces ((args.drop (r * taken pieces)).take (taken pieces))

section rounds

variable {pieces : List Piece} {k n : Nat}

theorem roundCount_eq_one (h : k = 0 ∨ n ≤ k) : roundCount k n = 1 := by
  by_cases hnone : k = 0 ∨ n = 0
  · rw [roundCount, if_pos hnone]
  · rw [roundCount, if_neg hnone, Nat.ceilDiv_eq_add_pred_div]
    exact Nat.div_eq_of_lt_le (by omega) (by omega)

theorem roundCount_succ (hk : 0 < k) (hn : k < n) : roundCount k n = roundCount k (n - k) + 1 := by
  have hmany : ¬ (k = 0 ∨ n = 0) := by omega
  have hrest : ¬ (k = 0 ∨ n - k = 0) := by omega
  rw [roundCount, roundCount, if_neg hmany, if_neg hrest, Nat.ceilDiv_eq_add_pred_div,
    Nat.ceilDiv_eq_add_pred_div, ← Nat.add_div_right _ hk]
  congr 1
  omega

theorem le_roundCount_mul (hk : 0 < k) : n ≤ roundCount k n * k := by
  by_cases hnone : k = 0 ∨ n = 0
  · omega
  · rw [roundCount, if_neg hnone, Nat.mul_comm]
    exact le_smul_ceilDiv hk

/-- One turn of the loop. -/
theorem roundsFrom_eq (h : ∀ p ∈ pieces, p.Passes) (done : List Output) (args : List (List Char)) :
    roundsFrom done pieces args =
      if 0 < taken pieces ∧ args.drop (taken pieces) ≠ [] then
        roundsFrom (outcome (meet pieces args) :: done) pieces (args.drop (taken pieces))
      else (outcome (meet pieces args) :: done).reverse := by
  rw [roundsFrom]
  split
  · rename_i o hround
    simp [round_of_passes h] at hround
  · rename_i o rest hround
    rw [round_of_passes h, Prod.mk.injEq, Option.some.injEq] at hround
    obtain ⟨rfl, rfl⟩ := hround
    split_ifs <;> rfl

theorem roundsFrom_eq_map (h : ∀ p ∈ pieces, p.Passes) (done : List Output)
    (args : List (List Char)) :
    roundsFrom done pieces args = done.reverse ++
      (List.range (roundCount (taken pieces) args.length)).map fun r =>
        outcome (meet pieces (args.drop (r * taken pieces))) := by
  -- Each turn of the loop leaves fewer arguments.
  induction hlength : args.length using Nat.strong_induction_on generalizing done args with
  | _ length ih =>
    rw [roundsFrom_eq h]
    split_ifs with hmore
    · have hleft : taken pieces < args.length := by
        have := hmore.2
        rw [ne_eq, List.drop_eq_nil_iff] at this
        omega
      rw [ih _ (by rw [List.length_drop]; omega) _ _ rfl, List.length_drop, ← hlength,
        roundCount_succ hmore.1 hleft, List.range_succ_eq_map]
      simp [Nat.succ_mul, Nat.add_comm]
    · have hlast : taken pieces = 0 ∨ args.length ≤ taken pieces := by
        rw [not_and_or, not_not, List.drop_eq_nil_iff] at hmore
        omega
      rw [← hlength, roundCount_eq_one hlast]
      simp

/-- What the rounds write, one by one. -/
theorem rounds_eq (h : ∀ p ∈ pieces, p.Passes) (args : List (List Char)) :
    rounds pieces args =
      (List.range (roundCount (taken pieces) args.length)).map fun r =>
        outcome (meet pieces ((args.drop (r * taken pieces)).take (taken pieces))) := by
  simp only [outcome_meet_take (Nat.le_refl _)]
  exact roundsFrom_eq_map h [] args

theorem output_eq {format : List Char} (h : ∀ p ∈ readFormat [] format, p.Passes)
    (args : List (List Char)) :
    output format args = outcome (meetings (readFormat [] format) args) := by
  simp only [output, rounds_eq h, outcome, meetings, List.flatMap_map, List.flatMap_assoc,
    List.any_map, List.any_flatMap]
  rfl

theorem flatMap_range_mul {α : Type} (f : Nat → α) (m k : Nat) :
    ((List.range m).flatMap fun r => (List.range k).map fun j => f (r * k + j)) =
      (List.range (m * k)).map f := by
  induction m with
  | zero => simp
  | succ m ih =>
    rw [List.range_succ, List.flatMap_append, ih, Nat.succ_mul, List.range_add, List.map_append]
    simp [Function.comp_def]

theorem map_getD_range {α : Type} (l : List α) (d : α) (h : l.length ≤ n) :
    (List.range n).map (fun i => l.getD i d) = l ++ List.replicate (n - l.length) d := by
  have hlength : n = l.length + (n - l.length) := by omega
  apply List.ext_getElem
  · rwa [List.length_map, List.length_range, List.length_append, List.length_replicate]
  intro i hi _
  by_cases hl : i < l.length
  · simp [hl]
  · simp [hl, List.getElem_append_right (Nat.not_lt.1 hl)]

/-- Over all rounds every argument is taken once, in order, and empty ones at the end. -/
theorem arguments_meetings (hk : 0 < taken pieces) (args : List (List Char)) :
    arguments (meetings pieces args) =
      args ++ List.replicate
        (roundCount (taken pieces) args.length * taken pieces - args.length) [] := by
  have hround (r : Nat) :
      arguments (meet pieces ((args.drop (r * taken pieces)).take (taken pieces))) =
        (List.range (taken pieces)).map fun j => args.getD (r * taken pieces + j) [] := by
    rw [arguments_meet]
    refine List.map_congr_left fun j hj => ?_
    simp [List.getD_eq_getElem?_getD, List.mem_range.1 hj]
  calc arguments (meetings pieces args)
      = (List.range (roundCount (taken pieces) args.length)).flatMap fun r =>
          arguments (meet pieces ((args.drop (r * taken pieces)).take (taken pieces))) := by
        simp only [arguments, meetings, List.filter_flatMap, List.map_flatMap]
    _ = (List.range (roundCount (taken pieces) args.length * taken pieces)).map fun i =>
          args.getD i [] := by
        simp only [hround]
        exact flatMap_range_mul (fun i => args.getD i []) _ _
    _ = _ := map_getD_range args [] (le_roundCount_mul hk)

/-- A round that reaches a directive whose field is too wide ends there, and no other follows. -/
theorem rounds_of_wide {before after : List Piece} {d : Directive}
    (hpieces : pieces = before ++ .directive d :: after) (hbefore : ∀ p ∈ before, p.Passes)
    (hwide : maxWidth < d.width) (args : List (List Char)) :
    rounds pieces args =
      [(outcome (meet before args)).append { stderr := invalidWidth d, failed := Bool.true }] := by
  have hround : round pieces args =
      ((outcome (meet before args)).append { stderr := invalidWidth d, failed := Bool.true },
        none) := by
    rw [hpieces, round_append hbefore, round, if_pos hwide]
  rw [rounds, roundsFrom]
  split
  · rename_i o heq
    rw [hround, Prod.mk.injEq] at heq
    rw [heq.1, List.reverse_singleton]
  · rename_i o rest heq
    simp [hround] at heq

end rounds

theorem run_eq (format : String) (args : List String) :
    run (format :: args) = .done (output format.toList (args.map String.toList)).report := rfl

/-! ## Formats that are applied once -/

section once

variable {format flags digits : List Char} {args : List (List Char)} {c : Char}

theorem output_once (h : ∀ p ∈ readFormat [] format, p.Passes)
    (hargs : args.length ≤ taken (readFormat [] format)) :
    output format args = outcome (meet (readFormat [] format) args) := by
  rw [output_eq h, meetings, roundCount_eq_one (.inr hargs)]
  simp [List.take_of_length_le hargs]

theorem readFormat_field (hspec : IsSpec flags digits) (hends : Ends digits c) :
    readFormat [] ('%' :: (flags ++ (digits ++ [c]))) =
      [.literal [], .directive (.ofParts flags digits (some c)), .literal []] := by
  have hwritten : Written ([] ++ '%' :: (flags ++ (digits ++ c :: []))) _ :=
    .directive List.not_mem_nil hspec hends (.literal List.not_mem_nil)
  exact hwritten.readFormat_eq

/-- A format that is a single directive, with the argument that it takes. -/
theorem run_field (hspec : IsSpec flags digits) (hends : Ends digits c)
    (htakes : (Directive.ofParts flags digits (some c)).takesArgument)
    (hwidth : Nat.ofDigitChars 10 digits 0 ≤ maxWidth) (arg : String) :
    run [String.ofList ('%' :: (flags ++ (digits ++ [c]))), arg] =
      .done (render (.ofParts flags digits (some c)) arg.toList).report := by
  have hformat := readFormat_field hspec hends
  have hempty : (Piece.literal []).Passes := by simp [Piece.Passes, Escape.stops, Escape.stopsAfter]
  have hpass : ∀ p ∈ readFormat [] ('%' :: (flags ++ (digits ++ [c]))), p.Passes := by
    intro p hp
    rw [hformat] at hp
    simp only [List.mem_cons, List.not_mem_nil, or_false] at hp
    rcases hp with rfl | rfl | rfl
    · exact hempty
    · exact hwidth
    · exact hempty
  have htaken : taken (readFormat [] ('%' :: (flags ++ (digits ++ [c])))) = 1 := by
    simp [hformat, taken, Piece.takesArgument, htakes]
  rw [run_eq, String.toList_ofList, List.map_cons, List.map_nil,
    output_once hpass (by simp [htaken]), hformat]
  simp only [meet_cons, outcome_literal, outcome_directive, Escape.unescape_nil,
    Piece.takesArgument]
  simp [outcome, meet, Output.append]

/-- The format `%s` with one argument writes the argument. -/
theorem run_text (text : String) : run ["%s", text] = .done { stdout := text } := by
  have hends : Ends [] 's' := by simp [Ends]
  have hfield : render (.ofParts [] [] (some 's')) text.toList = { stdout := text.toList } := by
    simp [render, Directive.ofParts, pad, Directive.isInteger, Text.alignRight]
  refine (run_field .nil hends (by decide) (by simp [maxWidth]) text).trans ?_
  rw [hfield]
  simp [Output.report]

end once

/-- A format is made of pieces in exactly one way. If no literal text stops the output and no field
is too wide, the command ends with what the rounds come to: there are `roundCount` of them, each is
given the next `taken pieces` arguments, and over all rounds every argument is taken once and in
order. A field that is too wide ends the command after what has been written until then. -/
theorem run_in_rounds (format : String) (args : List String) :
    ∃ pieces, (∀ ps, Written format.toList ps ↔ ps = pieces) ∧
      ((∀ p ∈ pieces, p.Passes) →
        run (format :: args) = .done (outcome (meetings pieces (args.map String.toList))).report ∧
        (rounds pieces (args.map String.toList)).length = roundCount (taken pieces) args.length ∧
        (0 < taken pieces → arguments (meetings pieces (args.map String.toList)) =
          args.map String.toList ++ List.replicate
            (roundCount (taken pieces) args.length * taken pieces - args.length) [])) ∧
      ∀ before d after, pieces = before ++ .directive d :: after → (∀ p ∈ before, p.Passes) →
        maxWidth < d.width →
          run (format :: args) = .done {
            stdout := String.ofList (outcome (meet before (args.map String.toList))).stdout
            stderr := String.ofList
              ((outcome (meet before (args.map String.toList))).stderr ++ invalidWidth d)
            exitCode := 1 } := by
  refine ⟨readFormat [] format.toList, fun ps => written_iff,
    fun hpass => ⟨?_, ?_, fun hk => ?_⟩, ?_⟩
  · rw [run_eq, output_eq hpass]
  · rw [rounds_eq hpass, List.length_map, List.length_range, List.length_map]
  · simpa using arguments_meetings hk (args.map String.toList)
  · intro before d after hpieces hbefore hwide
    rw [run_eq, output, rounds_of_wide hpieces hbefore hwide]
    simp [Output.report, Output.append]

/-- The pieces of `%s=%03d\\n`. -/
def samplePieces : List Piece :=
  [.literal [], .directive (.ofParts [] [] (some 's')), .literal ['='],
    .directive (.ofParts ['0'] ['3'] (some 'd')), .literal ['\\', 'n']]

/-- Three rounds for five arguments, one of them no number, and a field that is too wide. -/
theorem run_in_rounds_samplePieces :
    run ["%s=%03d\\n", "a", "7", "b", "x", "c"] = .done {
      stdout := "a=007\nb=000\nc=000\n"
      stderr := "printf: 'x': invalid number\n"
      exitCode := 1 } ∧
    run ["a%1048577sb", "x"] = .done {
      stdout := "a"
      stderr := "printf: %1048577s: invalid field width\n"
      exitCode := 1 } := by
  constructor
  · obtain ⟨pieces, hwritten, hrounds, -⟩ := run_in_rounds "%s=%03d\\n" ["a", "7", "b", "x", "c"]
    have hpieces : samplePieces = pieces :=
      (hwritten samplePieces).1 (written_iff.2 (by decide +kernel))
    have hpass : ∀ p ∈ samplePieces, p.Passes := by
      simp [samplePieces, Piece.Passes, Directive.ofParts, Nat.ofDigitChars_cons, maxWidth,
        Escape.stops, Escape.stopsAfter]
    have houtcome : outcome (meetings samplePieces [['a'], ['7'], ['b'], ['x'], ['c']]) =
        ⟨"a=007\nb=000\nc=000\n".toList, "printf: 'x': invalid number\n".toList, Bool.true⟩ := by
      decide +kernel
    rw [← hpieces] at hrounds
    exact (hrounds hpass).1.trans (congrArg (fun o => Program.done (Output.report o)) houtcome)
  · obtain ⟨pieces, hwritten, -, hwide⟩ := run_in_rounds "a%1048577sb" ["x"]
    have hpieces : [.literal ['a']] ++ .directive (.ofParts [] "1048577".toList (some 's')) ::
        [.literal ['b']] = pieces :=
      (hwritten _).1 (written_iff.2 (by decide +kernel))
    have hpass : ∀ p ∈ [Piece.literal ['a']], p.Passes := by
      simp [Piece.Passes, Escape.stops, Escape.stopsAfter]
    have hshown : outcome (meet [.literal ['a']] (["x"].map String.toList)) =
        { stdout := ['a'] } := by
      decide +kernel
    rw [hwide _ _ _ hpieces.symm hpass (by decide), hshown]
    rfl

end PocketShell.Command.Printf
