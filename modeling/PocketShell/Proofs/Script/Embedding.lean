import PocketShell.Proofs.Script.Cursor

/-!
# Scripts inside scripts

What is read of a script does not depend on where the script stands: at the top, after other
statements, or in a group or a substitution.

* `Base` : a list of statements somewhere in a script, in the place of the script itself;
* `Base.Holds` : the cursor of a script, and the cursor of the same script on a base;
* `Base.carries_feed` : a token that the one takes leads the other to the corresponding cursor. A
  token that is refused is refused after other statements as well; elsewhere it may close what the
  base stands in.
-/

namespace PocketShell

open Cursor

/-- A list of statements, with some of them in it, and what is above it. -/
structure Base where
  kind : Sequence
  /-- The statements before, newest first. -/
  older : List Tree
  above : List Crumb

namespace Base

/-- The cursor before the first token. -/
def start (B : Base) : Cursor := ⟨.seq B.kind B.older, B.above⟩

/-- The base is a script with some statements. -/
structure IsScript (B : Base) : Prop where
  kind : B.kind = .script
  above : B.above = []

/-- No backtick begins the innermost substitution around the base. -/
def NoBacktick (B : Base) : Prop :=
  ∀ t older kind parts rest,
    ascend substitution t (.seq B.kind older :: B.above) ≠ some (.backtick, kind, parts, rest)

/-- A path up to the script, and the same path up to the base and on. -/
inductive Lies (B : Base) : List Crumb → List Crumb → Prop where
  | root (older : List Tree) :
    Lies B [.seq .script older] (.seq B.kind (older ++ B.older) :: B.above)
  | cons (crumb : Crumb) {path path' : List Crumb} (h : Lies B path path') :
    Lies B (crumb :: path) (crumb :: path')

/-- A cursor in a script, and the same cursor on the base. -/
inductive Holds (B : Base) : Cursor → Cursor → Prop where
  | root (parts : List Tree) :
    Holds B ⟨.seq .script parts, []⟩ ⟨.seq B.kind (parts ++ B.older), B.above⟩
  | inside (focus : Focus) {path path' : List Crumb} (h : B.Lies path path') :
    Holds B ⟨focus, path⟩ ⟨focus, path'⟩

/-- Results that correspond. -/
def Carries (B : Base) : Except Fault Cursor → Except Fault Cursor → Prop
  | .ok c, r => ∃ d, r = .ok d ∧ B.Holds c d
  | .error cause, r => B.IsScript → r = .error cause

variable {B : Base} {path path' : List Crumb} {t : Tree} {kind : Sequence} {parts : List Tree}
  {token : Token}

theorem carries_ok {c d : Cursor} (h : B.Holds c d) : B.Carries (.ok c) (.ok d) := ⟨d, rfl, h⟩

theorem carries_error (cause : Fault) : B.Carries (.error cause) (.error cause) := fun _ => rfl

/-! ## Going up -/

/-- What is found below the script is found below the base. The rest is looked for at the base. -/
theorem Lies.ascend_cases {α : Type} (h : B.Lies path path') (answer : Sequence → Option α)
    (t : Tree) :
    (∃ a kind parts rest rest', ascend answer t path = some (a, kind, parts, rest) ∧
        ascend answer t path' = some (a, kind, parts, rest') ∧ B.Lies rest rest') ∨
      ∃ top older, ascend answer t path = ascend answer top [.seq .script older] ∧
        ascend answer t path' = ascend answer top (.seq B.kind (older ++ B.older) :: B.above) := by
  induction h generalizing t with
  | root older => exact .inr ⟨t, older, rfl, rfl⟩
  | cons crumb h ih =>
    cases crumb with
    | join op left => exact ih (.join op left t)
    | seq kind older =>
      simp only [ascend]
      cases answer kind with
      | some a => exact .inl ⟨a, kind, t :: older, _, _, rfl, rfl, h⟩
      | none => exact ih (.seq kind (t :: older).reverse)

theorem ascend_of_answer {α : Type} {answer : Sequence → Option α} {a : α} {older : List Tree}
    (h : answer kind = some a) :
    ascend answer t (.seq kind older :: path) = some (a, kind, t :: older, path) := by
  simp only [ascend, h]

theorem Lies.isOperand_eq (h : B.Lies path path') : isOperand path' = isOperand path := by
  cases h with
  | root older => rfl
  | cons crumb h => cases crumb <;> rfl

theorem Lies.widest (h : B.Lies path path') (op : JoinOp) (t : Tree) :
    ∃ operand rest rest', Cursor.widest op t path = (operand, rest) ∧
      Cursor.widest op t path' = (operand, rest') ∧ B.Lies rest rest' := by
  induction h generalizing t with
  | root older => exact ⟨t, _, _, rfl, rfl, .root older⟩
  | cons crumb h ih =>
    cases crumb with
    | seq kind older => exact ⟨t, _, _, rfl, rfl, .cons _ h⟩
    | join outer left =>
      simp only [Cursor.widest]
      split
      · exact ih (.join outer left t)
      · exact ⟨t, _, _, rfl, rfl, .cons _ h⟩

theorem carries_leave (h : B.Lies path path') (t : Tree) :
    B.Carries (leave t path) (leave t path') := by
  cases h with
  | root older => exact carries_ok (.root (t :: older))
  | cons crumb h =>
    cases crumb with
    | seq kind older => exact carries_ok (.inside _ h)
    | join op left => exact carries_error _

theorem carries_close (h : B.Lies path path') (kind : Sequence) (parts : List Tree) :
    B.Carries (close kind parts path) (close kind parts path') := by
  cases kind with
  | group => exact carries_ok (.inside _ h)
  | sub => exact carries_leave h _
  | script | command | dblQuote => exact carries_error _

theorem carries_closeParenthesis (h : B.Lies path path') (t : Tree) :
    B.Carries (closeParenthesis t path) (closeParenthesis t path') := by
  unfold closeParenthesis
  rcases h.ascend_cases parenthesis t with ⟨a, kind, parts, rest, rest', h₁, h₂, hrest⟩ |
    ⟨top, older, h₁, h₂⟩
  · rw [h₁, h₂]
    cases a with
    | ok => exact carries_close hrest kind parts
    | error cause => exact carries_error cause
  · rw [h₁, h₂]
    intro hscript
    rw [hscript.kind, hscript.above]
    rfl

theorem carries_backtick (h : B.Lies path path') (hB : B.NoBacktick) (kind : Sequence)
    (parts : List Tree) (quoted : Bool) :
    B.Carries (backtick kind parts path quoted) (backtick kind parts path' quoted) := by
  unfold backtick
  rcases h.ascend_cases substitution (.seq kind parts.reverse) with
    ⟨a, kind', parts', rest, rest', h₁, h₂, hrest⟩ | ⟨top, older, h₁, h₂⟩
  · rw [h₁, h₂]
    cases a with
    | backtick => exact carries_close hrest kind' parts'
    | dollar => exact carries_ok (.inside _ (.cons _ h))
  · rw [h₁, h₂]
    split
    · rename_i heq
      simp [ascend, substitution] at heq
    · split
      · rename_i heq
        exact absurd heq (hB _ _ _ _ _)
      · exact carries_ok (.inside _ (.cons _ h))

theorem carries_endStatement (h : B.Lies path path') (hB : statementList B.kind = some ())
    (t : Tree) : B.Carries (endStatement t path) (endStatement t path') := by
  unfold endStatement
  rcases h.ascend_cases statementList t with ⟨a, kind, parts, rest, rest', h₁, h₂, hrest⟩ |
    ⟨top, older, h₁, h₂⟩
  · rw [h₁, h₂]
    exact carries_ok (.inside _ hrest)
  · rw [h₁, h₂]
    rw [ascend_of_answer hB, ascend_of_answer (a := ()) rfl]
    exact carries_ok (.root (top :: older))

theorem carries_join (h : B.Lies path path') (t : Tree) (op : JoinOp) (target : Bool) :
    B.Carries (join t path op target) (join t path' op target) := by
  unfold join
  split
  · exact carries_error _
  · obtain ⟨operand, rest, rest', h₁, h₂, hrest⟩ := h.widest op t
    rw [h₁, h₂]
    exact carries_ok (.inside _ (.cons _ hrest))

/-! ## One token -/

theorem carries_feedCommand (h : B.Lies path path') (hB : statementList B.kind = some ())
    (hfree : token.kind = .backtick → B.NoBacktick) (target : Bool) (parts : List Tree) :
    B.Carries (feedCommand target parts path token) (feedCommand target parts path' token) := by
  unfold feedCommand
  rw [h.isOperand_eq]
  dsimp only
  split
  case h_1 =>
    split
    · exact carries_ok (.inside _ h)
    · exact carries_endStatement h hB _
  case h_2 =>
    split
    · exact carries_error _
    · exact carries_endStatement h hB _
  case h_3 => exact carries_ok (.inside _ h)
  case h_4 => split <;> exact carries_ok (.inside _ h)
  case h_5 =>
    split
    · exact carries_error _
    · exact carries_ok (.inside _ (.cons _ h))
  case h_6 => exact carries_closeParenthesis h _
  case h_7 => exact carries_ok (.inside _ (.cons _ h))
  case h_8 => exact carries_ok (.inside _ (.cons _ h))
  case h_9 hkind => exact carries_backtick h (hfree hkind) _ _ _
  case h_10 => exact carries_ok (.inside _ (.cons _ h))
  case h_11 => exact carries_ok (.inside _ (.cons _ h))
  case h_12 => exact carries_ok (.inside _ (.cons _ h))
  case h_13 =>
    split
    · exact carries_error _
    · split
      · exact carries_join h _ _ _
      · exact carries_error _

theorem carries_feedList (h : B.Lies path path') (hB : statementList B.kind = some ())
    (hfree : token.kind = .backtick → B.NoBacktick) (kind : Sequence) (parts : List Tree) :
    B.Carries (feedList kind parts path token) (feedList kind parts path' token) := by
  unfold feedList
  split
  iterate 3 exact carries_ok (.inside _ h)
  case h_4 => exact carries_close h _ _
  case h_5 => exact carries_close h _ _
  case h_6 => exact carries_error _
  case h_7 => exact carries_close h _ _
  case h_8 => exact carries_feedCommand (.cons _ h) hB hfree _ _

theorem feedList_other {kind : Sequence} (hgap : token.kind ≠ .whitespace)
    (hline : token.kind ≠ .newline) (hsemicolon : token.kind ≠ .semicolon)
    (hparen : token.kind ≠ .rparen)
    (hbacktick : ∀ quoted, token.kind = .backtick → kind ≠ .sub .backtick quoted) :
    feedList kind parts path token = feedCommand false [] (.seq kind parts :: path) token := by
  unfold feedList
  split <;> simp_all

/-- Between two statements of the script. -/
theorem carries_feedList_root (hB : statementList B.kind = some ())
    (hfree : token.kind = .backtick → B.NoBacktick) (parts : List Tree) :
    B.Carries (feedList .script parts [] token)
      (feedList B.kind (parts ++ B.older) B.above token) := by
  have hbacktick (quoted : Bool) (hkind : token.kind = .backtick) :
      B.kind ≠ .sub .backtick quoted := fun heq =>
    hfree hkind (.leaf .comment) [] B.kind [.leaf .comment] B.above
      (ascend_of_answer (by rw [heq]; rfl))
  by_cases hgap : token.kind = .whitespace
  · simp only [feedList, hgap]
    exact carries_ok (.root parts)
  by_cases hline : token.kind = .newline
  · simp only [feedList, hline]
    exact carries_ok (.root parts)
  by_cases hsemicolon : token.kind = .semicolon
  · simp only [feedList, hsemicolon]
    exact carries_ok (.root parts)
  by_cases hparen : token.kind = .rparen
  · simp only [feedList, hparen]
    intro hscript
    rw [hscript.kind]
  rw [feedList_other hgap hline hsemicolon hparen (by simp),
    feedList_other hgap hline hsemicolon hparen hbacktick]
  exact carries_feedCommand (.root parts) hB hfree _ _

theorem carries_feedClosedGroup (h : B.Lies path path')
    (hvalid : ValidBelow (.seq (.group true)) path) (hB : statementList B.kind = some ())
    (parts : List Tree) :
    B.Carries (feedClosedGroup parts path token) (feedClosedGroup parts path' token) := by
  obtain ⟨older, rest, rfl, -⟩ := command_of_group hvalid
  cases h with
  | cons _ hrest =>
    have h : B.Lies (.seq (.command false) older :: rest) _ := .cons _ hrest
    unfold feedClosedGroup
    dsimp only
    split
    case h_1 => exact carries_ok (.inside _ h)
    case h_2 => exact carries_endStatement h hB _
    case h_3 => exact carries_endStatement h hB _
    case h_4 => exact carries_closeParenthesis h _
    case h_5 => exact carries_ok (.inside _ (.cons _ hrest))
    case h_6 =>
      split
      · exact carries_join hrest _ _ _
      · exact carries_error _

theorem carries_feedDblQuote (h : B.Lies path path')
    (hfree : token.kind = .backtick → B.NoBacktick) (parts : List Tree) :
    B.Carries (feedDblQuote parts path token) (feedDblQuote parts path' token) := by
  unfold feedDblQuote
  split
  case h_1 => exact carries_leave h _
  case h_2 => exact carries_ok (.inside _ (.cons _ h))
  case h_3 => exact carries_ok (.inside _ (.cons _ h))
  case h_4 hkind => exact carries_backtick h (hfree hkind) _ _ _
  case h_5 => exact carries_ok (.inside _ h)

theorem carries_feedSequence (h : B.Lies path path') (hvalid : ValidBelow (.seq kind) path)
    (hB : statementList B.kind = some ()) (hfree : token.kind = .backtick → B.NoBacktick)
    (parts : List Tree) :
    B.Carries (feedSequence kind parts path token) (feedSequence kind parts path' token) := by
  unfold feedSequence
  split
  case h_1 => exact carries_feedList h hB hfree _ _
  case h_2 => exact carries_feedList h hB hfree _ _
  case h_3 => exact carries_feedList h hB hfree _ _
  case h_4 => exact carries_feedClosedGroup h hvalid hB _
  case h_5 => exact carries_feedCommand h hB hfree _ _
  case h_6 => exact carries_feedDblQuote h hfree _

theorem feedSequence_of_list (h : statementList kind = some ()) :
    feedSequence kind parts path token = feedList kind parts path token := by
  unfold feedSequence
  split <;> simp_all [statementList]

/-- A sequence in the focus takes a token alike in both places. -/
theorem carries_feedFocus {c d : Cursor} (h : B.Holds c d) (hvalid : c.Valid)
    (hB : statementList B.kind = some ()) (hfree : token.kind = .backtick → B.NoBacktick) :
    B.Carries (c.feedFocus token) (d.feedFocus token) := by
  cases h with
  | root parts =>
    have hlist : feedSequence B.kind (parts ++ B.older) B.above token =
        feedList B.kind (parts ++ B.older) B.above token := feedSequence_of_list hB
    simp only [feedFocus, hlist]
    exact carries_feedList_root hB hfree parts
  | inside focus h =>
    cases focus with
    | leaf l => exact carries_error _
    | seq kind parts => exact carries_feedSequence h hvalid hB hfree parts

theorem carries_feedVariable {name : String} (h : B.Lies path path')
    (hvalid : ValidBelow (.leaf (.var name)) path) (hB : statementList B.kind = some ())
    (hfree : token.kind = .backtick → B.NoBacktick) :
    B.Carries (feedVariable name path token) (feedVariable name path' token) := by
  obtain ⟨kind, older, rest, rfl, hkind, hrest⟩ := holder_of_valid hvalid rfl (by simp)
  cases h with
  | root => cases hkind
  | cons _ hlies =>
    unfold feedVariable
    dsimp only
    split
    · split
      · exact carries_feedSequence hlies hrest hB (by exact hfree) _
      · split
        · exact carries_feedSequence hlies hrest hB (by exact hfree) _
        · exact carries_ok (.inside _ (.cons _ hlies))
    · split
      · rw [feedSequence_identifier hkind rfl, feedSequence_identifier hkind rfl]
        exact carries_feedSequence hlies hrest hB hfree _
      · exact carries_feedSequence hlies hrest hB hfree _

/-- A token does the same in both places. -/
theorem carries_feed {c d : Cursor} (h : B.Holds c d) (hvalid : c.Valid)
    (hB : statementList B.kind = some ()) (hfree : token.kind = .backtick → B.NoBacktick) :
    B.Carries (c.feed token) (d.feed token) := by
  have hfocus := carries_feedFocus h hvalid hB hfree
  cases h with
  | root parts => exact hfocus
  | inside focus h =>
    cases focus with
    | seq kind parts => exact hfocus
    | leaf l =>
      rcases leaf_of_valid hvalid with ⟨name, rfl⟩ | ⟨text, rfl⟩ | rfl
      · exact carries_feedVariable h hvalid hB hfree
      · exact carries_leave h _
      · simp only [feed]
        split
        · obtain ⟨kind, older, rest, rfl, hkind, hrest⟩ :=
            holder_of_valid hvalid rfl (by simp [Focus.label])
          cases h with
          | root => cases hkind
          | cons _ hlies => exact carries_feedSequence hlies hrest hB hfree _
        · exact carries_ok (.inside _ h)

/-! ## Whole scripts -/

theorem holds_start (B : Base) : B.Holds Cursor.start B.start := .root []

theorem Lies.plug_eq (h : B.Lies path path') (t : Tree) :
    ∃ body, plug t path = .seq .script body ∧
      plug t path' = plug (.seq B.kind (B.older.reverse ++ body)) B.above := by
  induction h generalizing t with
  | root older => exact ⟨(t :: older).reverse, rfl, by simp [plug, Crumb.fill]⟩
  | cons crumb h ih => exact ih (crumb.fill t)

/-- The statements of the script come after those of the base. -/
theorem Holds.tree_eq {c d : Cursor} (h : B.Holds c d) :
    ∃ body, c.tree = .seq .script body ∧
      d.tree = plug (.seq B.kind (B.older.reverse ++ body)) B.above := by
  cases h with
  | root parts => exact ⟨parts.reverse, rfl, by simp [tree, Focus.tree]⟩
  | inside focus h => exact h.plug_eq focus.tree

theorem Lies.labels_eq (h : B.Lies path path') (hB : B.IsScript) :
    path'.map Crumb.label = path.map Crumb.label := by
  induction h with
  | root older => simp [hB.kind, hB.above, Crumb.label]
  | cons crumb h ih => rw [List.map_cons, List.map_cons, ih]

end Base

end PocketShell
