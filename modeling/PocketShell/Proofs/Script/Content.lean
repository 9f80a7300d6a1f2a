import PocketShell.Proofs.Script.Integrity

/-!
# The text of the words

Words go from the tokens into the script without loss, in order and once.

* `Tree.wordText` : the text of the words below a node, from left to right;
* `Forest.contribution` : what a token adds to it, which depends on the node that receives it;
* `Cursor.feed_holdsText` : one token adds what it contributes at the end of the text, since the
  context is always the last child of its parent.

`Forest.wordText_feedAll` says this of all tokens.
-/

namespace PocketShell

/-! ## Text in trees -/

/-- The text of a part of a word. -/
def Leaf.wordText : Leaf → List Char
  | ident text | quote text => text.toList
  | var name => '$' :: name.toList
  | whitespace _ | comment => []

namespace Tree

mutual

/-- The text of the words below a node, from left to right. -/
def wordText : Tree → List Char
  | seq _ body => wordTexts body
  | join _ left right => wordText left ++ wordText right
  | dangling _ left => wordText left
  | leaf l => l.wordText

def wordTexts : List Tree → List Char
  | [] => []
  | t :: ts => wordText t ++ wordTexts ts

end

theorem wordTexts_append (ts us : List Tree) :
    wordTexts (ts ++ us) = wordTexts ts ++ wordTexts us := by
  induction ts with
  | nil => rfl
  | cons t ts ih => rw [List.cons_append, wordTexts, wordTexts, ih, List.append_assoc]

theorem wordTexts_reverse_cons (t : Tree) (ts : List Tree) :
    wordTexts (t :: ts).reverse = wordTexts ts.reverse ++ t.wordText := by
  rw [List.reverse_cons, wordTexts_append, wordTexts, wordTexts, List.append_nil]

end Tree

/-! ## Text up to the cursor -/

/-- What a token adds in a sequence. Between double quotes all is text that is no quote and opens no
substitution. -/
def Token.addition (token : Token) (quoted : Bool) : List Char :=
  match token.kind with
  | .identifier => token.value.toList
  | .dollar => ['$']
  | .dblQuote | .dollarParen | .backtick => []
  | _ => if quoted then token.value.toList else []

theorem Token.addition_of_ne {token : Token} (hident : token.kind ≠ .identifier)
    (hdollar : token.kind ≠ .dollar) : token.addition false = [] := by
  unfold addition
  split <;> simp_all

def Sequence.isDblQuote : Sequence → Bool
  | dblQuote => true
  | _ => false

namespace Cursor

open PocketShell.Tree (wordTexts wordTexts_reverse_cons)

variable {c d : Cursor} {t : Tree} {path rest : List Crumb} {parts : List Tree} {kind : Sequence}
  {token : Token} {text : List Char} {r : Except Fault Cursor}

/-- The text before the open child of a crumb. -/
def before : List Crumb → List Char
  | [] => []
  | .seq _ older :: path => before path ++ wordTexts older.reverse
  | .join _ left :: path => before path ++ left.wordText

/-- The text of the whole script. -/
def wordText (c : Cursor) : List Char := before c.path ++ c.focus.tree.wordText

theorem wordText_plug (t : Tree) (path : List Crumb) :
    (plug t path).wordText = before path ++ t.wordText := by
  induction path generalizing t with
  | nil => rfl
  | cons crumb path ih =>
    rw [plug, ih]
    cases crumb with
    | seq kind older =>
      rw [Crumb.fill, Tree.wordText, wordTexts_reverse_cons, before, List.append_assoc]
    | join op left => rw [Crumb.fill, Tree.wordText, before, List.append_assoc]

/-- A cursor with this text, unless there is a fault. An open quote has no text yet. -/
def HoldsText (text : List Char) : Except Fault Cursor → Prop
  | .ok c => c.wordText = text ∧ ∀ inner, c.focus = .leaf (.quote inner) → inner = ""
  | .error _ => True

theorem holdsText_seq (h : before path ++ wordTexts parts.reverse = text) :
    HoldsText text (.ok ⟨.seq kind parts, path⟩) :=
  ⟨h, by simp⟩

theorem holdsText_part (h : (before path ++ wordTexts parts.reverse) ++ t.wordText = text) :
    HoldsText text (.ok ⟨.seq kind (t :: parts), path⟩) := by
  refine holdsText_seq ?_
  rw [wordTexts_reverse_cons, ← List.append_assoc, h]

/-! ## Going up and joining -/

theorem leave_holdsText (t : Tree) (path : List Crumb) :
    HoldsText (before path ++ t.wordText) (leave t path) := by
  unfold leave
  split
  · exact holdsText_part rfl
  · trivial

theorem close_holdsText (kind : Sequence) (parts : List Tree) (path : List Crumb) :
    HoldsText (before path ++ wordTexts parts.reverse) (close kind parts path) := by
  cases kind with
  | group => exact holdsText_seq rfl
  | sub style quoted => exact leave_holdsText (.seq (.sub style quoted) parts.reverse) path
  | script | command | dblQuote => trivial

theorem before_ascend {α : Type} {answer : Sequence → Option α} {a : α}
    (h : ascend answer t path = some (a, kind, parts, rest)) :
    before rest ++ wordTexts parts.reverse = before path ++ t.wordText := by
  induction path generalizing t with
  | nil => cases h
  | cons crumb path ih =>
    cases crumb with
    | join op left =>
      rw [ih h, before, Tree.wordText, List.append_assoc]
    | seq kind' older =>
      have htext : before path ++ wordTexts (t :: older).reverse =
          before (.seq kind' older :: path) ++ t.wordText := by
        rw [wordTexts_reverse_cons, before, List.append_assoc]
      simp only [ascend] at h
      split at h
      · obtain ⟨-, -, rfl, rfl⟩ : _ ∧ kind' = kind ∧ t :: older = parts ∧ path = rest := by
          simpa using h
        exact htext
      · exact (ih h).trans htext

theorem closeParenthesis_holdsText (t : Tree) (path : List Crumb) :
    HoldsText (before path ++ t.wordText) (closeParenthesis t path) := by
  unfold closeParenthesis
  split
  · rename_i h
    rw [← before_ascend h]
    exact close_holdsText _ _ _
  · trivial
  · trivial

theorem backtick_holdsText (kind : Sequence) (parts : List Tree) (path : List Crumb)
    (quoted : Bool) :
    HoldsText (before path ++ wordTexts parts.reverse) (backtick kind parts path quoted) := by
  unfold backtick
  split
  · rename_i h
    have htext := before_ascend h
    rw [Tree.wordText] at htext
    rw [← htext]
    exact close_holdsText _ _ _
  · exact holdsText_seq (List.append_nil _)

theorem endStatement_holdsText (t : Tree) (path : List Crumb) :
    HoldsText (before path ++ t.wordText) (endStatement t path) := by
  unfold endStatement
  split
  · rename_i h
    exact holdsText_seq (before_ascend h)
  · trivial

theorem before_widest (op : JoinOp) (t : Tree) (path : List Crumb) :
    before (widest op t path).2 ++ (widest op t path).1.wordText = before path ++ t.wordText := by
  induction path generalizing t with
  | nil => rfl
  | cons crumb path ih =>
    cases crumb with
    | seq kind older => rfl
    | join outer left =>
      simp only [widest]
      split
      · rw [ih, Tree.wordText, before, List.append_assoc]
      · rfl

theorem join_holdsText (t : Tree) (path : List Crumb) (op : JoinOp) (target : Bool) :
    HoldsText (before path ++ t.wordText) (join t path op target) := by
  unfold join
  split
  · trivial
  · rw [← before_widest op t path]
    exact holdsText_seq (List.append_nil _)

/-! ## One token -/

theorem feedCommand_holdsText (target : Bool) (parts : List Tree) (path : List Crumb)
    (token : Token) :
    HoldsText ((before path ++ wordTexts parts.reverse) ++ token.addition false)
      (feedCommand target parts path token) := by
  by_cases hident : token.kind = .identifier
  · simp only [feedCommand, Token.addition, hident]
    exact holdsText_part rfl
  by_cases hdollar : token.kind = .dollar
  · simp only [feedCommand, Token.addition, hdollar]
    exact ⟨rfl, by simp⟩
  rw [Token.addition_of_ne hident hdollar, List.append_nil]
  have htree : (Tree.seq (.command target) parts.reverse).wordText = wordTexts parts.reverse := rfl
  have hopen {kind' : Sequence} :
      HoldsText (before path ++ wordTexts parts.reverse)
        (.ok ⟨.seq kind' [], .seq (.command target) parts :: path⟩) :=
    holdsText_seq (List.append_nil _)
  rw [← htree]
  unfold feedCommand
  dsimp only
  split
  case h_1 =>
    split
    · exact holdsText_seq rfl
    · exact endStatement_holdsText _ _
  case h_2 =>
    split
    · trivial
    · exact endStatement_holdsText _ _
  case h_3 => contradiction
  case h_4 =>
    split
    · exact holdsText_part (List.append_nil _)
    · exact holdsText_seq rfl
  case h_5 =>
    split
    · trivial
    · exact hopen
  case h_6 => exact closeParenthesis_holdsText _ _
  case h_7 => contradiction
  case h_8 => exact hopen
  case h_9 => exact backtick_holdsText _ _ _ _
  case h_10 => exact ⟨List.append_nil _, by simp⟩
  case h_11 => exact hopen
  case h_12 => exact ⟨List.append_nil _, by simp⟩
  case h_13 =>
    split
    · trivial
    · split
      · exact join_holdsText _ _ _ _
      · trivial

theorem feedList_holdsText (kind : Sequence) (parts : List Tree) (path : List Crumb)
    (token : Token) :
    HoldsText ((before path ++ wordTexts parts.reverse) ++ token.addition false)
      (feedList kind parts path token) := by
  have hcommand := feedCommand_holdsText false [] (.seq kind parts :: path) token
  rw [before, List.reverse_nil, wordTexts, List.append_nil] at hcommand
  have hnone (hident : token.kind ≠ .identifier) (hdollar : token.kind ≠ .dollar) :
      (before path ++ wordTexts parts.reverse) ++ token.addition false =
        before path ++ wordTexts parts.reverse := by
    rw [Token.addition_of_ne hident hdollar, List.append_nil]
  unfold feedList
  split
  case h_1 h => exact holdsText_seq (hnone (by simp [h]) (by simp [h])).symm
  case h_2 h => exact holdsText_seq (hnone (by simp [h]) (by simp [h])).symm
  case h_3 h => exact holdsText_seq (hnone (by simp [h]) (by simp [h])).symm
  case h_4 h =>
    rw [hnone (by simp [h]) (by simp [h])]
    exact close_holdsText _ _ _
  case h_5 h =>
    rw [hnone (by simp [h]) (by simp [h])]
    exact close_holdsText _ _ _
  case h_6 => trivial
  case h_7 h =>
    rw [hnone (by simp [h]) (by simp [h])]
    exact close_holdsText _ _ _
  case h_8 => exact hcommand

theorem feedClosedGroup_holdsText (parts : List Tree) (path : List Crumb) (token : Token) :
    HoldsText ((before path ++ wordTexts parts.reverse) ++ token.addition false)
      (feedClosedGroup parts path token) := by
  cases path with
  | nil => trivial
  | cons crumb rest =>
    cases crumb with
    | join => trivial
    | seq holder older =>
      by_cases hident : token.kind = .identifier
      · simp only [feedClosedGroup, hident, JoinOp.ofToken?]
        trivial
      by_cases hdollar : token.kind = .dollar
      · simp only [feedClosedGroup, hdollar, JoinOp.ofToken?]
        trivial
      rw [Token.addition_of_ne hident hdollar, List.append_nil]
      have htree : (Tree.seq (.group true) parts.reverse).wordText = wordTexts parts.reverse := rfl
      have hholder : before rest ++
          (Tree.seq holder (Tree.seq (.group true) parts.reverse :: older).reverse).wordText =
          before (.seq holder older :: rest) ++ wordTexts parts.reverse := by
        rw [Tree.wordText, wordTexts_reverse_cons, htree, before, List.append_assoc]
      unfold feedClosedGroup
      dsimp only
      split
      case h_1 => exact holdsText_seq rfl
      case h_2 => exact endStatement_holdsText (.seq (.group true) parts.reverse) _
      case h_3 => exact endStatement_holdsText (.seq (.group true) parts.reverse) _
      case h_4 => exact closeParenthesis_holdsText (.seq (.group true) parts.reverse) _
      case h_5 => exact ⟨(List.append_nil _).trans hholder, by simp⟩
      case h_6 =>
        split
        · rw [← hholder]
          exact join_holdsText _ _ _ _
        · trivial

theorem feedDblQuote_holdsText (parts : List Tree) (path : List Crumb) (token : Token) :
    HoldsText ((before path ++ wordTexts parts.reverse) ++ token.addition true)
      (feedDblQuote parts path token) := by
  unfold feedDblQuote
  split
  case h_1 h =>
    simp only [Token.addition, h, List.append_nil]
    exact leave_holdsText (.seq .dblQuote parts.reverse) path
  case h_2 h =>
    simp only [Token.addition, h]
    exact ⟨rfl, by simp⟩
  case h_3 h =>
    simp only [Token.addition, h]
    exact holdsText_seq rfl
  case h_4 h =>
    simp only [Token.addition, h, List.append_nil]
    exact backtick_holdsText _ _ _ _
  case h_5 =>
    refine holdsText_part ?_
    unfold Token.addition
    split <;> simp_all [Tree.wordText, Leaf.wordText]

theorem feedSequence_holdsText (kind : Sequence) (parts : List Tree) (path : List Crumb)
    (token : Token) :
    HoldsText ((before path ++ wordTexts parts.reverse) ++ token.addition kind.isDblQuote)
      (feedSequence kind parts path token) := by
  unfold feedSequence
  split
  case h_1 => exact feedList_holdsText _ _ _ _
  case h_2 => exact feedList_holdsText _ _ _ _
  case h_3 => exact feedList_holdsText _ _ _ _
  case h_4 => exact feedClosedGroup_holdsText _ _ _
  case h_5 => exact feedCommand_holdsText _ _ _ _
  case h_6 => exact feedDblQuote_holdsText _ _ _

/-- The name of a variable and the rest of a word are the word. -/
theorem matched_append_drop (text : List Char) :
    text.takeWhile isNameChar ++ text.drop (text.takeWhile isNameChar).length = text :=
  (List.prefix_iff_eq_append.1 (List.takeWhile_prefix isNameChar))

theorem feedVariable_holdsText {name : String} {older : List Tree}
    (hname : name.toList.all isNameChar = true) (hkind : kind.isHolder = true) (token : Token) :
    HoldsText ((before (.seq kind older :: rest) ++ '$' :: name.toList) ++
        token.addition kind.isDblQuote)
      (feedVariable name (.seq kind older :: rest) token) := by
  have hvar (name : String) : before rest ++ wordTexts (.leaf (.var name) :: older).reverse =
      before (.seq kind older :: rest) ++ '$' :: name.toList := by
    rw [wordTexts_reverse_cons, ← List.append_assoc]
    rfl
  unfold feedVariable
  dsimp only
  split
  · rename_i hident
    have hadd (quoted : Bool) (value : String) :
        Token.addition { token with value := value } quoted = value.toList := by
      simp only [Token.addition, hident]
    have hwhole : token.addition kind.isDblQuote = token.value.toList := hadd _ token.value
    rw [hwhole]
    split
    · -- nothing of a name yet, and none follows
      rename_i hnone
      have hempty : name.toList = [] := by
        cases hcs : name.toList with
        | nil => rfl
        | cons ch cs =>
          rw [hcs] at hname hnone
          simp_all
      have h := feedSequence_holdsText kind older rest { token with value := "$" ++ token.value }
      rw [hadd] at h
      rw [hempty]
      simpa [before] using h
    · split
      · have h := feedSequence_holdsText kind (.leaf (.var (String.ofList
            ((name.toList ++ token.value.toList).takeWhile isNameChar))) :: older) rest
          { token with value := String.ofList ((name.toList ++ token.value.toList).drop
            ((name.toList ++ token.value.toList).takeWhile isNameChar).length) }
        rw [hadd, hvar, String.toList_ofList, String.toList_ofList, List.append_assoc,
          List.cons_append, matched_append_drop] at h
        rw [List.append_assoc, List.cons_append]
        exact h
      · rename_i hall
        have hmatched := (List.takeWhile_prefix isNameChar).eq_of_length_le (Nat.le_of_not_lt hall)
        refine ⟨?_, by simp⟩
        rw [hmatched]
        simp [wordText, Focus.tree, Tree.wordText, Leaf.wordText]
  · split
    · rename_i hempty
      rw [feedSequence_identifier hkind rfl]
      have h := feedSequence_holdsText kind (.leaf (.ident "$") :: older) rest token
      rw [wordTexts_reverse_cons, ← List.append_assoc] at h
      rw [String.isEmpty_iff.1 hempty]
      exact h
    · have h := feedSequence_holdsText kind (.leaf (.var name) :: older) rest token
      rw [hvar] at h
      exact h

/-- What a token adds to the text of a cursor. -/
def contribution (c : Cursor) (token : Token) : List Char :=
  match c.focus, c.path with
  | .leaf .comment, _ => []
  | .leaf (.quote _), _ => token.value.toList
  | .leaf _, .seq kind _ :: _ => token.addition kind.isDblQuote
  | .seq kind _, _ => token.addition kind.isDblQuote
  | _, _ => []

/-- A token adds what it contributes at the end of the text. -/
theorem feed_holdsText (hvalid : c.Valid) (h : HoldsText text (.ok c)) (token : Token) :
    HoldsText (text ++ c.contribution token) (c.feed token) := by
  obtain ⟨focus, path⟩ := c
  obtain ⟨rfl, hquote⟩ := h
  cases focus with
  | seq kind parts => exact feedSequence_holdsText kind parts path token
  | leaf l =>
    obtain ⟨kind, older, rest, rfl, hkind, hrest⟩ :=
      holder_of_valid hvalid rfl (by simp [Focus.label])
    rcases leaf_of_valid hvalid with ⟨name, rfl⟩ | ⟨inner, rfl⟩ | rfl
    · exact feedVariable_holdsText (isNameChar_of_valid hvalid) hkind token
    · obtain rfl := hquote inner rfl
      have htext : wordText ⟨.leaf (.quote ""), .seq kind older :: rest⟩ =
          before (.seq kind older :: rest) := List.append_nil _
      rw [htext]
      exact leave_holdsText (.leaf (.quote token.value)) (.seq kind older :: rest)
    · obtain ⟨target, rfl⟩ : ∃ target, kind = .command target := by
        have hadmits : (Crumb.seq kind older).admits (.leaf .comment) = true := hvalid.1
        cases kind with
        | command target => exact ⟨target, rfl⟩
        | script | group | dblQuote | sub => simp [Crumb.admits] at hadmits
      by_cases hline : token.kind = .newline
      · have hcommand := feedCommand_holdsText target (.leaf .comment :: older) rest token
        rw [Token.addition_of_ne (by simp [hline]) (by simp [hline]), wordTexts_reverse_cons,
          ← List.append_assoc] at hcommand
        simp only [feed, hline, if_true, leave]
        exact hcommand
      · simp only [feed, hline, if_false]
        exact ⟨(List.append_nil _).symm, by simp⟩

end Cursor

/-! ## All tokens -/

namespace Forest

open Cursor (HoldsText)

variable {f g : Forest} {strays : List NodeId} {context last : NodeId} {c : Cursor} {token : Token}

def isDblQuote (f : Forest) (id : NodeId) : Bool :=
  match f.shape id with
  | .seq .dblQuote _ => true
  | _ => false

/-- The node that a token is for: what a variable does not take it leaves to its parent. -/
def receiver (f : Forest) (context : NodeId) : NodeId :=
  match f.shape context with
  | .leaf (.var _) => (f.parent? context).getD context
  | _ => context

/-- What a token adds to the text of the words. A comment takes all up to the end of its line, and a
quote takes its token as it is. -/
def contribution (f : Forest) (context : NodeId) (token : Token) : List Char :=
  if f.isComment context && token.kind ≠ .newline then []
  else
    match f.shape context with
    | .leaf (.quote _) => token.value.toList
    | _ => token.addition (f.isDblQuote (f.receiver context))

/-- What tokens add one after the other. -/
def contributions (f : Forest) (context : NodeId) : List Token → List Char
  | [] => []
  | token :: tokens =>
    f.contribution context token ++
      match f.feed context token with
      | (f, .ok context) => contributions f context tokens
      | (_, .error _) => []

theorem isDblQuote_of_shape {id : NodeId} {kind : Sequence} {children : List NodeId}
    (h : f.shape id = .seq kind children) : f.isDblQuote id = kind.isDblQuote := by
  rw [isDblQuote, h]
  cases kind <;> rfl

/-- The cursor knows what a token adds. -/
theorem At.contribution_eq (h : f.At strays context c) (hvalid : c.Valid) (token : Token) :
    f.contribution context token = c.contribution token := by
  obtain ⟨focus, plainPath⟩ := c
  obtain ⟨t, path, hshows, rfl, hfocus, hpath⟩ := h
  obtain rfl : path.map Numbered.Crumb.plain = plainPath := hpath
  have hshape := hshows.shape
  cases focus with
  | seq kind ts =>
    obtain ⟨id, parts, rfl, rfl⟩ := Growth.seq_of_focus hfocus
    have hshape : f.shape id = .seq kind (parts.map Numbered.Tree.id) := hshape
    simp only [contribution, receiver, isComment, Numbered.Tree.id, hshape]
    rw [isDblQuote_of_shape hshape]
    rfl
  | leaf l =>
    obtain ⟨id, rfl⟩ := Growth.leaf_of_focus hfocus
    have hshape : f.shape id = .leaf l := hshape
    obtain ⟨kind, older, rest, hpath, -, -⟩ :=
      Cursor.holder_of_valid hvalid rfl (by simp [Focus.label])
    rcases Cursor.leaf_of_valid hvalid with ⟨name, rfl⟩ | ⟨inner, rfl⟩ | rfl
    · obtain ⟨pid, older', rest', rfl, rfl, rfl⟩ := Growth.seq_of_plain hpath
      have hparent : f.parent? id = some pid := hshows.parent?
      have hholder : f.shape pid = .seq kind (id :: older'.map Numbered.Tree.id) :=
        hshows.shape_crumb
      simp only [contribution, receiver, isComment, Numbered.Tree.id, hshape, hparent,
        Option.getD_some]
      rw [isDblQuote_of_shape hholder]
      rfl
    · simp only [contribution, isComment, Numbered.Tree.id, hshape]
      rfl
    · by_cases hline : token.kind = .newline
      · have hnone : token.addition false = [] :=
          Token.addition_of_ne (by simp [hline]) (by simp [hline])
        simp only [contribution, receiver, isDblQuote, isComment, Numbered.Tree.id, hshape, hline,
          hnone]
        rfl
      · simp [contribution, isComment, Numbered.Tree.id, hshape, hline, Cursor.contribution]

theorem At.tree_eq (h : f.At strays context c) : f.tree root = c.tree := by
  obtain ⟨focus, plainPath⟩ := c
  obtain ⟨t, path, hshows, -, hfocus, hpath⟩ := h
  obtain ⟨whole, hwhole, hplain⟩ := hshows.whole
  have hroot : whole.id = root := hwhole.root
  rw [tree, ← hroot, treeTo_eq hwhole.hasTree hwhole.length_inner_lt, hplain, plain_of_focus hfocus,
    hpath]
  rfl

/-- The text grows with every token by what the token contributes. -/
theorem At.wordText_of_feedAll {tokens : List Token} {text : List Char}
    (h : f.At strays context c) (hvalid : c.Valid) (htext : HoldsText text (.ok c))
    (hrun : f.feedAll context tokens = (g, .ok last)) :
    (g.tree root).wordText = text ++ f.contributions context tokens := by
  induction tokens generalizing f context c strays text with
  | nil =>
    obtain ⟨rfl, -⟩ := Prod.mk.inj hrun
    rw [h.tree_eq, Cursor.tree, Cursor.wordText_plug, contributions, List.append_nil]
    exact htext.1
  | cons token tokens ih =>
    rw [feedAll] at hrun
    split at hrun
    · rename_i f' context' hfeed
      obtain ⟨c', hfeed', hvalid', hat'⟩ := h.step hvalid hfeed
      have hnext := Cursor.feed_holdsText hvalid htext token
      rw [hfeed'] at hnext
      rw [ih hat' hvalid' hnext hrun, contributions, hfeed, h.contribution_eq hvalid,
        List.append_assoc]
    · cases hrun

/-- Word text is neither lost nor duplicated nor reordered: the text of the script is what its
tokens contribute, one after the other. -/
theorem wordText_feedAll (tokens : List Token) (f : Forest) (context : NodeId)
    (h : feedAll {} root tokens = (f, .ok context)) :
    (f.tree root).wordText = contributions {} root tokens :=
  at_start.wordText_of_feedAll Cursor.valid_start ⟨rfl, by simp [Cursor.start]⟩ h

/-- A word with a substitution between double quotes, and a comment up to the end of the line. -/
def mixedTokens : List Token :=
  [⟨.identifier, "a", {}⟩, ⟨.dblQuote, "\"", {}⟩, ⟨.dollar, "$", {}⟩, ⟨.identifier, "x-", {}⟩,
    ⟨.pipe, "|", {}⟩, ⟨.backtick, "`", {}⟩, ⟨.quote, "'", {}⟩, ⟨.identifier, "c d", {}⟩,
    ⟨.backtick, "`", {}⟩, ⟨.dblQuote, "\"", {}⟩, ⟨.hash, "#", {}⟩, ⟨.identifier, "e", {}⟩,
    ⟨.newline, "\n", {}⟩]

theorem wordText_mixedTokens : (feedAll {} root mixedTokens).2 = .ok root ∧
    ((feedAll {} root mixedTokens).1.tree root).wordText = "a$x-|c d".toList := by
  have haccepted : (feedAll {} root mixedTokens).2 = .ok root := by decide
  have htext := wordText_feedAll mixedTokens (feedAll {} root mixedTokens).1 root
    (Prod.ext rfl haccepted)
  exact ⟨haccepted, htext.trans (by decide)⟩

end Forest

end PocketShell
