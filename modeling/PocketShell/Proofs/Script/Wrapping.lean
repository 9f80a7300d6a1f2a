import PocketShell.Proofs.Quoting
import PocketShell.Proofs.Script.Composition
import PocketShell.Proofs.Script.Shape
import PocketShell.Proofs.Script.Statements

/-!
# Scripts as parts of a line

A script that can be read is read as one command when it stands in parentheses, its last line ended,
and so it can stand beside an operator or in a substitution.

* `Tree.grouped`, `Tree.captured` : the command that a script in parentheses is, and the word that
  it is in a substitution between double quotes;
* `Forest.parse_grouped` : a script in parentheses;
* `Forest.parse_grouped_operator` : on the left of an operator, as in `Forest.parse_grouped_cat` and
  `Forest.parse_grouped_quoted`;
* `Forest.parse_printf_grouped` : on the right of a pipe that `printf` writes to;
* `Forest.parse_printf_captured` : as what `printf` writes.
-/

namespace PocketShell

open Cursor Relation

/-- A word without backslashes. -/
theorem Lexes.word {rest : List Char} (c : Char) (cs : List Char)
    (hcs : (c :: cs).all isWordChar = true) (hrest : Bounded rest = true) :
    Lexes (c :: cs ++ rest) .identifier (c :: cs) rest := by
  rw [List.all_cons, Bool.and_eq_true] at hcs
  intro p
  refine ⟨(p.after c).past cs, ?_⟩
  rw [List.cons_append, Tape.tokenFrom_word hcs.1, Tape.word_append _ hcs.2, word_of_bounded hrest]
  simp [Except.map]

namespace Tree

/-- Statements in parentheses, as a command. -/
def grouped (body : List Tree) : Tree := .seq (.command false) [.seq (.group true) body]

/-- What statements write, as a word. -/
def captured (body : List Tree) : Tree := .seq .dblQuote [.seq (.sub .dollar true) body]

/-- The words of a `printf` that writes one more word. -/
def printfWith (parts : List Tree) : List Tree :=
  .leaf (.ident "printf") :: gapLeaf :: .leaf (.ident "%s") :: gapLeaf :: parts

theorem reverse_printfWith (parts : List Tree) :
    (printfWith parts).reverse = parts.reverse ++ (printfWith []).reverse := by
  simp [printfWith]

variable {body body' : List Tree}

theorem literal_grouped (h : body.map literal = body'.map literal) :
    (grouped body).literal = (grouped body').literal := by
  simp [grouped, literal_seq, h]

/-- White space behind a group leaves no trace. -/
theorem spaced_grouped (body : List Tree) : (grouped body).spaced = grouped body := rfl

theorem literal_captured (h : body.map literal = body'.map literal) :
    (captured body).literal = (captured body').literal := by
  simp [captured, literal_seq, h]

end Tree

/-! ## Up to the end of the inside -/

namespace Base

/-- The inside of a group that begins a command. -/
def group (path : List Crumb) : Base := ⟨.group false, [], .seq (.command false) [] :: path⟩

/-- The inside of a substitution between double quotes. -/
def quotedSub (older : List Tree) (path : List Crumb) : Base :=
  ⟨.sub .dollar true, [], .seq .dblQuote [] :: .seq (.command false) older :: path⟩

variable {f : Forest} {p : String}

/-- A script is read up to the parenthesis that closes its group. -/
theorem reads_group (h : Forest.parse (Source.ofText p) = .ok f) (path : List Crumb)
    (hfree : (group path).NoBacktick) :
    ∃ body : List Tree, body.map Tree.literal = f.statements.map Tree.literal ∧ ∀ rest,
      Reads ((group path).start, p.toList ++ '\n' :: ')' :: rest)
        (⟨.seq (.group true) body.reverse, .seq (.command false) [] :: path⟩, rest) := by
  obtain ⟨parts, hparts, hreads⟩ := reads_line h (group path) rfl hfree
  refine ⟨parts.reverse, hparts, fun rest => (hreads (')' :: rest)).tail ?_⟩
  refine step_of_lexes (Lexes.single .rparen rfl (by simp) rfl) rfl fun _ => ?_
  rw [List.reverse_reverse, show (group path).older = [] from rfl, List.append_nil]
  rfl

/-- A script is read up to the end of the quotes around its substitution. -/
theorem reads_quotedSub (h : Forest.parse (Source.ofText p) = .ok f) (older : List Tree)
    (path : List Crumb) :
    ∃ body : List Tree, body.map Tree.literal = f.statements.map Tree.literal ∧ ∀ rest,
      Reads ((quotedSub older path).start, p.toList ++ '\n' :: ')' :: '"' :: rest)
        (⟨.seq (.command false) (Tree.captured body :: older), path⟩, rest) := by
  have hfree : (quotedSub older path).NoBacktick := by
    intro t older kind parts rest
    simp [quotedSub, ascend, substitution]
  obtain ⟨parts, hparts, hreads⟩ := reads_line h (quotedSub older path) rfl hfree
  refine ⟨parts.reverse, hparts, fun rest => ?_⟩
  have hparen : Step (⟨.seq (.sub .dollar true) parts,
        .seq .dblQuote [] :: .seq (.command false) older :: path⟩, ')' :: '"' :: rest)
      (⟨.seq .dblQuote [.seq (.sub .dollar true) parts.reverse],
        .seq (.command false) older :: path⟩, '"' :: rest) :=
    step_of_lexes (Lexes.single .rparen rfl (by simp) rfl) rfl fun _ => rfl
  have hquote : Step (⟨.seq .dblQuote [.seq (.sub .dollar true) parts.reverse],
        .seq (.command false) older :: path⟩, '"' :: rest)
      (⟨.seq (.command false) (Tree.captured parts.reverse :: older), path⟩, rest) :=
    step_of_lexes (Lexes.single .dblQuote rfl (by simp) rfl) rfl fun _ => rfl
  have hbody := hreads (')' :: '"' :: rest)
  rw [show (quotedSub older path).older = [] from rfl, List.append_nil] at hbody
  exact (hbody.tail hparen).tail hquote

end Base

/-! ## Lines -/

namespace Forest

open PocketShell.Tree Base

variable {f : Forest} {p : String} {text : List Char} {parts : List Tree}

/-- A script in parentheses begins a line. -/
theorem reads_grouped (h : parse (Source.ofText p) = .ok f) :
    ∃ body : List Tree, body.map literal = f.statements.map literal ∧ ∀ rest,
      Reads (Cursor.start, '(' :: (p.toList ++ '\n' :: ')' :: rest))
        (⟨.seq (.group true) body.reverse, [.seq (.command false) [], .seq .script []]⟩, rest) := by
  obtain ⟨body, hbody, hreads⟩ := reads_group h [.seq .script []] (by
    intro t older kind parts rest
    simp [group, ascend, substitution])
  refine ⟨body, hbody, fun rest => .head ?_ (hreads rest)⟩
  exact step_of_lexes (Lexes.single .lparen rfl (by simp) rfl) rfl fun _ => rfl

theorem ends_grouped (body : List Tree) (path : List Crumb) :
    Ends ⟨.seq (.group true) body.reverse, .seq (.command false) [] :: path⟩ path
      (grouped body) := by
  have h : Ends ⟨.seq (.group true) body.reverse, .seq (.command false) [] :: path⟩ path
      (grouped body.reverse.reverse) := Ends.group
  rwa [List.reverse_reverse] at h

theorem ends_words (h : Cursor.endsInWord parts.reverse = true) (target : Bool)
    (path : List Crumb) :
    Ends ⟨.seq (.command target) parts.reverse, path⟩ path (.seq (.command target) parts) := by
  have hwords : Ends ⟨.seq (.command target) parts.reverse, path⟩ path
      (.seq (.command target) parts.reverse.reverse) := Ends.words h
  rwa [List.reverse_reverse] at hwords

/-- A line that ends with a statement. -/
theorem parse_of_ends {line : String} {c : Cursor} {t : Tree}
    (hreaches : Reaches Cursor.start line.toList c []) (hends : Ends c [.seq .script []] t) :
    ∃ g, parse (Source.ofText line) = .ok g ∧ g.statements = [t] := by
  have h := parse_of_reaches hreaches (hends.mayEnd rfl) hends.tree_eq
  rwa [String.ofList_toList] at h

theorem parse_grouped (h : parse (Source.ofText p) = .ok f) :
    ∃ g, parse (Source.ofText ("(" ++ p ++ "\n)")) = .ok g ∧
      g.statements.map literal = [(grouped f.statements).literal] := by
  obtain ⟨body, hbody, hreads⟩ := reads_grouped h
  have hline : ("(" ++ p ++ "\n)").toList = '(' :: (p.toList ++ '\n' :: ')' :: []) := by simp
  obtain ⟨g, hg, hstatements⟩ := parse_of_ends (hline ▸ (hreads []).reaches) (ends_grouped body _)
  refine ⟨g, hg, ?_⟩
  rw [hstatements, ← literal_grouped hbody]
  rfl

/-- A script in parentheses on the left of an operator, and words on its right. -/
theorem parse_grouped_operator (h : parse (Source.ofText p) = .ok f) (op : JoinOp)
    (hgap : ∀ ch ∈ text.head?, isGap ch = false)
    (hreaches : ∀ path, Reaches ⟨.seq (.command op.isRedirect) [], path⟩ text
      ⟨.seq (.command op.isRedirect) parts.reverse, path⟩ [])
    (hword : Cursor.endsInWord parts.reverse = true) {line : String}
    (hline : line.toList = '(' :: (p.toList ++ '\n' :: ')' :: ' ' :: (op.sign ++ ' ' :: text))) :
    ∃ g, parse (Source.ofText line) = .ok g ∧ g.statements.map literal =
      [(Tree.join op (grouped f.statements) (.seq (.command op.isRedirect) parts)).literal] := by
  have hop : op.precedence < 4 := op.precedence_lt
  obtain ⟨body, hbody, hreads⟩ := reads_grouped h
  have hleft := (hreads _).trans (reads_operator (ends_grouped body [.seq .script []])
    (Nat.le_of_lt hop) (fun _ => ⟨_, rfl⟩) (fits_seq _ _ _ _) hgap)
  rw [spaced_grouped] at hleft
  obtain ⟨g, hg, hstatements⟩ := parse_of_ends
    (hline ▸ Reads.trans_reaches hleft (hreaches _)) (.join (ends_words hword _ _) hop)
  refine ⟨g, hg, ?_⟩
  simp only [hstatements, List.map_cons, List.map_nil, literal, literal_grouped hbody]

theorem parse_grouped_cat (h : parse (Source.ofText p) = .ok f) :
    ∃ g, parse (Source.ofText ("(" ++ p ++ "\n) | cat")) = .ok g ∧ g.statements.map literal =
      [(Tree.join .pipe (grouped f.statements)
        (.seq (.command false) [.leaf (.ident "cat")])).literal] := by
  have hreaches (path : List Crumb) : Reaches ⟨.seq (.command false) [], path⟩ ['c', 'a', 't']
      ⟨.seq (.command false) [.leaf (.ident "cat")].reverse, path⟩ [] :=
    Reads.reaches (.single (step_of_lexes (Lexes.word 'c' ['a', 't'] (by decide) rfl) rfl
      fun _ => rfl))
  exact parse_grouped_operator h .pipe (by simp [isGap]) hreaches rfl (by simp [JoinOp.sign])

/-- A script in parentheses on the left of a redirection, and a quoted word on its right. -/
theorem parse_grouped_quoted (h : parse (Source.ofText p) = .ok f) {op : JoinOp}
    (hop : op.isRedirect = true) (cs : List Char) {line : String}
    (hline : line.toList = '(' :: (p.toList ++ '\n' :: ')' :: ' ' ::
      (op.sign ++ ' ' :: Quoting.single.encode cs))) :
    ∃ g parts texts, parse (Source.ofText line) = .ok g ∧
      g.statements.map literal =
        [(Tree.join op (grouped f.statements) (.seq (.command true) parts)).literal] ∧
      List.Forall₂ Quoting.Spells parts texts ∧ texts ≠ [] ∧ texts.flatten = cs := by
  obtain ⟨parts, hword, texts, hspells, htexts⟩ := Quoting.readsWord_single true cs
  have hreaches (path : List Crumb) : Reaches ⟨.seq (.command op.isRedirect) [], path⟩
      (Quoting.single.encode cs) ⟨.seq (.command op.isRedirect) parts.reverse, path⟩ [] := by
    simpa [hop] using hword.reaches [] path [] rfl
  obtain ⟨g, hg, hstatements⟩ :=
    parse_grouped_operator h op (isGap_of_opens hword.opens) hreaches hword.endsInWord hline
  rw [hop] at hstatements
  exact ⟨g, parts, texts, hg, hstatements, hspells, Quoting.texts_ne_nil hword hspells, htexts⟩

/-- What begins a line that writes one word as it is. -/
def printfChars : List Char := ['p', 'r', 'i', 'n', 't', 'f', ' ', '%', 's', ' ']

theorem reads_printf {rest : List Char} (hrest : ∀ ch ∈ rest.head?, isGap ch = false) :
    Reads (Cursor.start, printfChars ++ rest)
      (⟨.seq (.command false) (printfWith []).reverse, [.seq .script []]⟩, rest) := by
  have hname : Step (Cursor.start, printfChars ++ rest)
      (⟨.seq (.command false) [.leaf (.ident "printf")], [.seq .script []]⟩,
        ' ' :: '%' :: 's' :: ' ' :: rest) :=
    step_of_lexes (Lexes.word 'p' ['r', 'i', 'n', 't', 'f'] (by decide) rfl) rfl fun _ => rfl
  have hgap : Step (⟨.seq (.command false) [.leaf (.ident "printf")], [.seq .script []]⟩,
        ' ' :: '%' :: 's' :: ' ' :: rest)
      (⟨.seq (.command false) [gapLeaf, .leaf (.ident "printf")], [.seq .script []]⟩,
        '%' :: 's' :: ' ' :: rest) :=
    step_of_lexes (Lexes.space (by simp [isGap])) rfl fun _ => rfl
  have hformat : Step
      (⟨.seq (.command false) [gapLeaf, .leaf (.ident "printf")], [.seq .script []]⟩,
        '%' :: 's' :: ' ' :: rest)
      (⟨.seq (.command false) [.leaf (.ident "%s"), gapLeaf, .leaf (.ident "printf")],
        [.seq .script []]⟩, ' ' :: rest) :=
    step_of_lexes (Lexes.word '%' ['s'] (by decide) rfl) rfl fun _ => rfl
  refine .head hname (.head hgap (.head hformat (.single ?_)))
  exact step_of_lexes (Lexes.space hrest) rfl fun _ => rfl

/-- A script in parentheses on the right of a pipe that `printf` writes a word to. -/
theorem parse_printf_grouped (h : parse (Source.ofText p) = .ok f)
    (hword : ReadsWord false text parts) {line : String}
    (hline : line.toList = printfChars ++
      (text ++ ' ' :: (JoinOp.pipe.sign ++ ' ' :: '(' :: (p.toList ++ ['\n', ')'])))) :
    ∃ g, parse (Source.ofText line) = .ok g ∧ g.statements.map literal =
      [(Tree.join .pipe (.seq (.command false) (printfWith (parts ++ [gapLeaf])))
        (grouped f.statements)).literal] := by
  have hends : Cursor.endsInWord (printfWith parts).reverse = true := by
    rw [reverse_printfWith]
    exact endsInWord_append _ hword.endsInWord
  have hspaced : (Tree.seq (.command false) (printfWith parts)).spaced =
      .seq (.command false) (printfWith (parts ++ [gapLeaf])) := if_pos hends
  obtain ⟨body, hbody, hreads⟩ := reads_group h
    [.join .pipe (.seq (.command false) (printfWith (parts ++ [gapLeaf]))), .seq .script []] (by
      intro t older kind parts rest
      simp [group, ascend, substitution])
  have hgap : ∀ ch ∈ ('(' :: (p.toList ++ ['\n', ')'])).head?, isGap ch = false := by simp [isGap]
  have hpipe := reads_operator (ends_words hends false [.seq .script []])
    (Nat.le_of_lt JoinOp.pipe.precedence_lt) (fun hredirect => by cases hredirect) (fits_seq _ _ _ _) hgap
  rw [hspaced] at hpipe
  have hopen : Step (⟨.seq (.command false) [], [.join .pipe (.seq (.command false)
        (printfWith (parts ++ [gapLeaf]))), .seq .script []]⟩, '(' :: (p.toList ++ ['\n', ')']))
      ((group [.join .pipe (.seq (.command false) (printfWith (parts ++ [gapLeaf]))),
        .seq .script []]).start, p.toList ++ ['\n', ')']) :=
    step_of_lexes (Lexes.single .lparen rfl (by simp) rfl) rfl fun _ => rfl
  have hleft : Reaches Cursor.start line.toList
      ⟨.seq (.command false) (printfWith parts).reverse, [.seq .script []]⟩
      (' ' :: (JoinOp.pipe.sign ++ ' ' :: '(' :: (p.toList ++ ['\n', ')']))) := by
    rw [hline, reverse_printfWith]
    exact Reads.trans_reaches (reads_printf (isGap_of_opens (opens_append hword.opens)))
      (hword.reaches _ _ _ rfl)
  obtain ⟨g, hg, hstatements⟩ := parse_of_ends
    (hleft.trans rfl (Reads.reaches (hpipe.trans (.head hopen (hreads [])))))
    (.join (ends_grouped body _) JoinOp.pipe.precedence_lt)
  have hsame := literal_grouped hbody
  refine ⟨g, hg, ?_⟩
  simpa [hstatements, literal] using hsame

/-- A script as the word that `printf` writes. -/
theorem parse_printf_captured (h : parse (Source.ofText p) = .ok f) :
    ∃ g, parse (Source.ofText ("printf %s \"$(" ++ p ++ "\n)\"")) = .ok g ∧
      g.statements.map literal =
        [(Tree.seq (.command false) (printfWith [captured f.statements])).literal] := by
  obtain ⟨body, hbody, hreads⟩ := reads_quotedSub h (printfWith []).reverse [.seq .script []]
  have hline : ("printf %s \"$(" ++ p ++ "\n)\"").toList =
      printfChars ++ '"' :: '$' :: '(' :: (p.toList ++ ['\n', ')', '"']) := by
    simp [printfChars]
  have hquote : Step (⟨.seq (.command false) (printfWith []).reverse, [.seq .script []]⟩,
        '"' :: '$' :: '(' :: (p.toList ++ ['\n', ')', '"']))
      (⟨.seq .dblQuote [], [.seq (.command false) (printfWith []).reverse, .seq .script []]⟩,
        '$' :: '(' :: (p.toList ++ ['\n', ')', '"'])) :=
    step_of_lexes (Lexes.single .dblQuote rfl (by simp) rfl) rfl fun _ => rfl
  have hopen : Step (⟨.seq .dblQuote [],
        [.seq (.command false) (printfWith []).reverse, .seq .script []]⟩,
        '$' :: '(' :: (p.toList ++ ['\n', ')', '"']))
      ((quotedSub (printfWith []).reverse [.seq .script []]).start, p.toList ++ ['\n', ')', '"']) :=
    step_of_lexes Lexes.dollarParen rfl fun _ => rfl
  have hwhole := (reads_printf (by simp [isGap])).trans (.head hquote (.head hopen (hreads [])))
  obtain ⟨g, hg, hstatements⟩ := parse_of_ends (hline ▸ Reads.reaches hwhole) (Ends.words rfl)
  refine ⟨g, hg, ?_⟩
  have hsame := literal_captured hbody
  simp [hstatements, printfWith, literal_seq, hsame]

end Forest

end PocketShell
