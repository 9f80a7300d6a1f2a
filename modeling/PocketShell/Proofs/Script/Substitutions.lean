import PocketShell.Proofs.Script.Composition
import PocketShell.Proofs.Script.Moments

/-!
# Both styles of substitution

A script without backticks may stand in a substitution of either style, inside double quotes or not,
and is the same script there.

* `Forest.lastContext` : the node that the last token of a source leads to, which is where the
  cursor stands (`Forest.at_lastContext`);
* `SubStyle.enclose` : a script as a substitution;
* `SubStyle.parse_enclose` : what that is parsed to, if the script ends neither in a comment nor,
  for backticks, with a closed group. Such a group refuses the backtick
  (`SubStyle.parse_enclose_group`).

`Forest.parse_substitutions` puts these together.
-/

namespace PocketShell

open Relation

/-! ## Where a parse ends -/

/-- Whether a node is a group that a parenthesis has closed. -/
def Forest.isClosedGroup (f : Forest) (id : NodeId) : Bool :=
  match f.shape id with
  | .seq (.group true) _ => true
  | _ => false

def Focus.isClosedGroup : Focus → Bool
  | seq (.group true) _ => true
  | _ => false

theorem Focus.isClosedGroup_iff {focus : Focus} :
    focus.isClosedGroup = true ↔ ∃ parts, focus = .seq (.group true) parts := by
  unfold isClosedGroup
  split <;> simp_all

namespace Forest

open Cursor

variable {f : Forest} {strays : List NodeId} {context : NodeId} {c c' : Cursor} {s : Source}

/-- The context after some moments. -/
def contextAfter (context : NodeId) (ms : List Moment) : NodeId :=
  ms.foldl (fun _ m => m.next) context

/-- The context after the last token of a source. -/
def lastContext (s : Source) : NodeId := contextAfter root (moments s)

theorem At.isComment_eq (h : f.At strays context c) :
    f.isComment context = Cursor.isComment c.focus.tree := by
  obtain ⟨t, path, hshows, rfl, hfocus, -⟩ := h
  exact hshows.isComment_eq hfocus

theorem At.isClosedGroup_eq (h : f.At strays context c) :
    f.isClosedGroup context = c.focus.isClosedGroup := by
  obtain ⟨focus, plainPath⟩ := c
  obtain ⟨t, path, hshows, rfl, hfocus, -⟩ := h
  rw [isClosedGroup, hshows.shape]
  cases focus with
  | leaf l =>
    obtain ⟨id, rfl⟩ := Growth.leaf_of_focus hfocus
    rfl
  | seq kind parts =>
    obtain ⟨id, parts, rfl, rfl⟩ := Growth.seq_of_focus hfocus
    cases kind with
    | group closed => cases closed <;> rfl
    | script | command | dblQuote | sub => rfl

/-- A cursor that reads a text to its end stands where the last token leads. -/
theorem at_contextAfter {t : Tape} {r : Except SyntaxError Cursor} (h : c.Parses t r)
    (hr : r = .ok c') (hat : f.At strays context c) (hvalid : c.Valid) (hs : s.Shows t) :
    ∃ g strays', (f.parseFrom context s).2 = .ok g ∧
      g.At strays' (contextAfter context (f.momentsFrom context s)) c' ∧ c'.Valid := by
  induction h generalizing f context s strays with
  | @step c c₁ t t' token r hnext hfeed _ ih =>
    obtain ⟨s', f', context', hnext', hfeed', hat', hvalid', hs'⟩ :=
      hat.takes hvalid hs hnext hfeed
    rw [parseFrom_step hnext' hfeed', momentsFrom_step hnext' hfeed']
    exact ih hr hat' hvalid' hs'
  | ended hnext hcomplete =>
    obtain rfl := Except.ok.inj hr
    obtain ⟨s', hnext', -⟩ := nextToken_halts hat hs hnext
    have hcheck := checkComplete_eq hat hvalid
    rw [hcomplete, if_pos rfl] at hcheck
    rw [parseFrom_end hnext' hcheck, momentsFrom_halt hnext']
    exact ⟨f, strays, rfl, hat, hvalid⟩
  | refused | cutShort | unclosed => cases hr

theorem at_lastContext {p : String} (h : Cursor.start.Parses ⟨{}, p.toList⟩ (.ok c)) :
    ∃ g strays, parse (Source.ofText p) = .ok g ∧ g.At strays (lastContext (Source.ofText p)) c ∧
      c.Valid :=
  at_contextAfter h rfl at_start valid_start (Source.shows_ofText p)

/-- The cursor of a script stands where its parse ends. -/
theorem parses_of_parse {p : String} (h : parse (Source.ofText p) = .ok f) :
    ∃ c, Cursor.start.Parses ⟨{}, p.toList⟩ (.ok c) ∧ c.Valid ∧ f.statements = c.statements ∧
      f.isComment (lastContext (Source.ofText p)) = Cursor.isComment c.focus.tree ∧
      f.isClosedGroup (lastContext (Source.ofText p)) = c.focus.isClosedGroup := by
  obtain ⟨c, hparses, hvalid, hstatements⟩ := parses_of_parse_eq_ok h
  obtain ⟨g, strays, hg, hat, -⟩ := at_lastContext hparses
  obtain rfl := Except.ok.inj (h.symm.trans hg)
  exact ⟨c, hparses, hvalid, hstatements, hat.isComment_eq, hat.isClosedGroup_eq⟩

end Forest

/-! ## Substitutions -/

namespace SubStyle

open Cursor Forest

def opening : SubStyle → List Char
  | dollar => ['$', '(']
  | backtick => ['\x60']

def closing : SubStyle → Char
  | dollar => ')'
  | backtick => '\x60'

/-- The kind of the token that begins a substitution. -/
def opener : SubStyle → TokenKind
  | dollar => .dollarParen
  | backtick => .backtick

/-- The kind of the token that ends a substitution. -/
def closer : SubStyle → TokenKind
  | dollar => .rparen
  | backtick => .backtick

def quoteMarks (quoted : Bool) : List Char := if quoted then ['"'] else []

/-- A script as a substitution, which may stand between double quotes. -/
def enclose (style : SubStyle) (quoted : Bool) (script : List Char) : List Char :=
  quoteMarks quoted ++ (style.opening ++ (script ++ style.closing :: quoteMarks quoted))

/-- The word that a substitution is. -/
def word (style : SubStyle) (quoted : Bool) (body : List Tree) : Tree :=
  if quoted then .seq .dblQuote [.seq (.sub style true) body] else .seq (.sub style false) body

/-- The inside of a substitution that is the first word of a script. -/
def inside (style : SubStyle) (quoted : Bool) : Base where
  kind := .sub style quoted
  older := []
  above := (if quoted then [.seq .dblQuote []] else []) ++
    [.seq (.command false) [], .seq .script []]

variable {style : SubStyle} {p : String} {f : Forest} {c d : Cursor}

theorem standsAlone_closing (style : SubStyle) : StandsAlone style.closing style.closer := by
  cases style with
  | dollar => exact standsAlone_rparen
  | backtick => exact standsAlone_backtick

theorem lexes_opening (style : SubStyle) (rest : List Char) :
    Lexes (style.opening ++ rest) style.opener style.opening rest := by
  cases style with
  | dollar => exact Lexes.dollarParen
  | backtick => exact Lexes.single .backtick rfl (by simp) rfl

theorem step_quoteMark {rest : List Char} (hc : c.wantsVerbatim = false)
    (hfeed : ∀ q, c.feed ⟨.dblQuote, String.ofList ['"'], q⟩ = .ok d) :
    Step (c, '"' :: rest) (d, rest) :=
  step_of_lexes (Lexes.single .dblQuote rfl (by simp) rfl) hc hfeed

/-- A substitution begins a script. -/
theorem reads_opening (style : SubStyle) (quoted : Bool) (rest : List Char) :
    Reads (Cursor.start, quoteMarks quoted ++ (style.opening ++ rest))
      ((style.inside quoted).start, rest) := by
  cases quoted with
  | false =>
    exact .single (step_of_lexes (style.lexes_opening rest) rfl fun _ => by cases style <;> rfl)
  | true =>
    refine .head (step_quoteMark rfl fun _ => rfl) (.single ?_)
    exact step_of_lexes (style.lexes_opening rest) rfl fun _ => by cases style <;> rfl

/-- Behind a substitution the script may end. -/
theorem reads_closing (style : SubStyle) (quoted : Bool) (parts : List Tree) :
    ∃ next, close (style.inside quoted).kind parts (style.inside quoted).above = .ok next ∧
      Reads (next, quoteMarks quoted)
        (⟨.seq (.command false) [style.word quoted parts.reverse], [.seq .script []]⟩, []) := by
  cases quoted with
  | false => exact ⟨_, rfl, .refl⟩
  | true => exact ⟨_, rfl, .single (step_quoteMark rfl fun _ => rfl)⟩

/-- The inside of a substitution is read to its end, if it has no backticks. -/
theorem reads_inside (hparses : Cursor.start.Parses ⟨{}, p.toList⟩ (.ok c))
    (hfree : '\x60' ∉ p.toList) (style : SubStyle) (quoted : Bool) :
    ∃ d left, (style.inside quoted).Ends c d left ∧
      Reads (Cursor.start, style.enclose quoted p.toList)
        (d, left ++ style.closing :: quoteMarks quoted) := by
  obtain ⟨d, left, hends, hreads⟩ := hparses.reads rfl valid_start rfl (.inr hfree)
    (Base.holds_start (style.inside quoted)) style.standsAlone_closing.ends
  exact ⟨d, left, hends, (style.reads_opening quoted _).trans (hreads _)⟩

/-- A script in a substitution is what it is outside. -/
theorem parse_enclose (h : parse (Source.ofText p) = .ok f) (hfree : '\x60' ∉ p.toList)
    (hcomment : f.isComment (lastContext (Source.ofText p)) = false)
    (hgroup : style = .dollar ∨ f.isClosedGroup (lastContext (Source.ofText p)) = false)
    (quoted : Bool) {text : String} (htext : text.toList = style.enclose quoted p.toList) :
    ∃ g, parse (Source.ofText text) = .ok g ∧
      g.statements.map Tree.literal =
        [.seq (.command false) [style.word quoted (f.statements.map Tree.literal)]] := by
  obtain ⟨c, hparses, hvalid, hstatements, hc, hg⟩ := parses_of_parse h
  obtain ⟨d, left, hends, hreads⟩ := reads_inside hparses hfree style quoted
  have hverbatim := hends.holds.wantsVerbatim_eq.trans hends.verbatim
  have htakes : (style.inside quoted).Takes c ⟨style.closer, String.ofList [style.closing], {}⟩ _ :=
    Base.takes_feed hends.holds hvalid hends.complete hends.verbatim rfl
      (by cases style <;> simp [closer]) fun hleaf => by
        rw [hc, hleaf] at hcomment
        cases hcomment
  obtain ⟨parts, hfeed, hparts⟩ : ∃ parts,
      d.feed ⟨style.closer, String.ofList [style.closing], {}⟩ =
        close (style.inside quoted).kind (parts ++ []) (style.inside quoted).above ∧
      (Tree.seq .script parts.reverse).literal = c.tree.literal := by
    cases style with
    | dollar => exact htakes.rparen rfl rfl
    | backtick =>
      have hnot (parts : List Tree) (heq : c.focus = .seq (.group true) parts) : False := by
        simp [hg, heq, Focus.isClosedGroup] at hgroup
      exact htakes.backtick rfl rfl hnot
  rw [List.append_nil] at hfeed
  obtain ⟨next, hnext, hrest⟩ := style.reads_closing quoted parts
  have hclose := step_alone style.standsAlone_closing hends.noToken hverbatim
    (fun _ => hfeed.trans hnext) (quoteMarks quoted)
  obtain ⟨g, hparse, hbody⟩ := parse_of_reads ((hreads.tail hclose).trans hrest)
    (by cases quoted <;> rfl) rfl
  rw [← htext, String.ofList_toList] at hparse
  refine ⟨g, hparse, ?_⟩
  rw [hbody, hstatements, ← literal_statements hvalid hparts]
  cases quoted <;> simp [word, Focus.tree, Tree.literal_seq]

/-- Behind a closed group the backtick that should end a substitution is refused. -/
theorem parse_enclose_group (h : parse (Source.ofText p) = .ok f) (hfree : '\x60' ∉ p.toList)
    (hgroup : f.isClosedGroup (lastContext (Source.ofText p)) = true) (quoted : Bool)
    {text : String} (htext : text.toList = backtick.enclose quoted p.toList) :
    parse (Source.ofText text) =
      .error (.wrong ⟨.unexpectedToken,
        ({} : Position).past (quoteMarks quoted ++ ('\x60' :: p.toList)), some "`"⟩) := by
  obtain ⟨c, hparses, hvalid, -, -, hg⟩ := parses_of_parse h
  obtain ⟨d, left, hends, hreads⟩ := reads_inside hparses hfree backtick quoted
  obtain ⟨parts, hfocus⟩ := Focus.isClosedGroup_iff.1 (hg.symm.trans hgroup)
  obtain ⟨taken, htaken, hgo⟩ := hreads.parses {}
  have hsplit : (quoteMarks quoted ++ '\x60' :: p.toList) ++ '\x60' :: quoteMarks quoted =
      (taken ++ left) ++ '\x60' :: quoteMarks quoted := by
    simpa [enclose, opening, closing] using htaken
  have hplace := List.append_cancel_right hsplit
  have hrefused := Parses.refused
    (nextToken_alone standsAlone_backtick hends.noToken
      (hends.holds.wantsVerbatim_eq.trans hends.verbatim) (({} : Position).past taken)
      (quoteMarks quoted))
    (Base.feed_backtick_of_group hends.holds hvalid hfocus rfl)
  have hwhole := hgo _ hrefused
  rw [← Position.past_append, ← hplace, ← htext] at hwhole
  exact parse_of_parses hwhole

end SubStyle

namespace Forest

open SubStyle

/-- Both styles of substitution are the same to a script without backticks that does not end in a
comment, inside double quotes as well; but a closed group at the end of the script takes no
backtick. -/
theorem parse_substitutions (p : String) (f : Forest) (h : parse (Source.ofText p) = .ok f)
    (hfree : '\x60' ∉ p.toList) (hcomment : f.isComment (lastContext (Source.ofText p)) = false) :
    (∃ g, parse (Source.ofText ("$(" ++ p ++ ")")) = .ok g ∧ g.statements.map Tree.literal =
        [.seq (.command false) [.seq (.sub .dollar false) (f.statements.map Tree.literal)]]) ∧
      (∃ g, parse (Source.ofText ("\"$(" ++ p ++ ")\"")) = .ok g ∧ g.statements.map Tree.literal =
        [.seq (.command false) [.seq .dblQuote
          [.seq (.sub .dollar true) (f.statements.map Tree.literal)]]]) ∧
      (f.isClosedGroup (lastContext (Source.ofText p)) = false →
        (∃ g, parse (Source.ofText ("`" ++ p ++ "`")) = .ok g ∧ g.statements.map Tree.literal =
          [.seq (.command false) [.seq (.sub .backtick false) (f.statements.map Tree.literal)]]) ∧
        ∃ g, parse (Source.ofText ("\"`" ++ p ++ "`\"")) = .ok g ∧ g.statements.map Tree.literal =
          [.seq (.command false) [.seq .dblQuote
            [.seq (.sub .backtick true) (f.statements.map Tree.literal)]]]) ∧
      (f.isClosedGroup (lastContext (Source.ofText p)) = true →
        parse (Source.ofText ("`" ++ p ++ "`")) = .error (.wrong
          ⟨.unexpectedToken, ({} : Position).past ("`" ++ p).toList, some "`"⟩) ∧
        parse (Source.ofText ("\"`" ++ p ++ "`\"")) = .error (.wrong
          ⟨.unexpectedToken, ({} : Position).past ("\"`" ++ p).toList, some "`"⟩)) := by
  refine ⟨?_, ?_, fun hgroup => ⟨?_, ?_⟩, fun hgroup => ⟨?_, ?_⟩⟩
  · exact parse_enclose h hfree hcomment (.inl rfl) false
      (by simp [enclose, quoteMarks, opening, closing])
  · exact parse_enclose h hfree hcomment (.inl rfl) true
      (by simp [enclose, quoteMarks, opening, closing])
  · exact parse_enclose h hfree hcomment (.inr hgroup) false
      (by simp [enclose, quoteMarks, opening, closing])
  · exact parse_enclose h hfree hcomment (.inr hgroup) true
      (by simp [enclose, quoteMarks, opening, closing])
  · rw [parse_enclose_group h hfree hgroup false (by simp [enclose, quoteMarks, opening, closing])]
    simp [quoteMarks]
  · rw [parse_enclose_group h hfree hgroup true (by simp [enclose, quoteMarks, opening, closing])]
    simp [quoteMarks]

/-- A script with a group that is not its end. -/
theorem parse_substitutions_bareDollar :
    ∃ f, parse (Source.ofText "(a)\n$") = .ok f ∧ '\x60' ∉ "(a)\n$".toList ∧
      f.isComment (lastContext (Source.ofText "(a)\n$")) = false ∧
      ∃ g, parse (Source.ofText "\"`(a)\n$`\"") = .ok g ∧ g.statements.map Tree.literal =
        [.seq (.command false) [.seq .dblQuote [.seq (.sub .backtick true)
          [.seq (.command false) [.seq (.group true) [.seq (.command false) [.leaf (.ident "a")]]],
            .seq (.command false) [.leaf (.ident "$")]]]]] := by
  have hparses : Cursor.start.Parses ⟨{}, "(a)\n$".toList⟩
      (.ok ⟨.leaf (.var ""), [.seq (.command false) [], .seq .script
        [.seq (.command false)
          [.seq (.group true) [.seq (.command false) [.leaf (.ident "a")]]]]]⟩) :=
    .step rfl rfl (.step rfl rfl (.step rfl rfl (.step rfl rfl (.step rfl rfl (.ended rfl rfl)))))
  have hfree : '\x60' ∉ "(a)\n$".toList := by decide
  obtain ⟨f, strays, hf, hat, hvalid⟩ := at_lastContext hparses
  obtain ⟨-, -, hbacktick, -⟩ := parse_substitutions "(a)\n$" f hf hfree hat.isComment_eq
  obtain ⟨-, g, hg, hbody⟩ := hbacktick hat.isClosedGroup_eq
  refine ⟨f, hf, hfree, hat.isComment_eq, g, hg, ?_⟩
  rw [hbody, hat.statements_eq hvalid]
  rfl

/-- A group as the whole script: only one of the styles takes it. -/
theorem parse_backtick_group :
    (∃ f, parse (Source.ofText "(a)") = .ok f ∧
        f.isComment (lastContext (Source.ofText "(a)")) = false) ∧
      (∃ g, parse (Source.ofText "$((a))") = .ok g) ∧
      parse (Source.ofText "`(a)`") = .error (.wrong ⟨.unexpectedToken, ⟨1, 5⟩, some "`"⟩) := by
  have hgroup : Cursor.start.Parses ⟨{}, "(a)".toList⟩ (.ok ⟨.seq (.group true)
      [.seq (.command false) [.leaf (.ident "a")]], [.seq (.command false) [], .seq .script []]⟩) :=
    .step rfl rfl (.step rfl rfl (.step rfl rfl (.ended rfl rfl)))
  have hfree : '\x60' ∉ "(a)".toList := by decide
  obtain ⟨f, strays, hf, hat, -⟩ := at_lastContext hgroup
  obtain ⟨g, hg, -⟩ := parse_enclose hf hfree hat.isComment_eq (.inl rfl) false
    (rfl : "$((a))".toList = dollar.enclose false "(a)".toList)
  exact ⟨⟨f, hf, hat.isComment_eq⟩, ⟨g, hg⟩,
    parse_enclose_group hf hfree hat.isClosedGroup_eq false rfl⟩

end Forest

end PocketShell
