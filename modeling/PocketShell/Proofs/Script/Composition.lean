import PocketShell.Proofs.Script.Closing

/-!
# Scripts are put together line by line

A script is parsed without regard to the lines before it and to what it stands in.

* `Base.reads_line` : a script is read up to the end of its line, on any base;
* `Base.parses_below` : below other lines a text comes to the same, some lines further down.

`Forest.parse_composes` puts these together.
-/

namespace PocketShell

/-! ## Line by line -/

namespace Base

open Cursor

/-- A script is read up to the end of its last line, on any base that no backtick begins. What
follows the line goes on from there. -/
theorem reads_line {f : Forest} {p : String} (h : Forest.parse (Source.ofText p) = .ok f) (B : Base)
    (hB : statementList B.kind = some ()) (hfree : B.NoBacktick) :
    ∃ parts, parts.reverse.map Tree.literal = f.statements.map Tree.literal ∧
      ∀ rest, Reads (B.start, p.toList ++ '\n' :: rest)
        (⟨.seq B.kind (parts ++ B.older), B.above⟩, rest) := by
  obtain ⟨c, hparses, hvalid, hstatements⟩ := Forest.parses_of_parse_eq_ok h
  obtain ⟨d, left, hends, hreads⟩ := hparses.reads rfl valid_start hB (.inl hfree) (holds_start B)
    standsAlone_newline.ends
  have htakes : B.Takes c ⟨.newline, String.ofList ['\n'], {}⟩ _ :=
    takes_feed hends.holds hvalid hends.complete hends.verbatim hB (by simp) fun _ => rfl
  obtain ⟨parts, hfeed, hparts⟩ := htakes.newline hB rfl
  refine ⟨parts, ?_, fun rest => (hreads rest).tail ?_⟩
  · rw [hstatements, literal_statements hvalid hparts]
  · exact step_alone standsAlone_newline hends.noToken
      (hends.holds.wantsVerbatim_eq.trans hends.verbatim) (fun _ => hfeed) rest

/-! ## Below other lines -/

variable {B : Base} {c d : Cursor} {tape tape' : Tape} {n : Nat}

theorem noBacktick_of_isScript (h : B.IsScript) : B.NoBacktick := by
  intro t older kind parts rest
  rw [h.kind, h.above]
  simp [ascend, substitution]

theorem Lies.awaitsWords_eq {path path' : List Crumb} (h : B.Lies path path') (focus : Focus) :
    awaitsWords focus path' = awaitsWords focus path := by
  cases focus with
  | leaf l => rfl
  | seq kind parts =>
    cases kind with
    | command target => simp only [awaitsWords, h.isOperand_eq]
    | script | group | dblQuote | sub => rfl

theorem Lies.isCut_eq {path path' : List Crumb} (h : B.Lies path path') (hB : B.IsScript)
    (focus : Focus) : isCut ⟨focus, path'⟩ = isCut ⟨focus, path⟩ := by
  by_cases hfocus : focus = .leaf .comment
  · subst hfocus
    cases h with
    | root older =>
      rw [hB.kind]
      rfl
    | cons crumb h =>
      cases crumb with
      | seq kind older => exact h.awaitsWords_eq (.seq kind older)
      | join op left => rfl
  · rw [isCut_of_ne hfocus, isCut_of_ne hfocus, h.awaitsWords_eq]

theorem Holds.isComplete_eq (h : B.Holds c d) (hB : B.IsScript) : d.isComplete = c.isComplete := by
  cases h with
  | root parts =>
    rw [hB.kind, hB.above]
    rfl
  | inside focus h => rw [isComplete, isComplete, h.labels_eq hB, h.isCut_eq hB]

/-- What is made of a text below other lines: the same cursor on the base, or the same syntax error
as many lines further down. -/
def Repeats (B : Base) (n : Nat) : Except SyntaxError Cursor → Except SyntaxError Cursor → Prop
  | .ok c, r => ∃ d, r = .ok d ∧ B.Holds c d
  | .error e, r => r = .error { e with position := e.position.down n }

theorem parses_below {r : Except SyntaxError Cursor} (h : c.Parses tape r) (hvalid : c.Valid)
    (hB : B.IsScript) (hold : B.Holds c d)
    (htape : Tape.Alike (fun p q => q = p.down n) tape tape') :
    ∃ r', d.Parses tape' r' ∧ B.Repeats n r r' := by
  have hR := Position.parallel_down n
  have hlist : statementList B.kind = some () := by rw [hB.kind]; rfl
  have hfree := noBacktick_of_isScript hB
  induction h generalizing d tape' with
  | @step c next tape left token r hnext hfeed _ ih =>
    have hboth := both_nextToken hR htape c
    have hcarries : B.Carries (c.feed token) (d.feed token) :=
      carries_feed hold hvalid hlist fun _ => hfree
    have hsound := sound_feed token hvalid
    rw [hnext] at hboth
    rw [hfeed] at hcarries hsound
    obtain ⟨token', left', hnext', halike, hleft⟩ := hboth.ok_left
    obtain ⟨d', hfeed', hold'⟩ := hcarries
    obtain ⟨r', hr', hrepeats⟩ := ih hsound hold' hleft
    refine ⟨r', .step ?_ ((feed_alike halike d).trans hfeed') hr', hrepeats⟩
    rw [nextToken_of_holds hold, hnext']
  | @refused c tape left token cause hnext hfeed =>
    have hboth := both_nextToken hR htape c
    have hcarries : B.Carries (c.feed token) (d.feed token) :=
      carries_feed hold hvalid hlist fun _ => hfree
    rw [hnext] at hboth
    rw [hfeed] at hcarries
    obtain ⟨token', left', hnext', halike, hleft⟩ := hboth.ok_left
    have hfeed' := (feed_alike halike d).trans (hcarries hB)
    refine ⟨_, .refused ((nextToken_of_holds hold _).trans hnext') hfeed', ?_⟩
    simp only [Repeats, halike.position, halike.value]
  | @ended c tape hnext hcomplete =>
    have hboth := both_nextToken hR htape c
    rw [hnext] at hboth
    exact ⟨.ok d, .ended ((nextToken_of_holds hold _).trans hboth.error_left)
      ((hold.isComplete_eq hB).trans hcomplete), d, rfl, hold⟩
  | @cutShort c tape hnext hcomplete =>
    have hboth := both_nextToken hR htape c
    rw [hnext] at hboth
    refine ⟨_, .cutShort ((nextToken_of_holds hold _).trans hboth.error_left)
      ((hold.isComplete_eq hB).trans hcomplete), ?_⟩
    simp only [Repeats, htape.last hR]
  | @unclosed c tape hnext =>
    have hboth := both_nextToken hR htape c
    rw [hnext] at hboth
    refine ⟨_, .unclosed ((nextToken_of_holds hold _).trans hboth.error_left), ?_⟩
    simp only [Repeats, htape.last hR]

end Base

/-! ## Whole texts -/

/-- The inside of a sequence that stands alone in the first command of a script. -/
def Base.wrapper (kind : Sequence) : Base :=
  ⟨kind, [], [.seq (.command false) [], .seq .script []]⟩

namespace Forest

open Cursor

variable {f : Forest} {p : String} {c : Cursor}

/-- A script and a line break inside a sequence that a closing parenthesis ends. -/
theorem parse_wrapped {opening : String} {first : TokenKind} {kind closed : Sequence}
    (h : parse (Source.ofText p) = .ok f)
    (hlist : statementList kind = some ()) (hfree : (Base.wrapper kind).NoBacktick)
    (hopening : ∀ rest, Lexes (opening.toList ++ rest) first opening.toList rest)
    (hfeed : ∀ q, Cursor.start.feed ⟨first, String.ofList opening.toList, q⟩ =
      .ok (Base.wrapper kind).start)
    (hclose : ∀ parts q, ∃ d, Cursor.feed ⟨.seq kind parts, (Base.wrapper kind).above⟩
      ⟨.rparen, String.ofList [')'], q⟩ = .ok d ∧ d.isComplete = true ∧ d.wantsVerbatim = false ∧
        d.tree = .seq .script [.seq (.command false) [.seq closed parts.reverse]]) :
    ∃ g, parse (Source.ofText (opening ++ p ++ "\n)")) = .ok g ∧ g.statements.map Tree.literal =
      [.seq (.command false) [.seq closed (f.statements.map Tree.literal)]] := by
  obtain ⟨parts, hparts, hreads⟩ := (Base.wrapper kind).reads_line h hlist hfree
  have hparen : Lexes [')'] .rparen [')'] [] := Lexes.single .rparen rfl (by simp) rfl
  obtain ⟨d, hclosed, hcomplete, hverbatim, htree⟩ := hclose parts {}
  have hwhole : Reads (Cursor.start, (opening ++ p ++ "\n)").toList) (d, []) := by
    rw [show (opening ++ p ++ "\n)").toList = opening.toList ++ (p.toList ++ ['\n', ')']) by simp]
    refine .head (step_of_lexes (hopening _) rfl hfeed) ((hreads [')']).tail ?_)
    rw [show parts ++ (Base.wrapper kind).older = parts from List.append_nil parts]
    exact step_of_lexes hparen rfl fun _ => hclosed
  obtain ⟨taken, -, hgo⟩ := hwhole.parses {}
  have hended : d.Parses ⟨({} : Position).past taken, []⟩ (.ok d) := by
    refine .ended ?_ hcomplete
    rw [Cursor.nextToken, hverbatim]
    rfl
  obtain ⟨-, g, hg, hbody⟩ := parse_of_parses (hgo (.ok d) hended)
  refine ⟨g, hg, ?_⟩
  rw [hbody, Cursor.statements, htree, ← hparts]
  simp [Tree.literal_seq]

/-- The first position of the line after a text. -/
theorem after_past_start (cs : List Char) :
    (({} : Position).past cs).after '\n' = ({} : Position).down (1 + cs.count '\n') := by
  have hline := Position.line_past {} cs
  simp only [Position.after, Position.down, if_true, hline]
  congr 1
  omega

/-- A text below a script and a line break. -/
theorem parse_line (h : parse (Source.ofText p) = .ok f) (q : String) :
    (∃ g whole, parse (Source.ofText q) = .ok g ∧
        parse (Source.ofText (p ++ "\n" ++ q)) = .ok whole ∧ whole.statements.map Tree.literal =
          f.statements.map Tree.literal ++ g.statements.map Tree.literal) ∨
      ∃ e, parse (Source.ofText q) = .error (.wrong e) ∧
        parse (Source.ofText (p ++ "\n" ++ q)) = .error (.wrong { e with
          position := e.position.down (1 + p.toList.count '\n') }) := by
  obtain ⟨r, hr⟩ := Cursor.parses_total Cursor.start ⟨{}, q.toList⟩
  have htop : (Base.mk .script [] []).IsScript := ⟨rfl, rfl⟩
  obtain ⟨parts, hparts, hreads⟩ :=
    (Base.mk .script [] []).reads_line h rfl (Base.noBacktick_of_isScript htop)
  obtain ⟨taken, htaken, hgo⟩ := (hreads q.toList).parses {}
  have hline : (p.toList ++ ['\n']) ++ q.toList = taken ++ q.toList := by
    rw [← htaken, List.append_assoc, List.singleton_append]
  obtain rfl := List.append_cancel_right hline
  -- the second text starts on the statements of the first, in the line below them
  have hbelow : (Base.mk .script parts []).IsScript := ⟨rfl, rfl⟩
  have halike : Tape.Alike (fun a b => b = a.down (1 + p.toList.count '\n')) ⟨{}, q.toList⟩
      ⟨({} : Position).past (p.toList ++ ['\n']), q.toList⟩ := by
    refine ⟨rfl, ?_⟩
    rw [Position.past_append]
    exact after_past_start p.toList
  obtain ⟨r', hr', hrepeats⟩ :=
    Base.parses_below hr valid_start hbelow (Base.holds_start _) halike
  have hwhole : Cursor.start.Parses ⟨{}, (p ++ "\n" ++ q).toList⟩ r' := by
    rw [show (p ++ "\n" ++ q).toList = p.toList ++ '\n' :: q.toList by simp]
    refine hgo r' ?_
    rw [List.append_nil]
    exact hr'
  have hq := parse_of_parses hr
  have hanswers := parse_of_parses hwhole
  cases r with
  | error e =>
    rw [show r' = _ from hrepeats] at hanswers
    exact .inr ⟨e, hq, hanswers⟩
  | ok c' =>
    obtain ⟨d, rfl, hold⟩ := hrepeats
    obtain ⟨hvalid', g, hg, hg'⟩ := hq
    obtain ⟨-, whole, hwhole, hwhole'⟩ := hanswers
    obtain ⟨body, hbody, htree⟩ := hold.tree_eq
    refine .inl ⟨g, whole, hg, hwhole, ?_⟩
    rw [hwhole', hg', Cursor.statements, htree, Cursor.statements, hbody, plug, List.map_append,
      hparts]

/-- Parsing is compositional. Below a script and a line break a text means what it means alone, as
statements or as a syntax error, and inside parentheses a script is what it is outside. -/
theorem parse_composes (p : String) (f : Forest) (h : parse (Source.ofText p) = .ok f) :
    (∀ q, (∃ g whole, parse (Source.ofText q) = .ok g ∧
          parse (Source.ofText (p ++ "\n" ++ q)) = .ok whole ∧ whole.statements.map Tree.literal =
            f.statements.map Tree.literal ++ g.statements.map Tree.literal) ∨
        ∃ e, parse (Source.ofText q) = .error (.wrong e) ∧
          parse (Source.ofText (p ++ "\n" ++ q)) = .error (.wrong { e with
            position := ⟨e.position.line + (1 + p.toList.count '\n'), e.position.column⟩ })) ∧
      (∃ g, parse (Source.ofText ("(" ++ p ++ "\n)")) = .ok g ∧ g.statements.map Tree.literal =
        [.seq (.command false) [.seq (.group true) (f.statements.map Tree.literal)]]) ∧
      ∃ g, parse (Source.ofText ("$(" ++ p ++ "\n)")) = .ok g ∧ g.statements.map Tree.literal =
        [.seq (.command false) [.seq (.sub .dollar false) (f.statements.map Tree.literal)]] := by
  refine ⟨parse_line h, ?_, ?_⟩
  · refine parse_wrapped h rfl ?_ (fun rest => Lexes.single .lparen rfl (by simp) rfl)
      (fun q => rfl) fun parts q => ⟨_, rfl, rfl, rfl, rfl⟩
    intro t older kind parts rest
    simp [Base.wrapper, ascend, substitution]
  · refine parse_wrapped h rfl ?_ (fun rest => Lexes.dollarParen)
      (fun q => rfl) fun parts q => ⟨_, rfl, rfl, rfl, rfl⟩
    intro t older kind parts rest
    simp [Base.wrapper, ascend, substitution]

/-- A script of two lines that ends with a `$`. -/
theorem parse_composes_openPipe :
    ∃ f, parse (Source.ofText "a |\n$") = .ok f ∧
      parse (Source.ofText "a |\n$\n)") =
        .error (.wrong ⟨.unexpectedToken, ⟨3, 1⟩, some ")"⟩) ∧
      ∃ g, parse (Source.ofText "(a |\n$\n)") = .ok g ∧ g.statements.map Tree.literal =
        [.seq (.command false) [.seq (.group true) [.join .pipe
          (.seq (.command false) [.leaf (.ident "a"), .leaf (.whitespace " ")])
          (.seq (.command false) [.leaf (.ident "$")])]]] := by
  have hparses : Cursor.start.Parses ⟨{}, "a |\n$".toList⟩
      (.ok ⟨.leaf (.var ""), [.seq (.command false) [], .join .pipe
        (.seq (.command false) [.leaf (.ident "a"), .leaf (.whitespace " ")]), .seq .script []]⟩) :=
    .step rfl rfl (.step rfl rfl (.step rfl rfl (.step rfl rfl (.step rfl rfl (.ended rfl rfl)))))
  have hnext : Cursor.start.nextToken ⟨{}, ")".toList⟩ =
      .ok (⟨.rparen, ")", {}⟩, ⟨⟨1, 2⟩, []⟩) := rfl
  have hrefused := parse_of_parses (.refused hnext rfl)
  obtain ⟨-, f, hf, hbody⟩ := parse_of_parses hparses
  obtain ⟨hlines, ⟨g, hg, hgroup⟩, -⟩ := parse_composes "a |\n$" f hf
  refine ⟨f, hf, ?_, g, hg, ?_⟩
  · rcases hlines ")" with ⟨g, whole, hq, -⟩ | ⟨e, hq, hwhole⟩
    · cases hq.symm.trans hrefused
    · cases hq.symm.trans hrefused
      exact hwhole
  · rw [hgroup, hbody]
    rfl

end Forest

end PocketShell
