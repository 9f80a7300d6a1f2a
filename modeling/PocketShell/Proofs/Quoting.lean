import PocketShell.Proofs.Run.Deeds
import PocketShell.Proofs.Script.Parts
import PocketShell.Run.Probe
import PocketShell.Run.Session

/-!
# Quoted words

Any text can be made a word of a script that stands for just that text.

* `Quoting` : three ways to quote a word; `Quoting.script` : quoted words as a script;
* `Quoting.Spells` : a part of a command stands for a text, whatever the host;
* `Quoting.exists_readsWord` : a quoted word is read as parts that spell it;
* `Quoting.job_words` : a command with such parts starts the words as they are, and asks the host for
  nothing else (`Session.calls_exec`).
-/

namespace PocketShell

open Cursor Relation

inductive Quoting where
  | single
  | double
  | escaped
deriving DecidableEq, Repr

namespace Quoting

/-! ## Quoted texts -/

/-- The characters that mean something between double quotes. -/
def isActive (c : Char) : Bool := c = '\\' || c = '"' || c = '$' || c = '\x60'

/-- A text as it stands between single quotes: a quote ends them, is escaped, and begins them
again. -/
def betweenSingle (cs : List Char) : List Char :=
  cs.flatMap fun c => if c = '\'' then ['\'', '\\', '\'', '\''] else [c]

def encode : Quoting → List Char → List Char
  | single, cs => '\'' :: (betweenSingle cs ++ ['\''])
  | double, cs => '"' :: (guarded isActive cs ++ ['"'])
  | escaped, cs => cs.flatMap fun c => ['\\', c]

/-- A backslash before a line break would make it vanish, and before nothing makes no word. -/
def suits : Quoting → List Char → Bool
  | escaped, cs => !cs.isEmpty && cs.all (· ≠ '\n')
  | _, _ => true

/-- Quoted words as a script. -/
def script (items : List (Quoting × String)) : String :=
  String.ofList ([' '].intercalate (items.map fun item => item.1.encode item.2.toList))

/-! ## Parts that stand for a text -/

/-- A part of a command stands for a text. -/
inductive Spells : Tree → List Char → Prop
  | ident (cs : List Char) : Spells (.leaf (.ident (String.ofList cs))) cs
  | quote (cs : List Char) : Spells (.leaf (.quote (String.ofList cs))) cs
  | dblQuote (pieces : List (List Char)) : Spells (.seq .dblQuote (idents pieces)) pieces.flatten

/-- A text is read as parts that together stand for a word. -/
structure SpellsWord (text : List Char) (parts : List Tree) (cs : List Char) : Prop where
  reads : Cursor.ReadsWord false text parts
  spells : ∃ texts, List.Forall₂ Spells parts texts ∧ texts.flatten = cs

open Cursor Relation

theorem guards_isActive : GuardsQuoted isActive := ⟨⟨rfl, rfl⟩, rfl, rfl, rfl⟩

theorem guarded_isInline {cs : List Char} (h : cs.all isInline = true) :
    guarded isInline cs = cs.flatMap fun c => ['\\', c] := by
  induction cs with
  | nil => rfl
  | cons c cs ih =>
    rw [List.all_cons, Bool.and_eq_true] at h
    rw [guarded_cons_of_pos h.1, ih h.2]
    rfl

theorem spellsWord_escaped {cs : List Char} (h : suits escaped cs = true) :
    ∃ parts, SpellsWord (encode escaped cs) parts cs := by
  simp only [suits, Bool.and_eq_true, Bool.not_eq_true', List.isEmpty_eq_false_iff] at h
  obtain ⟨hne, hall⟩ := h
  obtain ⟨c, ds, rfl⟩ := List.exists_cons_of_ne_nil hne
  have hall : (c :: ds).all isInline = true := hall
  have hgoes : (c :: ds).all (goesOn isInline) = true := by
    rw [List.all_eq_true] at hall ⊢
    intro d hd
    simp [goesOn, hall d hd]
  have htext : encode escaped (c :: ds) = guarded isInline (c :: ds) := (guarded_isInline hall).symm
  refine ⟨[.leaf (.ident (String.ofList (c :: ds)))], ⟨?_, ?_, rfl⟩,
    [c :: ds], .cons (.ident _) .nil, by simp⟩
  · intro older path rest hrest
    rw [htext]
    exact Reads.reaches (ReflTransGen.single (step_ident rfl guards_isInline.toGuards hgoes hrest))
  · rw [List.all_cons, Bool.and_eq_true] at hall
    simpa [encode, Opens, isInline] using hall.1

theorem spellsWord_double (cs : List Char) : ∃ parts, SpellsWord (encode double cs) parts cs := by
  obtain ⟨pieces, rfl, hreads⟩ := reads_quotedText guards_isActive cs
  refine ⟨[.seq .dblQuote (idents pieces)], ⟨fun older path rest _ => ?_, rfl, rfl⟩,
    [pieces.flatten], .cons (.dblQuote _) .nil, by simp⟩
  have hinner := hreads [] (.seq (.command false) older :: path) ('"' :: rest) ⟨rest, .inl rfl⟩
  rw [List.append_nil] at hinner
  simpa [encode] using hinner.reaches.dblQuote.reaches

theorem betweenSingle_append (cs ds : List Char) :
    betweenSingle (cs ++ ds) = betweenSingle cs ++ betweenSingle ds :=
  List.flatMap_append

/-- Without a single quote in it, a text stands between single quotes as it is. -/
theorem betweenSingle_eq {cs : List Char} (h : '\'' ∉ cs) : betweenSingle cs = cs := by
  induction cs with
  | nil => rfl
  | cons c cs ih =>
    rw [List.mem_cons, not_or] at h
    rw [betweenSingle, List.flatMap_cons, if_neg (Ne.symm h.1)]
    exact congrArg (c :: ·) (ih h.2)

/-- A single quote in a text: the quotes end before it and begin again behind it. -/
theorem encode_single_append {as : List Char} (has : '\'' ∉ as) (bs : List Char) :
    encode single (as ++ '\'' :: bs) =
      '\'' :: (as ++ '\'' :: (guarded isInline ['\''] ++ encode single bs)) := by
  rw [encode, betweenSingle_append, betweenSingle_eq has]
  simp [encode, betweenSingle, guarded, isInline]

/-- Single quotes, in a command and in the target of a redirection. -/
theorem readsWord_single (target : Bool) (cs : List Char) :
    ∃ parts, ReadsWord target (encode single cs) parts ∧
      ∃ texts, List.Forall₂ Spells parts texts ∧ texts.flatten = cs := by
  -- up to the first single quote in it, then for the rest
  induction hn : cs.length using Nat.strongRecOn generalizing cs with
  | ind n ih =>
    subst hn
    by_cases hcs : '\'' ∈ cs
    · obtain ⟨as, bs, rfl, has⟩ := List.eq_append_cons_of_mem hcs
      obtain ⟨parts, ⟨hreads, -, hends⟩, texts, hspells, rfl⟩ := ih bs.length (by simp; omega) bs rfl
      refine ⟨.leaf (.quote (String.ofList as)) :: .leaf (.ident (String.ofList ['\''])) :: parts,
        ⟨fun older path rest hrest => ?_, rfl, ?_⟩, as :: ['\''] :: texts,
        .cons (.quote as) (.cons (.ident _) hspells), by simp⟩
      · rw [encode_single_append has]
        simp only [List.cons_append, List.append_assoc, List.reverse_cons, List.nil_append]
        refine Reads.trans_reaches ((reads_quote has).tail ?_) (hreads _ path rest hrest)
        exact step_ident rfl guards_isInline.toGuards rfl rfl
      · rw [List.reverse_cons, List.reverse_cons, List.append_assoc]
        exact endsInWord_append _ hends
    · refine ⟨[.leaf (.quote (String.ofList cs))], ⟨fun older path rest _ => ?_, rfl, rfl⟩,
        [cs], .cons (.quote cs) .nil, by simp⟩
      simp only [encode, betweenSingle_eq hcs, List.cons_append, List.append_assoc, List.nil_append]
      exact Reads.reaches (reads_quote hcs)

theorem spellsWord_single (cs : List Char) : ∃ parts, SpellsWord (encode single cs) parts cs := by
  obtain ⟨parts, hreads, hspells⟩ := readsWord_single false cs
  exact ⟨parts, hreads, hspells⟩

theorem exists_readsWord {q : Quoting} {cs : List Char} (h : q.suits cs = true) :
    ∃ parts, SpellsWord (q.encode cs) parts cs := by
  cases q with
  | single => exact spellsWord_single cs
  | double => exact spellsWord_double cs
  | escaped => exact spellsWord_escaped h

/-! ## The command of quoted words -/

theorem texts_ne_nil {target : Bool} {text : List Char} {parts : List Tree}
    {texts : List (List Char)} (hword : ReadsWord target text parts)
    (hspells : List.Forall₂ Spells parts texts) : texts ≠ [] := by
  rintro rfl
  cases hspells
  cases hword.endsInWord

/-- The parts of all words, and the texts that they stand for. -/
theorem exists_words {items : List (Quoting × String)}
    (h : ∀ item ∈ items, item.1.suits item.2.toList = true) :
    ∃ words : List (List Char × List Tree),
      words.map (·.1) = items.map (fun item => item.1.encode item.2.toList) ∧
      (∀ w ∈ words, ReadsWord false w.1 w.2) ∧
      ∃ textss, List.Forall₂ (List.Forall₂ Spells) (words.map (·.2)) textss ∧
        (∀ texts ∈ textss, texts ≠ []) ∧
        textss.map (fun texts => String.ofList texts.flatten) = items.map (·.2) := by
  induction items with
  | nil => exact ⟨[], rfl, by simp, [], .nil, by simp, rfl⟩
  | cons item items ih =>
    obtain ⟨hitem, hitems⟩ := List.forall_mem_cons.1 h
    obtain ⟨words, htexts, hreads, textss, hspells, hne, hwords⟩ := ih hitems
    obtain ⟨parts, hword, texts, hparts, hcs⟩ := exists_readsWord hitem
    have htext : texts ≠ [] := texts_ne_nil hword hparts
    refine ⟨(item.1.encode item.2.toList, parts) :: words, by simp [htexts],
      List.forall_mem_cons.2 ⟨hword, hreads⟩, texts :: textss, .cons hparts hspells,
      List.forall_mem_cons.2 ⟨htext, hne⟩, ?_⟩
    simp [hwords, hcs]

/-- Quoted words are read as one command. -/
theorem parse_words {words : List (List Char × List Tree)} (hne : words ≠ [])
    (hwords : ∀ w ∈ words, ReadsWord false w.1 w.2) :
    ∃ f, Forest.parse (Source.ofText (String.ofList ([' '].intercalate (words.map (·.1))))) = .ok f ∧
      f.statements = [.seq (.command false) ([gapLeaf].intercalate (words.map (·.2)))] := by
  have hopens : Opens ([' '].intercalate (words.map (·.1))) = true := by
    refine opens_words (by simpa using hne) fun text htext => ?_
    obtain ⟨w, hw, rfl⟩ := List.mem_map.1 htext
    exact (hwords w hw).opens
  have hreaches : Reaches ⟨.seq (.command false) [], [.seq .script []]⟩ _ _ [] :=
    reaches_words hne hwords rfl
  rw [List.append_nil, List.append_nil] at hreaches
  have hstart : Reaches start _ _ [] := hreaches.of_opens rfl hopens (by
    intro hnil
    rw [hnil] at hopens
    cases hopens)
  refine parse_of_reaches hstart ?_ ?_
  · simp [mayEnd, Focus.label, Crumb.label, Tree.Label.isOpen, isOperand]
  · simp [tree, plug, Crumb.fill, Focus.tree]

/-! ## What the command does -/

/-- A text that goes into a word as it is. -/
def literalOf (cs : List Char) : Segment := .literal (String.ofList cs)

theorem expandAll_idents (cancellable : Bool) (pieces : List (List Char)) (k : String → Job) :
    Tree.expandAll cancellable (idents pieces) k = k (String.ofList pieces.flatten) := by
  induction pieces generalizing k with
  | nil => rfl
  | cons v pieces ih =>
    have hcons : Tree.expandAll cancellable (idents (v :: pieces)) k =
        Tree.expandAll cancellable (idents pieces) fun rest => k (String.ofList v ++ rest) := rfl
    rw [hcons, ih, List.flatten_cons, String.ofList_append]

theorem segments_spells {parts : List Tree} {texts : List (List Char)}
    (h : List.Forall₂ Spells parts texts) (cancellable : Bool) (ts : List Tree)
    (k : List Segment → Option Int → Job) :
    Tree.segments cancellable (parts ++ ts) k =
      Tree.segments cancellable ts fun segs status => k (texts.map literalOf ++ segs) status := by
  induction h generalizing k with
  | nil => rfl
  | cons hpart hparts ih =>
    rw [List.cons_append]
    cases hpart with
    | ident | quote => rw [Tree.segments, ih]; rfl
    | dblQuote pieces => rw [Tree.segments, expandAll_idents, ih]; rfl

theorem firstGroup?_spells {parts : List Tree} {texts : List (List Char)}
    (h : List.Forall₂ Spells parts texts) (cancellable : Bool) (ts : List Tree) (k : Int → Job) :
    Tree.firstGroup? cancellable (parts ++ ts) k = Tree.firstGroup? cancellable ts k := by
  induction h with
  | nil => rfl
  | cons hpart hparts ih => cases hpart <;> exact ih

/-- The parts of words with gaps between them are their texts with gaps between them. -/
theorem segments_words {partss : List (List Tree)} {textss : List (List (List Char))}
    (h : List.Forall₂ (List.Forall₂ Spells) partss textss) (cancellable : Bool)
    (k : List Segment → Option Int → Job) :
    Tree.segments cancellable ([gapLeaf].intercalate partss) k =
      k ([Segment.gap].intercalate (textss.map (·.map literalOf))) none := by
  induction h generalizing k with
  | nil => rfl
  | cons hparts hpartss ih =>
    cases hpartss with
    | nil =>
      have hone := segments_spells hparts cancellable [] k
      rw [List.append_nil] at hone
      simpa [Tree.segments] using hone
    | cons hparts' hpartss =>
      rw [List.intercalate_cons_cons, List.append_assoc, segments_spells hparts, List.cons_append,
        List.nil_append, gapLeaf, Tree.segments, ← gapLeaf, ih]
      simp only [List.map_cons, List.intercalate_cons_cons, List.append_assoc, List.cons_append,
        List.nil_append]

theorem firstGroup?_words {partss : List (List Tree)} {textss : List (List (List Char))}
    (h : List.Forall₂ (List.Forall₂ Spells) partss textss) (cancellable : Bool) (k : Int → Job) :
    Tree.firstGroup? cancellable ([gapLeaf].intercalate partss) k = none := by
  induction h with
  | nil => rfl
  | cons hparts hpartss ih =>
    cases hpartss with
    | nil =>
      have hone := firstGroup?_spells hparts cancellable [] k
      rw [List.append_nil] at hone
      simpa [Tree.firstGroup?] using hone
    | cons hparts' hpartss =>
      rw [List.intercalate_cons_cons, List.append_assoc, firstGroup?_spells hparts]
      exact ih

end Quoting

/-! ## Words of literals -/

namespace Words

open Quoting (literalOf)

theorem foldl_literals (finished : List String) (current : String) (texts : List (List Char)) :
    (texts.map literalOf).foldl splitSegment ⟨finished, some current⟩ =
      ⟨finished, some (current ++ String.ofList texts.flatten)⟩ := by
  induction texts generalizing current with
  | nil => simp
  | cons text texts ih =>
    rw [List.map_cons, List.foldl_cons, List.flatten_cons, String.ofList_append,
      ← String.append_assoc]
    exact ih _

/-- Literals are one word, even if all of them are empty. -/
theorem foldl_word (finished : List String) {texts : List (List Char)} (hne : texts ≠ []) :
    (texts.map literalOf).foldl splitSegment ⟨finished, none⟩ =
      ⟨finished, some (String.ofList texts.flatten)⟩ := by
  cases texts with
  | nil => exact absurd rfl hne
  | cons text texts =>
    have hfirst := foldl_literals finished ("" ++ String.ofList text) texts
    rw [String.empty_append, ← String.ofList_append] at hfirst
    rw [List.map_cons, List.foldl_cons, List.flatten_cons, ← hfirst]
    simp [splitSegment, literalOf, addText]

theorem foldl_words (finished : List String) {textss : List (List (List Char))}
    (hne : ∀ texts ∈ textss, texts ≠ []) :
    (([Segment.gap].intercalate (textss.map (·.map literalOf))).foldl splitSegment
        ⟨finished, none⟩).toList =
      finished.reverse ++ textss.map fun texts => String.ofList texts.flatten := by
  induction textss generalizing finished with
  | nil => simp [List.intercalate, toList, flush]
  | cons texts textss ih =>
    obtain ⟨htexts, hrest⟩ := List.forall_mem_cons.1 hne
    cases textss with
    | nil => simp [List.intercalate, foldl_word finished htexts, toList, flush]
    | cons texts' textss =>
      rw [List.map_cons, List.map_cons, List.intercalate_cons_cons, List.append_assoc,
        List.foldl_append, foldl_word finished htexts]
      have hgap := ih (String.ofList texts.flatten :: finished) hrest
      simp only [List.reverse_cons, List.append_assoc, List.cons_append, List.nil_append] at hgap
      exact hgap

end Words

namespace Quoting

/-- A command of words that are spelled out starts these words and does nothing else. -/
theorem job_words {partss : List (List Tree)} {textss : List (List (List Char))}
    (h : List.Forall₂ (List.Forall₂ Spells) partss textss) (hne : textss ≠ [])
    (htexts : ∀ texts ∈ textss, texts ≠ []) (cancellable : Bool) (k : Int → Job) :
    Tree.job cancellable (.seq (.command false) ([gapLeaf].intercalate partss)) k =
      .exec cancellable (textss.map fun texts => String.ofList texts.flatten) k := by
  have hsplit : Words.split ([Segment.gap].intercalate (textss.map (·.map literalOf))) = _ :=
    Words.foldl_words [] htexts
  obtain ⟨texts, textss, rfl⟩ := List.exists_cons_of_ne_nil hne
  rw [Tree.job, firstGroup?_words h, segments_words h]
  simp only [hsplit]
  rfl

end Quoting

/-! ## Calls to the host -/

namespace Session

variable {host : Host} {name : String} {state : Suspended Int} {cancellable : Bool}
  {argv : List String} {sc : Scene}

/-- These calls say only that commands have ended. -/
def OnlyExits (calls : List Call) : Prop := ∀ call ∈ calls, ∃ name status, call = .exit name status

/-- A command that has been started makes no calls, however long it takes. -/
theorem calls_command (n : Nat) (events : List Event) :
    ∃ exits, OnlyExits exits ∧
      (Session.job host n (.command name state .exit) sc events).1.world.calls =
        exits ++ sc.world.calls := by
  induction n generalizing state sc events with
  | zero => exact ⟨[], by simp [OnlyExits], rfl⟩
  | succ n ih =>
    have hcalls := state.program.calls_resume state.wait sc
    simp only [job, drive, Job.poll, Suspended.resume]
    generalize state.program.resume state.wait sc = r at hcalls ⊢
    obtain ⟨next, progress⟩ := r
    rw [← hcalls]
    cases progress with
    | finished status => exact ⟨[.exit name status], by simp [OnlyExits], rfl⟩
    | interrupted state => exact ih events
    | waiting state =>
      simp only
      split
      · exact ih events
      · cases events with
        | nil => exact ⟨[], by simp [OnlyExits], rfl⟩
        | cons e events => exact ih events

/-- Starting words calls the host once. -/
theorem calls_exec (n : Nat) (events : List Event) (h : (cancellable && sc.fired) = false) :
    ∃ exits, OnlyExits exits ∧
      (Session.job host (n + 1) (.exec cancellable argv .exit) sc events).1.world.calls =
        exits ++ .exec argv :: sc.world.calls := by
  have hstarted : Session.job host (n + 1) (.exec cancellable argv .exit) sc events =
      Session.job host (n + 1)
        (.command (argv.headD "") ⟨.nothing, host.exec argv⟩ .exit) (sc.record (.exec argv)) events := by
    simp only [job, drive, Job.poll, h]
    rfl
  rw [hstarted]
  exact calls_command (n + 1) events

end Session

/-! ## Running quoted words -/

namespace Quoting

/-- Quoted words are a script with one statement. It starts the words themselves, once, and looks up
no variable and no file. -/
theorem exec_script {items : List (Quoting × String)} (hne : items ≠ [])
    (hsuits : ∀ item ∈ items, item.1.suits item.2.toList = true) (host : Host) (cancellable : Bool)
    (n : Nat) (sc : Scene) (events : List Event) (huncancelled : (cancellable && sc.fired) = false) :
    ∃ f t, Forest.parse (Source.ofText (script items)) = .ok f ∧ f.statements = [t] ∧
      ∃ exits, Session.OnlyExits exits ∧
        (Session.job host (n + 1) (Tree.statements cancellable f.statements 0 .exit) sc
          events).1.world.calls = exits ++ .exec (items.map (·.2)) :: sc.world.calls := by
  obtain ⟨words, htexts, hreads, textss, hspells, htextsNe, hwords⟩ := exists_words hsuits
  have hwordsNe : words ≠ [] := by
    rintro rfl
    exact hne (List.map_eq_nil_iff.1 htexts.symm)
  have htextssNe : textss ≠ [] := by
    rintro rfl
    exact hne (List.map_eq_nil_iff.1 hwords.symm)
  obtain ⟨f, hparse, hstatements⟩ := parse_words hwordsNe hreads
  rw [htexts] at hparse
  have hjob : Tree.statements cancellable f.statements 0 .exit =
      .exec cancellable (items.map (·.2)) .exit := by
    rw [hstatements, ← hwords]
    exact job_words hspells htextssNe htextsNe cancellable .exit
  refine ⟨f, _, hparse, hstatements, ?_⟩
  rw [hjob]
  exact Session.calls_exec n events huncancelled

/-- Words that hold what a script takes for syntax. -/
def hardWords : List (Quoting × String) :=
  [(.single, "it's"), (.double, "$(\x60\"\\\n<<"), (.escaped, "#;'"), (.single, ""), (.double, "")]

theorem exec_hardWords :
    script hardWords = "'it'\\''s' \"\\$(\\\x60\\\"\\\\\n<<\" \\#\\;\\' '' \"\"" ∧
    hardWords ≠ [] ∧ (∀ item ∈ hardWords, item.1.suits item.2.toList = true) ∧
    (true && ({} : Scene).fired) = false ∧
    ∃ f t, Forest.parse (Source.ofText (script hardWords)) = .ok f ∧ f.statements = [t] ∧
      ∃ exits, Session.OnlyExits exits ∧
        (Session.job (Probe.host {}) 1 (Tree.statements true f.statements 0 .exit) {} []).1.world.calls =
          exits ++ [.exec ["it's", "$(\x60\"\\\n<<", "#;'", "", ""]] :=
  ⟨by decide, by decide, by decide, by decide,
    exec_script (by decide) (by decide) (Probe.host {}) true 0 {} [] (by decide)⟩

end Quoting

end PocketShell
