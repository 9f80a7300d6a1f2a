import Mathlib.Data.List.Chain
import Mathlib.Data.List.TakeWhile
import PocketShell.Proofs.Script.Statements

/-!
# Parsing undoes printing

* `Tree.ReadsPart` : the text of a part of a word is read as this part, up to `Tree.tidy`;
* `Tree.reads_parts` : so are the parts of a word, and those between double quotes;
* `Tree.readable` : every canonical tree is read as it is printed;
* `Tree.parse_print` : the main statement.
-/

namespace PocketShell

open Relation

namespace Tree

open Cursor

/-! ## Text in pieces -/

/-- A text is read in pieces, outside of double quotes in one. -/
structure Pieces (quoted : Bool) (cs : List Char) (pieces : List (List Char)) : Prop where
  flatten : pieces.flatten = cs
  nil : cs = [] → pieces = []
  whole : quoted = false → pieces = sole cs

/-- What may follow a part of a word. -/
structure EndsPart (quoted : Bool) (rest : List Char) : Prop where
  bounded : Bounded rest = true
  endsText : quoted = true → EndsText rest

/-- The sequences that parts of words stand in. -/
inductive HoldsParts : Bool → Sequence → Prop
  | command (target : Bool) : HoldsParts false (.command target)
  | dblQuote : HoldsParts true .dblQuote

theorem HoldsParts.isHolder {quoted : Bool} {kind : Sequence} (h : HoldsParts quoted kind) :
    kind.isHolder = true := by
  cases h <;> rfl

theorem goesOn_of_line {cs : List Char} (h : '\n' ∉ cs) : ∀ c ∈ cs, goesOn isInline c = true := by
  intro c hc
  have hne : c ≠ '\n' := fun heq => h (heq ▸ hc)
  simp [goesOn, isInline, hne]

theorem reads_text {quoted : Bool} {cs : List Char} (hline : quoted = false → '\n' ∉ cs) :
    ∃ pieces, Pieces quoted cs pieces ∧ ∀ kind older path rest,
      HoldsParts quoted kind → EndsPart quoted rest →
      Reads (⟨.seq kind older, path⟩, guarded isInline cs ++ rest)
        (⟨.seq kind ((idents pieces).reverse ++ older), path⟩, rest) := by
  cases cs with
  | nil =>
    exact ⟨[], ⟨rfl, fun _ => rfl, fun _ => rfl⟩, fun kind older path rest _ _ => ReflTransGen.refl⟩
  | cons c cs =>
    cases quoted with
    | true =>
      obtain ⟨pieces, hpieces, hreads⟩ := reads_quotedText guards_isInline (c :: cs)
      refine ⟨pieces, ⟨hpieces, by simp, by simp⟩, fun kind older path rest hkind hrest => ?_⟩
      cases hkind
      exact hreads older path rest (hrest.endsText rfl)
    | false =>
      refine ⟨[c :: cs], ⟨by simp, by simp, fun _ => rfl⟩, fun kind older path rest hkind hrest => ?_⟩
      have hall := List.all_eq_true.2 (goesOn_of_line (hline rfl))
      exact ReflTransGen.single
        (step_ident hkind.isHolder guards_isInline.toGuards hall hrest.bounded)

theorem flatten_sole (cs : List Char) : (sole cs).flatten = cs := by
  unfold sole
  split <;> simp_all

/-- Pieces behind a first one that may be empty. -/
theorem Pieces.behind {quoted : Bool} {w : List Char} {pieces : List (List Char)}
    (h : Pieces quoted w pieces) (v : List Char) (hw : quoted = false → w = []) :
    Pieces quoted (v ++ w) (sole v ++ pieces) where
  flatten := by rw [List.flatten_append, flatten_sole, h.flatten]
  nil hvw := by
    obtain ⟨rfl, hw⟩ := List.append_eq_nil_iff.1 hvw
    simp [sole, h.nil hw]
  whole hquoted := by
    have hnil := hw hquoted
    rw [h.nil hnil, hnil, List.append_nil, List.append_nil]

theorem idents_append (ps qs : List (List Char)) : idents (ps ++ qs) = idents ps ++ idents qs :=
  List.map_append

theorem reverse_idents_sole (cs : List Char) : (idents (sole cs)).reverse = idents (sole cs) := by
  unfold sole
  split <;> rfl

/-- A variable, and the text behind it. -/
theorem reaches_varText {quoted : Bool} {name : String} {cs : List Char} (hne : name.toList ≠ [])
    (hname : name.toList.all isNameChar = true) (hcs : ∀ c ∈ cs.head?, isNameChar c = false)
    (hline : quoted = false → '\n' ∉ cs) :
    ∃ pieces, Pieces quoted cs pieces ∧ ∀ kind older path rest,
      HoldsParts quoted kind → EndsPart quoted rest →
      Reaches ⟨.seq kind older, path⟩ ('$' :: (name.toList ++ (guarded isInline cs ++ rest)))
        ⟨.seq kind ((idents pieces).reverse ++ .leaf (.var name) :: older), path⟩ rest := by
  -- the name and the text up to a line break are one token
  have hnil : quoted = false → cs.dropWhile (goesOn isInline) = [] := fun hquoted =>
    List.dropWhile_eq_nil_iff.2 (goesOn_of_line (hline hquoted))
  have hlater : quoted = false → '\n' ∉ cs.dropWhile (goesOn isInline) := fun hquoted => by
    simp [hnil hquoted]
  obtain ⟨pieces, hpieces, hreads⟩ := reads_text hlater
  have hall := hpieces.behind (cs.takeWhile (goesOn isInline)) hnil
  rw [List.takeWhile_append_dropWhile] at hall
  refine ⟨_, hall, fun kind older path rest hkind hrest => ?_⟩
  have hbounded : Bounded (guarded isInline (cs.dropWhile (goesOn isInline)) ++ rest) = true := by
    refine bounded_guarded guards_isInline.toGuards hrest.bounded fun c hc => ?_
    have hnot := List.head?_dropWhile_not (goesOn isInline) cs
    rw [Option.mem_def.1 hc] at hnot
    simpa using hnot
  have hvar : Reaches ⟨.seq kind older, path⟩ _ _ _ :=
    reaches_var hkind.isHolder guards_isInline.toGuards hne hname hcs hrest.bounded
  rw [String.ofList_toList] at hvar
  rw [idents_append, List.reverse_append, List.append_assoc, reverse_idents_sole]
  exact hvar.trans hbounded (hreads kind _ path rest hkind hrest).reaches

/-! ## Parts -/

/-- Parts as the grammar knows them. -/
def gather (quoted : Bool) (ts : List Tree) : List Tree := if quoted then mergeIdents ts else ts

def startsIdent : List Tree → Bool
  | leaf (.ident _) :: _ => true
  | _ => false

theorem gather_cons {t : Tree} (quoted : Bool) (ts : List Tree) (ht : startsIdent [t] = false) :
    gather quoted (t :: ts) = t :: gather quoted ts := by
  cases quoted with
  | false => rfl
  | true =>
    cases t with
    | leaf l => cases l <;> first | rfl | cases ht
    | seq | join | dangling => rfl

theorem addPart_ident {ts : List Tree} (text : String) (hts : startsIdent ts = false) :
    addPart (.leaf (.ident text)) ts = .leaf (.ident text) :: ts := by
  unfold addPart
  split
  · cases hts
  · rfl

theorem mergeIdents_idents {ts us : List Tree} {pieces : List (List Char)} (hpieces : pieces ≠ [])
    (hts : mergeIdents us = ts) (hident : startsIdent ts = false) :
    mergeIdents (idents pieces ++ us) = .leaf (.ident (String.ofList pieces.flatten)) :: ts := by
  induction pieces with
  | nil => exact absurd rfl hpieces
  | cons v pieces ih =>
    have hcons : mergeIdents (idents (v :: pieces) ++ us) =
        addPart (.leaf (.ident (String.ofList v))) (mergeIdents (idents pieces ++ us)) := rfl
    rw [hcons]
    cases pieces with
    | nil =>
      rw [show idents [] ++ us = us from rfl, hts, addPart_ident _ hident]
      simp
    | cons v' pieces =>
      rw [ih (by simp), addPart, ← String.ofList_append]
      rfl

/-- Text and what follows it. -/
theorem gather_idents {quoted : Bool} {cs : List Char} {pieces : List (List Char)} {us ts : List Tree}
    (hpieces : Pieces quoted cs pieces) (hts : gather quoted us = ts)
    (hident : startsIdent ts = false) :
    gather quoted (idents pieces ++ us) = idents (sole cs) ++ ts := by
  by_cases hcs : cs = []
  · rw [hpieces.nil hcs, hcs]
    exact hts
  · cases quoted with
    | false =>
      rw [hpieces.whole rfl, ← hts]
      rfl
    | true =>
      have hne : pieces ≠ [] := by
        rintro rfl
        exact hcs hpieces.flatten.symm
      rw [sole, if_neg hcs, ← hpieces.flatten]
      exact mergeIdents_idents hne hts hident

theorem map_tidy_idents (pieces : List (List Char)) : (idents pieces).map tidy = idents pieces := by
  simp [idents, tidy]

theorem isWordPart_idents (pieces : List (List Char)) : ∀ u ∈ idents pieces, u.isWordPart = true := by
  intro u hu
  obtain ⟨v, -, rfl⟩ := List.mem_map.1 hu
  rfl

theorem printParts_sole (cs : List Char) : printParts (idents (sole cs)) = guarded isInline cs := by
  unfold sole
  split <;> simp_all [idents, printParts, print, leafChars, guarded_nil]

/-- The text of a part is read as the part. What is read of text and of variables depends on what
follows them. -/
inductive ReadsPart (quoted : Bool) : Tree → Prop
  | ident {text : String} (hne : text.toList ≠ []) (hline : quoted = false → '\n' ∉ text.toList) :
    ReadsPart quoted (.leaf (.ident text))
  | var {name : String} (hne : name.toList ≠ []) (hname : name.toList.all isNameChar = true) :
    ReadsPart quoted (.leaf (.var name))
  | closed {t : Tree} (u : Tree) (htidy : u.tidy = t) (hword : u.isWordPart = true)
    (hident : startsIdent [t] = false)
    (hhead : ∃ c cs, t.print = c :: cs ∧ (c = '$' ∨ quoted = false ∧ (c = '\'' ∨ c = '"')))
    (hreads : ∀ kind older path rest, HoldsParts quoted kind →
      Reads (⟨.seq kind older, path⟩, t.print ++ rest) (⟨.seq kind (u :: older), path⟩, rest)) :
    ReadsPart quoted t

theorem endsPart_parts {quoted : Bool} {ts : List Tree} {rest : List Char}
    (hparts : ∀ t ∈ ts, ReadsPart quoted t) (hident : startsIdent ts = false)
    (hrest : EndsPart quoted rest) : EndsPart quoted (printParts ts ++ rest) := by
  cases ts with
  | nil => simpa [printParts] using hrest
  | cons t ts =>
    rw [printParts, List.append_assoc]
    cases hparts t List.mem_cons_self with
    | ident => cases hident
    | var =>
      rw [print, leafChars]
      exact ⟨rfl, fun _ => ⟨_, .inr rfl⟩⟩
    | closed u htidy hword hclosed hhead =>
      obtain ⟨c, cs, hprint, rfl | ⟨hquoted, hc⟩⟩ := hhead
      · rw [hprint]
        exact ⟨rfl, fun _ => ⟨_, .inr rfl⟩⟩
      · rw [hprint]
        refine ⟨?_, fun h => absurd (h.symm.trans hquoted) (by simp)⟩
        rcases hc with rfl | rfl <;> rfl

/-- The text of parts is read as these parts. -/
structure ReadsParts (quoted : Bool) (ts us : List Tree) : Prop where
  tidy : gather quoted (us.map tidy) = ts
  isWordPart : ∀ u ∈ us, u.isWordPart = true
  reaches : ∀ kind older path rest, HoldsParts quoted kind → EndsPart quoted rest →
    Reaches ⟨.seq kind older, path⟩ (printParts ts ++ rest) ⟨.seq kind (us.reverse ++ older), path⟩ rest

namespace ReadsParts

variable {quoted : Bool} {ts us : List Tree} {cs : List Char}

theorem nil : ReadsParts quoted [] [] where
  tidy := by cases quoted <;> rfl
  isWordPart := by simp
  reaches _ _ _ _ _ _ := Reads.reaches ReflTransGen.refl

theorem closed {t u : Tree} (h : ReadsParts quoted ts us) (htidy : u.tidy = t)
    (hword : u.isWordPart = true) (hident : startsIdent [t] = false)
    (hreads : ∀ kind older path rest, HoldsParts quoted kind →
      Reads (⟨.seq kind older, path⟩, t.print ++ rest) (⟨.seq kind (u :: older), path⟩, rest)) :
    ReadsParts quoted (t :: ts) (u :: us) where
  tidy := by rw [List.map_cons, htidy, gather_cons _ _ hident, h.tidy]
  isWordPart := List.forall_mem_cons.2 ⟨hword, h.isWordPart⟩
  reaches kind older path rest hkind hrest := by
    have hmore := h.reaches kind (u :: older) path rest hkind hrest
    rw [printParts, List.append_assoc, List.reverse_cons, List.append_assoc]
    exact (hreads kind older path _ hkind).trans_reaches hmore

theorem text (h : ReadsParts quoted ts us) (hident : startsIdent ts = false)
    (hends : ∀ rest, EndsPart quoted rest → EndsPart quoted (printParts ts ++ rest))
    (hline : quoted = false → '\n' ∉ cs) :
    ∃ us, ReadsParts quoted (idents (sole cs) ++ ts) us := by
  obtain ⟨pieces, hpieces, hreads⟩ := reads_text hline
  refine ⟨idents pieces ++ us, ?_, ?_, fun kind older path rest hkind hrest => ?_⟩
  · rw [List.map_append, map_tidy_idents, gather_idents hpieces h.tidy hident]
  · exact List.forall_mem_append.2 ⟨isWordPart_idents pieces, h.isWordPart⟩
  · have hmore := h.reaches kind ((idents pieces).reverse ++ older) path rest hkind hrest
    rw [printParts_append, printParts_sole, List.append_assoc, List.reverse_append, List.append_assoc]
    exact (hreads kind older path _ hkind (hends rest hrest)).trans_reaches hmore

theorem varText {name : String} (h : ReadsParts quoted ts us) (hident : startsIdent ts = false)
    (hends : ∀ rest, EndsPart quoted rest → EndsPart quoted (printParts ts ++ rest))
    (hne : name.toList ≠ []) (hname : name.toList.all isNameChar = true)
    (hcs : ∀ c ∈ cs.head?, isNameChar c = false) (hline : quoted = false → '\n' ∉ cs) :
    ∃ us, ReadsParts quoted (.leaf (.var name) :: (idents (sole cs) ++ ts)) us := by
  obtain ⟨pieces, hpieces, hreads⟩ := reaches_varText hne hname hcs hline
  refine ⟨.leaf (.var name) :: (idents pieces ++ us), ?_, ?_, fun kind older path rest hkind hrest => ?_⟩
  · rw [List.map_cons, List.map_append, map_tidy_idents, Tree.tidy, gather_cons _ _ rfl,
      gather_idents hpieces h.tidy hident]
  · exact List.forall_mem_cons.2
      ⟨rfl, List.forall_mem_append.2 ⟨isWordPart_idents pieces, h.isWordPart⟩⟩
  · have hmore := h.reaches kind ((idents pieces).reverse ++ .leaf (.var name) :: older) path rest
      hkind hrest
    have hvar := hreads kind older path _ hkind (hends rest hrest)
    rw [printParts, printParts_append, printParts_sole, List.append_assoc, List.append_assoc]
    simpa [print, leafChars] using hvar.trans (hends rest hrest).bounded hmore

end ReadsParts

theorem startsIdent_of_apart {text : String} {ts : List Tree}
    (h : (leaf (.ident text) :: ts).IsChain Apart) : startsIdent ts = false := by
  cases ts with
  | nil => rfl
  | cons t ts =>
    have happart := (List.isChain_cons_cons.1 h).1
    cases t with
    | leaf l => cases l <;> first | rfl | cases happart
    | seq | join | dangling => rfl

theorem ReadsPart.ident_inv {quoted : Bool} {text : String} (h : ReadsPart quoted (.leaf (.ident text))) :
    text.toList ≠ [] ∧ (quoted = false → '\n' ∉ text.toList) := by
  cases h with
  | ident hne hline => exact ⟨hne, hline⟩
  | closed u htidy hword hident => cases hident

theorem idents_sole_toList {text : String} (h : text.toList ≠ []) :
    idents (sole text.toList) = [.leaf (.ident text)] := by
  simp [sole, h, idents]

/-- The text behind a variable, if there is any. -/
theorem exists_textBehind {quoted : Bool} {name : String} {ts : List Tree}
    (hparts : ∀ t ∈ ts, ReadsPart quoted t) (hapart : (leaf (.var name) :: ts).IsChain Apart) :
    ∃ cs ts', idents (sole cs) ++ ts' = ts ∧ startsIdent ts' = false ∧
      (∀ c ∈ cs.head?, isNameChar c = false) ∧ (quoted = false → '\n' ∉ cs) := by
  cases hident : startsIdent ts with
  | false => exact ⟨[], ts, rfl, hident, by simp, by simp⟩
  | true =>
    unfold startsIdent at hident
    split at hident
    · rename_i text ts
      obtain ⟨hhead, htail⟩ := List.isChain_cons_cons.1 hapart
      obtain ⟨hne, hline⟩ := (hparts _ List.mem_cons_self).ident_inv
      refine ⟨text.toList, ts, ?_, startsIdent_of_apart htail, hhead, hline⟩
      rw [idents_sole_toList hne]
      rfl
    · cases hident

theorem reads_parts {quoted : Bool} {ts : List Tree} (hparts : ∀ t ∈ ts, ReadsPart quoted t)
    (hapart : ts.IsChain Apart) : ∃ us, ReadsParts quoted ts us := by
  -- a variable is read together with the text behind it, so the induction is on the number of parts
  induction hn : ts.length using Nat.strongRecOn generalizing ts with
  | ind n ih =>
    subst hn
    cases ts with
    | nil => exact ⟨[], .nil⟩
    | cons t ts =>
      obtain ⟨ht, hts⟩ := List.forall_mem_cons.1 hparts
      have htail := hapart.tail
      cases ht with
      | closed u htidy hword hident hhead hreads =>
        obtain ⟨us, hus⟩ := ih ts.length (by simp) hts htail rfl
        exact ⟨u :: us, hus.closed htidy hword hident hreads⟩
      | ident hne hline =>
        have hident := startsIdent_of_apart hapart
        obtain ⟨us, hus⟩ := ih ts.length (by simp) hts htail rfl
        have htext := hus.text hident (fun rest => endsPart_parts hts hident) hline
        rwa [idents_sole_toList hne] at htext
      | @var name hne hname =>
        obtain ⟨cs, ts, rfl, hident, hcs, hline⟩ := exists_textBehind hts hapart
        have hts' := fun t ht => hts t (List.mem_append_right _ ht)
        have hlt : ts.length < (leaf (.var name) :: (idents (sole cs) ++ ts)).length := by
          rw [List.length_cons, List.length_append]
          omega
        obtain ⟨us, hus⟩ := ih ts.length hlt hts' htail.right_of_append rfl
        exact hus.varText hident (fun rest => endsPart_parts hts' hident) hne hname hcs hline

/-! ## Quotes and substitutions -/

theorem readsPart_quote {text : String} (h : '\'' ∉ text.toList) :
    ReadsPart false (.leaf (.quote text)) := by
  refine .closed (.leaf (.quote text)) rfl rfl rfl ⟨'\'', _, rfl, .inr ⟨rfl, .inl rfl⟩⟩
    fun kind older path rest hkind => ?_
  obtain ⟨target⟩ := hkind
  have hreads : Reads (⟨.seq (.command target) older, path⟩, _) (_, rest) := reads_quote h
  rw [String.ofList_toList] at hreads
  simpa [print, leafChars] using hreads

theorem readsPart_dblQuote {parts : List Tree} (hparts : ∀ t ∈ parts, ReadsPart true t)
    (hapart : parts.IsChain Apart) : ReadsPart false (.seq .dblQuote parts) := by
  obtain ⟨us, hus⟩ := reads_parts hparts hapart
  have htidy : tidy (.seq .dblQuote us) = .seq .dblQuote parts := by
    rw [tidy, tidyAll_eq]
    exact congrArg _ hus.tidy
  refine .closed _ htidy rfl rfl ⟨'"', _, rfl, .inr ⟨rfl, .inr rfl⟩⟩ fun kind older path rest hkind => ?_
  obtain ⟨target⟩ := hkind
  have hinner := hus.reaches .dblQuote [] (.seq (.command target) older :: path) ('"' :: rest)
    .dblQuote ⟨rfl, fun _ => ⟨rest, .inl rfl⟩⟩
  rw [List.append_nil] at hinner
  simpa [print] using hinner.dblQuote

theorem readsPart_sub {quoted : Bool} {body : List Tree} (h : ∀ t ∈ body, ReadsStatement false t) :
    ReadsPart quoted (.seq (.sub .dollar quoted) body) := by
  obtain ⟨us, hus, hreads⟩ := reads_enclosed h
  have htidy : tidy (.seq (.sub .dollar quoted) us) = .seq (.sub .dollar quoted) body := by
    rw [tidy, tidyAll_eq, hus]
    rfl
  have hword : isWordPart (.seq (.sub .dollar quoted) us) = true := by cases quoted <;> rfl
  refine .closed _ htidy hword rfl ⟨'$', _, rfl, .inl rfl⟩ fun kind older path rest hkind => ?_
  have hopen : Step (⟨.seq kind older, path⟩, '$' :: '(' :: (printStatements body ++ ')' :: rest))
      (⟨.seq (.sub .dollar quoted) [], .seq kind older :: path⟩,
        printStatements body ++ ')' :: rest) := by
    refine step_of_lexes Lexes.dollarParen ?_ fun p => ?_
    · cases hkind <;> rfl
    · cases hkind <;> rfl
  have hinner := hreads (.sub .dollar quoted) (.seq kind older :: path) rest kind _ path rfl rfl
  rw [List.reverse_reverse] at hinner
  simpa [print] using ReflTransGen.head hopen hinner

/-! ## Words -/

theorem opens_part {t : Tree} (h : ReadsPart false t) : Opens t.print = true := by
  cases h with
  | @ident text hne hline =>
    obtain ⟨c, cs, htext⟩ := List.exists_cons_of_ne_nil hne
    have hc : c ≠ '\n' := by
      rintro rfl
      exact hline rfl (by simp [htext])
    rw [print, leafChars, htext, guarded_cons_of_pos (by simpa [isInline] using hc)]
    exact decide_eq_true hc
  | var => rfl
  | closed u htidy hword hident hhead =>
    obtain ⟨c, cs, hprint, rfl | ⟨-, rfl | rfl⟩⟩ := hhead <;> simp [hprint, Opens]

theorem exists_readsWord {w : List Tree} (target : Bool) (hne : w ≠ [])
    (hparts : ∀ t ∈ w, ReadsPart false t) (hapart : w.IsChain Apart) :
    ∃ us, ReadsWord target (printParts w) us ∧ us.map tidy = w := by
  obtain ⟨us, hus⟩ := reads_parts hparts hapart
  refine ⟨us, ⟨fun older path rest hrest => ?_, ?_, ?_⟩, hus.tidy⟩
  · exact hus.reaches (.command target) older path rest (.command target) ⟨hrest, by simp⟩
  · obtain ⟨t, ts, rfl⟩ := List.exists_cons_of_ne_nil hne
    exact opens_append (opens_part (hparts t List.mem_cons_self))
  · have hne : us.reverse ≠ [] := by
      rintro hnil
      rw [List.reverse_eq_nil_iff.1 hnil] at hus
      exact hne hus.tidy.symm
    obtain ⟨t, ts, heq⟩ := List.exists_cons_of_ne_nil hne
    have hmem : t ∈ us := List.mem_reverse.1 (heq ▸ List.mem_cons_self)
    exact endsInWord_iff.2 ⟨t, ts, heq, hus.isWordPart t hmem⟩

theorem printParts_words (words : List (List Tree)) :
    printParts ([gapLeaf].intercalate words) = [' '].intercalate (words.map printParts) := by
  induction words with
  | nil => rfl
  | cons w words ih =>
    cases words with
    | nil => simp
    | cons w' words =>
      rw [List.intercalate_cons_cons, printParts_append, printParts_append, ih]
      simp [List.intercalate_cons_cons, printParts, print, leafChars, gapLeaf]

theorem map_tidy_words (words : List (List Tree)) :
    ([gapLeaf].intercalate words).map tidy = [gapLeaf].intercalate (words.map (List.map tidy)) := by
  induction words with
  | nil => rfl
  | cons w words ih =>
    cases words with
    | nil => simp
    | cons w' words =>
      rw [List.intercalate_cons_cons, List.map_append, List.map_append, ih]
      simp [List.intercalate_cons_cons, tidy, gapLeaf]

theorem endsInWord_words {words : List (List Tree)} (hne : words ≠ [])
    (hwords : ∀ w ∈ words, endsInWord w.reverse = true) :
    endsInWord ([gapLeaf].intercalate words).reverse = true := by
  induction words with
  | nil => exact absurd rfl hne
  | cons w words ih =>
    obtain ⟨hw, hwords⟩ := List.forall_mem_cons.1 hwords
    cases words with
    | nil => simpa using hw
    | cons w' words =>
      rw [List.intercalate_cons_cons, List.reverse_append]
      exact endsInWord_append _ (ih (by simp) hwords)

theorem readsStatement_words {target : Bool} {words : List (List Tree)} (hne : words ≠ [])
    (hparts : ∀ w ∈ words, ∀ t ∈ w, ReadsPart false t)
    (hwords : ∀ w ∈ words, w ≠ [] ∧ w.IsChain Apart) :
    ReadsStatement target (ofWords target words) := by
  have hread : ∀ w ∈ words, ∃ us, ReadsWord target (printParts w) us ∧ us.map tidy = w :=
    fun w hw => exists_readsWord target (hwords w hw).1 (hparts w hw) (hwords w hw).2
  choose! us hreads htidy using hread
  have hprint : (ofWords target words).print = [' '].intercalate (words.map printParts) := by
    rw [ofWords, print, printParts_words]
  have hends : endsInWord ([gapLeaf].intercalate (words.map us)).reverse = true := by
    refine endsInWord_words (by simpa using hne) fun parts hparts => ?_
    obtain ⟨w, hw, rfl⟩ := List.mem_map.1 hparts
    exact (hreads w hw).endsInWord
  refine ⟨?_, ofWords target (words.map us), ?_, ?_⟩
  · rw [hprint]
    refine opens_words (by simpa using hne) fun text htext => ?_
    obtain ⟨w, hw, rfl⟩ := List.mem_map.1 htext
    exact (hreads w hw).opens
  · rw [ofWords, tidy_command hends, map_tidy_words, List.map_map]
    exact congrArg (ofWords target) ((List.map_congr_left htidy).trans (List.map_id' words))
  · intro path rest hrest hfits
    have hitems : ∀ item ∈ words.map (fun w => (printParts w, us w)),
        ReadsWord target item.1 item.2 := by
      intro item hitem
      obtain ⟨w, hw, rfl⟩ := List.mem_map.1 hitem
      exact hreads w hw
    have hreaches : Reaches ⟨.seq (.command target) [], path⟩ _ _ rest :=
      reaches_words (by simpa using hne) hitems hrest
    simp only [List.map_map, Function.comp_def, List.append_nil] at hreaches
    have hwords : Ends _ path (.seq (.command target) _) := Ends.words hends
    rw [List.reverse_reverse] at hwords
    rw [hprint]
    exact ⟨_, hreaches, hwords⟩

/-! ## All trees -/

/-- The text of a tree is read as the tree, wherever it stands. -/
def Readable : Role → Tree → Prop
  | .operand target, t => ReadsStatement target t
  | .part quoted, t => ReadsPart quoted t

theorem Canonical.eq_command {left : Tree} (h : Canonical (.operand false) left) (hrank : 4 ≤ left.rank) :
    ∃ parts, left = .seq (.command false) parts := by
  cases h with
  | words => exact ⟨_, rfl⟩
  | group => exact ⟨_, rfl⟩
  | @join op =>
    have hlt : op.precedence < 4 := by cases op <;> decide
    exact absurd hrank (Nat.not_le_of_lt hlt)

theorem readable {role : Role} {t : Tree} (h : Canonical role t) : Readable role t := by
  induction h with
  | ident hne hline => exact .ident hne hline
  | var hne hname => exact .var hne hname
  | quote h => exact readsPart_quote h
  | dblQuote hparts hapart ih => exact readsPart_dblQuote ih hapart
  | sub hbody ih => exact readsPart_sub ih
  | words hne hparts hwords ih => exact readsStatement_words hne ih hwords
  | group hbody ih => exact readsStatement_group ih
  | join hleft hright hl hr ihLeft ihRight =>
    refine readsStatement_join ihLeft ihRight hl hr fun hop => hleft.eq_command ?_
    simpa [JoinOp.leftRank, hop] using hl

/-- **Parsing undoes printing.** The text of every script in the grammar is parsed, and what is read is
this script, up to white space at the end of commands and pieces of text in double quotes. -/
theorem parse_print {ts : List Tree} (h : ∀ t ∈ ts, Canonical (.operand false) t) :
    ∃ f, Forest.parse (Source.ofText (printScript ts)) = .ok f ∧ f.statements.map tidy = ts := by
  obtain ⟨us, hus, hreads⟩ := reads_statements fun t ht => readable (h t ht)
  obtain ⟨c, hreaches, hends⟩ := hreads .script [] [] [] rfl rfl
  rw [List.append_nil] at hreaches hends
  have hend : c.mayEnd = true ∧ c.tree = .seq .script us := by
    rcases hends with rfl | ⟨u, older, heq, hends⟩
    · simp [mayEnd, tree, plug, Focus.tree, Focus.label, Tree.Label.isOpen]
    · refine ⟨hends.mayEnd rfl, ?_⟩
      rw [hends.tree_eq, ← List.reverse_reverse us, heq]
      rfl
  obtain ⟨f, hparse, hstatements⟩ := parse_of_reaches hreaches hend.1 hend.2
  exact ⟨f, hparse, by rw [hstatements, hus]⟩

/-- A group and a redirection in a pipe, quotes with a line break and a substitution in them, and a
second statement. -/
def sample : List Tree :=
  [.join .or
    (.join .pipe
      (.seq (.command false) [.seq (.group true)
        [ofWords false [[.leaf (.ident "a")], [.leaf (.quote "b\nc"), .leaf (.var "v"), .leaf (.ident "-d")]],
          .seq (.command false) [.seq (.group true) []]]])
      (.join .write
        (ofWords false [[.leaf (.ident "|")], [.seq .dblQuote [.leaf (.ident "x\n <<"), .leaf (.var "v"),
          .seq (.sub .dollar true) [ofWords false [[.leaf (.ident "\"")]]]]]])
        (ofWords true [[.leaf (.ident "f g")]])))
    (ofWords false [[.leaf (.ident "e")]]),
  ofWords false [[.leaf (.ident "h")]]]

theorem canonical_ident {target : Bool} {text : String} (hne : text.toList ≠ [])
    (hline : '\n' ∉ text.toList) : Canonical (.operand target) (ofWords target [[.leaf (.ident text)]]) := by
  refine .words (by simp) ?_ (by simp)
  simp only [List.mem_singleton, forall_eq]
  exact .ident hne fun _ => hline

theorem canonical_sample : ∀ t ∈ sample, Canonical (.operand false) t := by
  refine List.forall_mem_cons.2
    ⟨.join (.join (.group ?group) (.join ?double (canonical_ident ?_ ?_) ?_ ?_) ?_ ?_)
        (canonical_ident ?_ ?_) ?_ ?_,
      List.forall_mem_singleton.2 (canonical_ident ?_ ?_)⟩
  case group =>
    refine List.forall_mem_cons.2 ⟨.words (by simp) ?_ ?_, List.forall_mem_singleton.2 (.group (by simp))⟩
    · simp only [List.forall_mem_cons, List.not_mem_nil, false_implies, implies_true, and_true]
      exact ⟨.ident (by decide) (by decide), .quote (by decide), .var (by decide) (by decide),
        .ident (by decide) (by decide)⟩
    · simp [Apart, isNameChar]
  case double =>
    refine .words (by simp) ?_ (by simp)
    simp only [List.forall_mem_cons, List.not_mem_nil, false_implies, implies_true, and_true]
    refine ⟨.ident (by decide) (by decide), .dblQuote ?_ (by simp [Apart])⟩
    simp only [List.forall_mem_cons, List.not_mem_nil, false_implies, implies_true, and_true]
    exact ⟨.ident (by decide) (by decide), .var (by decide) (by decide),
      .sub (List.forall_mem_singleton.2 (canonical_ident (by decide) (by decide)))⟩
  all_goals decide

theorem parse_sample : (∀ t ∈ sample, Canonical (.operand false) t) ∧
    printScript sample =
      "(\\a 'b\nc'$v\\-\\d\n()) | \\| \"\\x\n\\ \\<\\<$v$(\\\")\" > \\f\\ \\g || \\e\n\\h" ∧
    ∃ f, Forest.parse (Source.ofText (printScript sample)) = .ok f ∧ f.statements.map tidy = sample :=
  ⟨canonical_sample, by rfl, parse_print canonical_sample⟩

end Tree

end PocketShell
