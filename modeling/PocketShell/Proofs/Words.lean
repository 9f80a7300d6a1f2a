import PocketShell.Words
import Mathlib.Data.List.Basic
import Mathlib.Data.List.Induction

/-!
# The words of a command

* `blocks` : the longest parts of a list that no separator is in, without the empty ones;
* `Item` : what a part of a command adds to its words: a place where there is a word in any case, a
  character, or a separator;
* `Words.toList_foldl_addItem` : words that are built item by item are the blocks of the items;
* `Words.split_eq_blocks` : so the words of a command are the blocks of what its parts add;
* `Words.join_eq_split` : without splitting they are the same where there is nothing to split, and
  expansions are like literals.
-/

namespace PocketShell

/-! ## Blocks -/

/-- The longest parts of a list without a separator in them, in order. Two separators with nothing
between them make none. -/
def blocks {α : Type} (isSeparator : α → Bool) (l : List α) : List (List α) :=
  (l.splitOnP isSeparator).filter fun block => !block.isEmpty

section blocks

variable {α β : Type} {p : α → Bool} {l before after : List α}

theorem blocks_nil : blocks p [] = [] := by simp [blocks]

/-- A list without a separator is one block, if it is anything. -/
theorem blocks_of_free (hfree : ∀ a ∈ l, p a = false) :
    blocks p l = if l = [] then [] else [l] := by
  rw [blocks, List.splitOnP_eq_singleton hfree]
  by_cases hl : l = [] <;> simp [hl]

theorem blocks_append_cons {a : α} (ha : p a = true) :
    blocks p (before ++ a :: after) = blocks p before ++ blocks p after := by
  rw [blocks, List.splitOnP_append_cons _ _ ha, List.filter_append, blocks, blocks]

/-- A list is a part without separators, or such a part, a separator and another list. -/
theorem blocks_induction {motive : List α → Prop}
    (free : ∀ l, (∀ a ∈ l, p a = false) → motive l)
    (parted : ∀ before a after, (∀ b ∈ before, p b = false) → p a = true → motive after →
      motive (before ++ a :: after)) (l : List α) : motive l := by
  -- what has been passed since the last separator stands before the rest of the list
  have hall (before : List α) (hbefore : ∀ b ∈ before, p b = false) : motive (before ++ l) := by
    induction l generalizing before with
    | nil => exact free _ (by simpa using hbefore)
    | cons a l ih =>
      cases ha : p a with
      | true => exact parted before a l hbefore ha (ih [] (by simp))
      | false =>
        rw [List.append_cons]
        refine ih (before ++ [a]) fun b hb => ?_
        rcases List.mem_append.1 hb with hb | hb
        · exact hbefore b hb
        · rw [List.mem_singleton.1 hb, ha]
  exact hall [] (by simp)

/-- Separators, however many there are, part what stands before them from what stands behind. -/
theorem blocks_append_append {gap : List α} (hne : gap ≠ []) (hgap : ∀ a ∈ gap, p a = true) :
    blocks p (before ++ gap ++ after) = blocks p before ++ blocks p after := by
  induction gap generalizing before with
  | nil => exact absurd rfl hne
  | cons a gap ih =>
    obtain ⟨ha, hgap⟩ := List.forall_mem_cons.1 hgap
    rw [List.append_assoc, List.cons_append, blocks_append_cons ha]
    congr 1
    cases gap with
    | nil => rfl
    | cons b gap =>
      have hrest : blocks p ([] ++ b :: gap ++ after) = _ := ih (by simp) hgap
      rwa [blocks_nil, List.nil_append, List.nil_append] at hrest

theorem of_mem_blocks {block : List α} (h : block ∈ blocks p l) :
    block ≠ [] ∧ ∀ a ∈ block, p a = false := by
  induction l using blocks_induction (p := p) with
  | free l hfree =>
    rw [blocks_of_free hfree] at h
    by_cases hl : l = []
    · simp [hl] at h
    · rw [if_neg hl, List.mem_singleton] at h
      subst h
      exact ⟨hl, hfree⟩
  | parted before a after hfree ha ih =>
    rw [blocks_append_cons ha, blocks_of_free hfree] at h
    by_cases hbefore : before = []
    · rw [if_pos hbefore] at h
      exact ih h
    · rw [if_neg hbefore, List.singleton_append, List.mem_cons] at h
      rcases h with rfl | h
      · exact ⟨hbefore, hfree⟩
      · exact ih h

/-- Nothing but separators is left out of the blocks. -/
theorem flatten_blocks : (blocks p l).flatten = l.filter fun a => !p a := by
  have hfilter {l : List α} (hfree : ∀ a ∈ l, p a = false) :
      (blocks p l).flatten = l ∧ l.filter (fun a => !p a) = l := by
    rw [blocks_of_free hfree, List.filter_eq_self.2 (by simpa using hfree)]
    by_cases hl : l = [] <;> simp [hl]
  induction l using blocks_induction (p := p) with
  | free l hfree => exact (hfilter hfree).1.trans (hfilter hfree).2.symm
  | parted before a after hfree ha ih =>
    rw [blocks_append_cons ha, List.flatten_append, ih, List.filter_append, (hfilter hfree).1,
      (hfilter hfree).2, List.filter_cons_of_neg (by simp [ha])]

/-- Blocks of something coarser: what is no separator stands for some items without separators. -/
theorem blocks_flatMap {q : β → Bool} {f : α → List β}
    (hseparator : ∀ a ∈ l, p a = true → ∃ b, f a = [b] ∧ q b = true)
    (hitems : ∀ a ∈ l, p a = false → f a ≠ [] ∧ ∀ b ∈ f a, q b = false) :
    blocks q (l.flatMap f) = (blocks p l).map (·.flatMap f) := by
  have hblock {l : List α} (hfree : ∀ a ∈ l, p a = false)
      (hitems : ∀ a ∈ l, p a = false → f a ≠ [] ∧ ∀ b ∈ f a, q b = false) :
      blocks q (l.flatMap f) = (blocks p l).map (·.flatMap f) := by
    rw [blocks_of_free hfree, blocks_of_free]
    · cases l with
      | nil => rfl
      | cons a l =>
        have hne := (hitems a List.mem_cons_self (hfree a List.mem_cons_self)).1
        simp [hne]
    · intro b hb
      obtain ⟨a, ha, hb⟩ := List.mem_flatMap.1 hb
      exact (hitems a ha (hfree a ha)).2 b hb
  induction l using blocks_induction (p := p) with
  | free l hfree => exact hblock hfree hitems
  | parted before a after hfree ha ih =>
    rw [List.forall_mem_append, List.forall_mem_cons] at hseparator hitems
    obtain ⟨b, hb, hq⟩ := hseparator.2.1 ha
    rw [List.flatMap_append, List.flatMap_cons, hb, List.singleton_append, blocks_append_cons hq,
      blocks_append_cons ha, List.map_append, hblock hfree hitems.1, ih hseparator.2.2 hitems.2.2]

end blocks

/-! ## Items -/

/-- What a part of a command adds to its words. An anchor makes a word even if no character does. -/
inductive Item where
  | anchor
  | char (c : Char)
  | separator
deriving DecidableEq, Repr

namespace Item

def isSeparator : Item → Bool
  | separator => true
  | _ => false

def char? : Item → Option Char
  | char c => some c
  | _ => none

end Item

/-- The text of a block. -/
def spelled (block : List Item) : String := String.ofList (block.filterMap Item.char?)

theorem spelled_append (a b : List Item) : spelled (a ++ b) = spelled a ++ spelled b := by
  rw [spelled, List.filterMap_append, String.ofList_append, spelled, spelled]

/-- What a part of a command is made of. -/
def Segment.items : Segment → List Item
  | literal text => .anchor :: text.toList.map .char
  | expansion text => text.toList.map fun c => if isSplitChar c then .separator else .char c
  | gap => [.separator]

/-- A literal stands in a word as it is. -/
theorem spelled_items_literal (text : String) : spelled (Segment.literal text).items = text := by
  have hchar : Item.char? ∘ Item.char = some := rfl
  rw [spelled, Segment.items, List.filterMap_cons_none rfl, List.filterMap_map, hchar,
    List.filterMap_some, String.ofList_toList]

namespace Words

def addItem (w : Words) : Item → Words
  | .anchor => w.addText ""
  | .char c => w.addChar c
  | .separator => w.flush

theorem foldl_addChar (w : Words) (text cs : List Char) :
    cs.foldl addChar { w with current := some (String.ofList text) } =
      { w with current := some (String.ofList (text ++ cs)) } := by
  induction cs generalizing text with
  | nil => simp
  | cons c cs ih =>
    rw [List.foldl_cons, List.append_cons, ← ih, addChar, Option.getD_some]
    simp [String.ofList_append]

/-- A text is added character by character to the word that is open, or else to a new one. -/
theorem addText_eq_foldl (w : Words) (text : String) :
    w.addText text = text.toList.foldl addChar (w.addText "") := by
  have hchars := foldl_addChar w (w.current.getD "").toList text.toList
  rw [String.ofList_append, String.ofList_toList, String.ofList_toList] at hchars
  rw [addText, addText, String.append_empty, hchars]

theorem splitSegment_eq_foldl (w : Words) (segment : Segment) :
    w.splitSegment segment = segment.items.foldl addItem w := by
  cases segment with
  | literal text =>
    rw [splitSegment, addText_eq_foldl, Segment.items, List.foldl_cons, List.foldl_map]
    rfl
  | expansion text =>
    rw [splitSegment, Segment.items, List.foldl_map]
    congr 1
    funext w c
    unfold splitChar
    split <;> rfl
  | gap => rfl

/-- The words of finished blocks, and of a block that is still open. -/
def holding (finished : List String) (block : List Item) : Words :=
  ⟨finished, if block = [] then none else some (spelled block)⟩

theorem addItem_holding (finished : List String) (block : List Item) {item : Item}
    (hitem : item.isSeparator = false) :
    (holding finished block).addItem item = holding finished (block ++ [item]) := by
  have hcurrent : (holding finished block).current.getD "" = spelled block := by
    by_cases hblock : block = [] <;> simp [holding, hblock, spelled]
  have hnext : holding finished (block ++ [item]) =
      ⟨finished, some (spelled block ++ spelled [item])⟩ := by
    simp [holding, spelled_append]
  rw [hnext]
  cases item with
  | anchor =>
    rw [addItem, addText, hcurrent]
    rfl
  | char c =>
    rw [addItem, addChar, hcurrent]
    rfl
  | separator => cases hitem

theorem foldl_addItem (finished : List String) {block : List Item}
    (hfree : ∀ item ∈ block, item.isSeparator = false) :
    block.foldl addItem ⟨finished, none⟩ = holding finished block := by
  induction block using List.reverseRecOn with
  | nil => rfl
  | append_singleton block item ih =>
    rw [List.forall_mem_append, List.forall_mem_singleton] at hfree
    rw [List.foldl_append, ih hfree.1]
    exact addItem_holding finished block hfree.2

/-- A block that ends is a word, if it is anything. -/
theorem flush_holding (finished : List String) {block : List Item}
    (hfree : ∀ item ∈ block, item.isSeparator = false) :
    (holding finished block).flush =
      ⟨(blocks Item.isSeparator block).map spelled ++ finished, none⟩ := by
  rw [blocks_of_free hfree]
  by_cases hblock : block = [] <;> simp [holding, flush, hblock]

/-- Words that are built item by item are the blocks of the items. -/
theorem toList_foldl_addItem (items : List Item) (finished : List String) :
    (items.foldl addItem ⟨finished, none⟩).toList =
      finished.reverse ++ (blocks Item.isSeparator items).map spelled := by
  have hreverse {block : List Item} (hfree : ∀ item ∈ block, item.isSeparator = false) :
      ((blocks Item.isSeparator block).map spelled).reverse =
        (blocks Item.isSeparator block).map spelled := by
    rw [blocks_of_free hfree]
    by_cases hblock : block = [] <;> simp [hblock]
  induction items using blocks_induction (p := Item.isSeparator) generalizing finished with
  | free items hfree =>
    rw [foldl_addItem finished hfree, toList, flush_holding finished hfree, List.reverse_append,
      hreverse hfree]
  | parted block item after hfree hitem ih =>
    have hflush (w : Words) : w.addItem item = w.flush := by
      cases item with
      | separator => rfl
      | anchor | char => cases hitem
    rw [List.foldl_append, List.foldl_cons, foldl_addItem finished hfree, hflush,
      flush_holding finished hfree, ih, blocks_append_cons hitem, List.reverse_append,
      hreverse hfree, List.map_append, List.append_assoc]

theorem split_eq_map_spelled (segments : List Segment) :
    split segments =
      (blocks Item.isSeparator (segments.flatMap Segment.items)).map spelled := by
  have hsplit : split segments =
      ((segments.flatMap Segment.items).foldl addItem ⟨[], none⟩).toList := by
    rw [List.foldl_flatMap, split]
    congr 2
    funext w segment
    exact splitSegment_eq_foldl w segment
  rw [hsplit, toList_foldl_addItem]
  rfl

theorem spelled_eq_empty_iff {block : List Item}
    (hfree : ∀ item ∈ block, item.isSeparator = false) :
    spelled block = "" ↔ ∀ item ∈ block, item = .anchor := by
  rw [spelled, String.ofList_eq_empty_iff, List.filterMap_eq_nil_iff]
  refine forall₂_congr fun item hitem => ?_
  have hseparator := hfree item hitem
  cases item <;> simp_all [Item.char?, Item.isSeparator]

theorem flatMap_spelled (bs : List (List Item)) :
    (bs.map spelled).flatMap String.toList = bs.flatten.filterMap Item.char? := by
  rw [List.flatMap_map, List.filterMap_flatten, List.flatMap_def]
  simp [spelled]

theorem filterMap_char_filter (items : List Item) :
    (items.filter fun item => !item.isSeparator).filterMap Item.char? =
      items.filterMap Item.char? := by
  rw [List.filterMap_filter]
  congr 1
  funext item
  cases item <;> rfl

/-- **Splitting.** The words of a command are, in order, the texts of the blocks of what its parts
add. A word is empty only where there is nothing but empty literals; separators make no words,
wherever they stand and however many there are; and no other character is lost. -/
theorem split_eq_blocks (segments : List Segment) :
    split segments =
        (blocks Item.isSeparator (segments.flatMap Segment.items)).map spelled ∧
      ("" ∈ split segments ↔ ∃ block ∈ blocks Item.isSeparator (segments.flatMap Segment.items),
        ∀ item ∈ block, item = .anchor) ∧
      (∀ before gap after, segments.flatMap Segment.items = before ++ gap ++ after → gap ≠ [] →
        (∀ item ∈ gap, item = .separator) →
          split segments = (blocks Item.isSeparator before).map spelled ++
            (blocks Item.isSeparator after).map spelled) ∧
      (split segments).flatMap String.toList =
        (segments.flatMap Segment.items).filterMap Item.char? := by
  rw [split_eq_map_spelled]
  refine ⟨rfl, ?_, fun before gap after heq hne hgap => ?_, ?_⟩
  · rw [List.mem_map]
    refine exists_congr fun block => and_congr_right fun hblock => ?_
    exact spelled_eq_empty_iff (of_mem_blocks hblock).2
  · rw [heq, blocks_append_append hne fun item hitem => by rw [hgap item hitem]; rfl,
      List.map_append]
  · rw [flatMap_spelled, flatten_blocks, filterMap_char_filter]

/-- Literals beside expansions, separators at both ends and in a row, and empty parts. -/
example : split [.expansion " a", .literal "b c", .expansion "\t ", .gap, .literal "", .expansion "",
    .gap, .expansion "", .gap, .expansion "d\n"] = ["ab c", "", "d"] := by decide

end Words

/-! ## Words without splitting -/

/-- An expansion as a literal. An empty one adds nothing. -/
def Segment.solid : Segment → List Segment
  | expansion text => if text.isEmpty then [] else [literal text]
  | segment => [segment]

namespace Words

theorem foldl_splitChar {cs : List Char} (hcs : ∀ c ∈ cs, isSplitChar c = false) (w : Words) :
    cs.foldl splitChar w = cs.foldl addChar w := by
  induction cs generalizing w with
  | nil => rfl
  | cons c cs ih =>
    obtain ⟨hc, hcs⟩ := List.forall_mem_cons.1 hcs
    rw [List.foldl_cons, List.foldl_cons, ih hcs, splitChar, if_neg (by simp [hc])]

/-- The first character of a text opens a word just as the text does. -/
theorem foldl_addChar_eq_addText {text : String} (hne : text ≠ "") (w : Words) :
    text.toList.foldl addChar w = w.addText text := by
  have hopen (c : Char) : (w.addText "").addChar c = w.addChar c := by
    simp [addText, addChar]
  rw [addText_eq_foldl]
  cases htext : text.toList with
  | nil => exact absurd (String.toList_eq_nil_iff.1 htext) hne
  | cons c cs => rw [List.foldl_cons, List.foldl_cons, hopen]

/-- Where there is nothing to split, a part adds the same to words either way. -/
theorem splitSegment_eq_joinSegment {segment : Segment}
    (h : ∀ text, segment = .expansion text → ∀ c ∈ text.toList, isSplitChar c = false)
    (w : Words) : w.splitSegment segment = w.joinSegment segment := by
  cases segment with
  | literal text => rfl
  | gap => rfl
  | expansion text =>
    rw [splitSegment, joinSegment, foldl_splitChar (h text rfl)]
    split
    · rename_i hempty
      rw [String.isEmpty_iff.1 hempty]
      rfl
    · rename_i hne
      exact foldl_addChar_eq_addText (fun hempty => hne (String.isEmpty_iff.2 hempty)) w

theorem joinSegment_eq_foldl (w : Words) (segment : Segment) :
    w.joinSegment segment = segment.solid.foldl joinSegment w := by
  cases segment with
  | literal text => rfl
  | gap => rfl
  | expansion text =>
    rw [joinSegment, Segment.solid]
    split <;> rfl

/-- **Joining.** Where no expansion holds a character at which it is split, the words without
splitting are the words of the command with a space between them. Without splitting an expansion is
like a literal, and an empty one like nothing. -/
theorem join_eq_split (segments : List Segment) :
    ((∀ text, .expansion text ∈ segments → ∀ c ∈ text.toList, isSplitChar c = false) →
        join segments = " ".intercalate (split segments)) ∧
      join segments = join (segments.flatMap Segment.solid) := by
  constructor
  · intro hwhole
    rw [join, split, List.foldl_ext joinSegment splitSegment]
    intro w segment hsegment
    refine (splitSegment_eq_joinSegment (fun text htext => ?_) w).symm
    exact hwhole text (htext ▸ hsegment)
  · rw [join, join, List.foldl_flatMap]
    congr 3
    funext w segment
    exact joinSegment_eq_foldl w segment

/-- A target in three parts, one of which is empty, and another word behind it. -/
theorem join_eq_split_target :
    (∀ text, .expansion text ∈ [Segment.literal "out", .expansion "", .expansion ".txt", .gap,
        .expansion "b"] → ∀ c ∈ text.toList, isSplitChar c = false) ∧
      join [.literal "out", .expansion "", .expansion ".txt", .gap, .expansion "b"] =
        " ".intercalate ["out.txt", "b"] := by
  have hwhole : ∀ text, .expansion text ∈ [Segment.literal "out", .expansion "",
      .expansion ".txt", .gap, .expansion "b"] → ∀ c ∈ text.toList, isSplitChar c = false := by
    intro text htext
    simp only [List.mem_cons, Segment.expansion.injEq, reduceCtorEq, List.not_mem_nil, false_or,
      or_false] at htext
    rcases htext with rfl | rfl | rfl <;> simp [isSplitChar]
  exact ⟨hwhole, (join_eq_split _).1 hwhole⟩

end Words

end PocketShell
