import PocketShell.Proofs.Streams.Wakeups

/-!
# Chunks and byte offsets

The text in a stream can be kept as the chunks that were written and one number, which says how many
bytes of the oldest chunk have been read. Reading then cuts that chunk at a byte, which is possible
only if the chunk is long enough and a character begins there.

* `cut?` : a chunk from a byte on, if it can be cut there;
* `Packed` : chunks with an offset. `Packed.push`, `Packed.advance`, `Packed.drain?`, `Packed.front?`
  and `Packed.serve?` are the operations on them, and fail where a cut fails;
* `Packed.WellFormed` : no chunk is empty, and the offset is in the first chunk and splits no character
  of it. `WellFormed.push`, `WellFormed.advance` and `WellFormed.serve` keep this;
* `Packed.replay?` : one entry of the log of a run, on chunks with an offset;
* `Stream.packed` : what a stream holds, as chunks with an offset. Writing and reading are the same in
  both forms (`Stream.packed_write`, `Stream.packed_drain`, `Stream.packed_serve`).

`Bench.run_keeps_offset` says of every run that its log can be replayed on chunks with an offset, and
what holds of these then.
-/

namespace PocketShell

/-! ## Cutting a chunk -/

/-- The chunk from byte `n` on, if it has so many bytes and no character is split there. -/
def cut? (chunk : String) (n : Nat) : Option String :=
  if h : String.Pos.Raw.IsValid chunk ⟨n⟩ then some (chunk.sliceFrom ⟨⟨n⟩, h⟩).copy else none

theorem isValid_iff_exists_append {chunk : String} {n : Nat} :
    String.Pos.Raw.IsValid chunk ⟨n⟩ ↔
      ∃ before left : String, chunk = before ++ left ∧ n = before.utf8ByteSize := by
  rw [String.Pos.Raw.isValid_iff_exists_append]
  simp [String.Pos.Raw.ext_iff]

theorem cut?_append (before left : String) :
    cut? (before ++ left) before.utf8ByteSize = some left := by
  have hvalid : String.Pos.Raw.IsValid (before ++ left) ⟨before.utf8ByteSize⟩ :=
    isValid_iff_exists_append.2 ⟨before, left, rfl, rfl⟩
  have hsplits : String.Pos.Splits (⟨_, hvalid⟩ : (before ++ left).Pos) before left := ⟨rfl, rfl⟩
  rw [cut?, dif_pos hvalid, hsplits.copy_sliceFrom_eq]

example : cut? "é日" 2 = some "日" ∧ cut? "é日" 1 = none ∧ cut? "é日" 6 = none := by decide

/-! ## Chunks with an offset -/

structure Packed where
  /-- The chunks as they were written, oldest first. -/
  chunks : List String := []
  /-- The number of bytes of the first chunk that have been read. -/
  start : Nat := 0
deriving DecidableEq, Repr

namespace Packed

/-- Adds a chunk behind the others. Empty text leaves no trace. -/
def push (p : Packed) (text : String) : Packed :=
  if text = "" then p else { p with chunks := p.chunks ++ [text] }

/-- Everything there is. -/
def drain? (p : Packed) : Option (String × Packed) :=
  match p.chunks with
  | [] => some ("", {})
  | chunk :: rest => (cut? chunk p.start).map fun left => (String.join (left :: rest), {})

/-- The next character, if there is one. -/
def front? (p : Packed) : Option (Option Char) :=
  match p.chunks with
  | [] => some none
  | chunk :: _ => (cut? chunk p.start).map (·.toList.head?)

/-- Moves past a character. A chunk of which all has been read goes. -/
def advance (p : Packed) (ch : Char) : Packed :=
  match p.chunks with
  | [] => { p with start := p.start + ch.utf8Size }
  | chunk :: rest =>
    if chunk.utf8ByteSize ≤ p.start + ch.utf8Size then { chunks := rest }
    else { p with start := p.start + ch.utf8Size }

/-- Serves a read, if there is any chunk. -/
def serve? (p : Packed) : Want → Option (Option (String × Packed))
  | .chunk => if p.chunks.isEmpty then some none else p.drain?.map some
  | .char => p.front?.map (·.map fun ch => (ch.toString, p.advance ch))
  | .peek => p.front?.map (·.map fun ch => (ch.toString, p))

/-- No chunk is empty, and what has been read of the first ends with a character and is not all of
it. -/
structure WellFormed (p : Packed) : Prop where
  ne_empty : ∀ chunk ∈ p.chunks, chunk ≠ ""
  start_of_nil : p.chunks = [] → p.start = 0
  start_lt : ∀ chunk ∈ p.chunks.head?, p.start < chunk.utf8ByteSize
  isValid : ∀ chunk ∈ p.chunks.head?, String.Pos.Raw.IsValid chunk ⟨p.start⟩

namespace WellFormed

variable {p q : Packed} {chunk text : String} {rest : List String} {ch : Char}

theorem nil : WellFormed {} := ⟨by simp, by simp, by simp, by simp⟩

/-- The first chunk is what has been read of it and what has not, and the latter is something. -/
theorem exists_append (h : p.WellFormed) (hp : p.chunks = chunk :: rest) :
    ∃ before left, chunk = before ++ left ∧ p.start = before.utf8ByteSize ∧ left ≠ "" := by
  have hhead : chunk ∈ p.chunks.head? := by simp [hp]
  obtain ⟨before, left, rfl, hstart⟩ := isValid_iff_exists_append.1 (h.isValid chunk hhead)
  refine ⟨before, left, rfl, hstart, ?_⟩
  rintro rfl
  have hlt := h.start_lt _ hhead
  rw [hstart, String.append_empty] at hlt
  exact absurd hlt (Nat.lt_irrefl _)

theorem of_append (before : String) {left : String} (hleft : left ≠ "")
    (hrest : ∀ text ∈ rest, text ≠ "") :
    WellFormed ⟨(before ++ left) :: rest, before.utf8ByteSize⟩ where
  ne_empty := by
    have hne : before ++ left ≠ "" := by simp [hleft]
    simpa [hne] using hrest
  start_of_nil := by simp
  start_lt := by
    have hpos : left.utf8ByteSize ≠ 0 := fun h => hleft (String.utf8ByteSize_eq_zero_iff.1 h)
    simp only [List.head?_cons, Option.mem_some_iff, forall_eq', String.utf8ByteSize_append]
    omega
  isValid := by
    simp only [List.head?_cons, Option.mem_some_iff, forall_eq']
    exact isValid_iff_exists_append.2 ⟨before, left, rfl, rfl⟩

/-- Chunks of which nothing has been read. -/
theorem of_unread {chunks : List String} (h : ∀ text ∈ chunks, text ≠ "") :
    WellFormed { chunks := chunks } := by
  cases chunks with
  | nil => exact nil
  | cons chunk rest =>
    simp only [List.mem_cons, forall_eq_or_imp] at h
    simpa using of_append "" h.1 h.2

theorem push (h : p.WellFormed) (text : String) : (p.push text).WellFormed := by
  unfold Packed.push
  split
  · exact h
  · rename_i htext
    have hall : ∀ chunk ∈ p.chunks ++ [text], chunk ≠ "" := by
      simpa [or_imp, forall_and, htext] using h.ne_empty
    obtain ⟨chunks, start⟩ := p
    cases chunks with
    | nil =>
      obtain rfl : start = 0 := h.start_of_nil rfl
      exact of_unread hall
    | cons chunk rest =>
      obtain ⟨before, left, rfl, rfl, hleft⟩ := h.exists_append rfl
      exact of_append before hleft fun chunk hchunk => hall chunk (List.mem_cons_of_mem _ hchunk)

/-- The next character begins where the offset is, and there is one if there is a chunk. -/
theorem front?_cons (h : p.WellFormed) (hp : p.chunks = chunk :: rest) :
    ∃ before ch cs, chunk = before ++ String.ofList (ch :: cs) ∧ p.start = before.utf8ByteSize ∧
      p.front? = some (some ch) := by
  obtain ⟨before, left, rfl, hstart, hleft⟩ := h.exists_append hp
  obtain ⟨ch, cs, hcs⟩ : ∃ ch cs, left.toList = ch :: cs :=
    List.exists_cons_of_ne_nil fun hnil => hleft (String.toList_eq_nil_iff.1 hnil)
  refine ⟨before, ch, cs, by rw [← hcs, String.ofList_toList], hstart, ?_⟩
  simp only [front?, hp, hstart, cut?_append, Option.map_some, hcs, List.head?_cons]

theorem front?_eq_none_iff (h : p.WellFormed) : p.front? = some none ↔ p.chunks = [] := by
  cases hp : p.chunks with
  | nil => simp [front?, hp]
  | cons chunk rest =>
    obtain ⟨before, ch, cs, -, -, hfront⟩ := h.front?_cons hp
    simp [hfront]

theorem advance (h : p.WellFormed) (hfront : p.front? = some (some ch)) :
    (p.advance ch).WellFormed := by
  obtain ⟨chunks, start⟩ := p
  cases chunks with
  | nil => simp [front?] at hfront
  | cons chunk rest =>
    have hrest : ∀ text ∈ rest, text ≠ "" :=
      fun text htext => h.ne_empty text (List.mem_cons_of_mem _ htext)
    obtain ⟨before, c, cs, rfl, rfl, hc⟩ := h.front?_cons rfl
    obtain rfl : c = ch := Option.some.inj (Option.some.inj (hc.symm.trans hfront))
    unfold Packed.advance
    dsimp only
    split
    · exact of_unread hrest
    · rename_i hlt
      -- one more character has been read, and it was not the last of the chunk
      rw [String.ofList_cons, ← String.append_assoc] at hlt ⊢
      rw [← String.utf8ByteSize_singleton, ← String.utf8ByteSize_append] at hlt ⊢
      refine of_append _ ?_ hrest
      intro hcs
      simp [hcs] at hlt

end WellFormed

/-! ## Logs replayed -/

/-- What is left after a read, if it gave this answer. -/
def leaving? (value : String) (out : String × Packed) : Option Packed :=
  if out.1 = value then some out.2 else none

/-- An operation of a log. It fails where a cut fails, and if another answer would be given. -/
def replay? (p : Packed) (e : Bench.Entry) : Option Packed :=
  match e.op, e.want?, e.answer with
  | .write text, _, .done => some (p.push text)
  | .readNow, _, .text value => p.drain?.bind (leaving? value)
  | _, some want, .text value => (p.serve? want).join.bind (leaving? value)
  | _, _, _ => some p

theorem leaving?_eq_some {value : String} {out : String × Packed} {q : Packed}
    (h : leaving? value out = some q) : out = (value, q) := by
  unfold leaving? at h
  split at h
  · rename_i hvalue
    exact Prod.ext hvalue (Option.some.inj h)
  · cases h

theorem eq_nil_of_drain? {p q : Packed} {value : String} (h : p.drain? = some (value, q)) :
    q = {} := by
  unfold drain? at h
  split at h
  · exact (Prod.mk.inj (Option.some.inj h)).2.symm
  · obtain ⟨left, -, hout⟩ := Option.map_eq_some_iff.1 h
    exact (Prod.mk.inj hout).2.symm

namespace WellFormed

variable {p q : Packed} {value : String} {want : Want} {e : Bench.Entry}

theorem serve (h : p.WellFormed) (hserve : p.serve? want = some (some (value, q))) :
    q.WellFormed := by
  cases want with
  | chunk =>
    dsimp only [serve?] at hserve
    split at hserve
    · cases hserve
    · obtain ⟨out, hdrain, hout⟩ := Option.map_eq_some_iff.1 hserve
      cases hout
      rw [eq_nil_of_drain? hdrain]
      exact nil
  | char =>
    obtain ⟨front, hfront, hout⟩ := Option.map_eq_some_iff.1 hserve
    obtain ⟨ch, rfl, hch⟩ := Option.map_eq_some_iff.1 hout
    cases hch
    exact h.advance hfront
  | peek =>
    obtain ⟨front, -, hout⟩ := Option.map_eq_some_iff.1 hserve
    obtain ⟨ch, -, hch⟩ := Option.map_eq_some_iff.1 hout
    cases hch
    exact h

theorem replay (h : p.WellFormed) (hreplay : p.replay? e = some q) : q.WellFormed := by
  unfold replay? at hreplay
  split at hreplay
  · cases hreplay
    exact h.push _
  · obtain ⟨out, hdrain, hout⟩ := Option.bind_eq_some_iff.1 hreplay
    rw [leaving?_eq_some hout] at hdrain
    rw [eq_nil_of_drain? hdrain]
    exact nil
  · obtain ⟨out, hserve, hout⟩ := Option.bind_eq_some_iff.1 hreplay
    rw [leaving?_eq_some hout] at hserve
    exact h.serve (Option.join_eq_some_iff.1 hserve)
  · cases hreplay
    exact h

end WellFormed

end Packed

/-! ## Streams as chunks with an offset -/

namespace Stream

variable {s t : Stream} {ch : Char} {text : String} {want : Want}

/-- Chunks as they were written, when `passed` has been read of the first. -/
def whole (passed : List Char) : List (List Char) → List String
  | [] => []
  | chunk :: rest => String.ofList (passed.reverse ++ chunk) :: rest.map String.ofList

/-- What the stream holds, as chunks with an offset. -/
def packed (s : Stream) : Packed := ⟨whole s.passed s.chunks, s.offset⟩

theorem whole_nil (chunks : List (List Char)) : whole [] chunks = chunks.map String.ofList := by
  cases chunks <;> rfl

/-- One more character is read. -/
theorem utf8ByteSize_read (c : Char) (passed : List Char) :
    (String.ofList (c :: passed).reverse).utf8ByteSize =
      (String.ofList passed.reverse).utf8ByteSize + c.utf8Size := by
  simp [String.ofList_append]

theorem foldl_utf8Size (cs : List Char) (n : Nat) :
    cs.foldl (fun n c => n + c.utf8Size) n = (String.ofList cs.reverse).utf8ByteSize + n := by
  induction cs generalizing n with
  | nil => simp
  | cons c cs ih =>
    rw [List.foldl_cons, ih, utf8ByteSize_read]
    omega

theorem offset_eq (s : Stream) : s.offset = (String.ofList s.passed.reverse).utf8ByteSize :=
  foldl_utf8Size s.passed 0

/-- A well-formed stream has nothing, or a next character in the first of its chunks. -/
theorem packed_cases (h : s.packed.WellFormed) :
    s.chunks = [] ∧ s.passed = [] ∨ ∃ ch cs rest, s.chunks = (ch :: cs) :: rest := by
  cases hchunks : s.chunks with
  | nil =>
    have hzero : s.offset = 0 := h.start_of_nil (by simp [packed, whole, hchunks])
    rw [offset_eq, String.utf8ByteSize_eq_zero_iff, String.ofList_eq_empty_iff,
      List.reverse_eq_nil_iff] at hzero
    exact .inl ⟨rfl, hzero⟩
  | cons chunk rest =>
    cases chunk with
    | nil =>
      have hlt := h.start_lt (String.ofList s.passed.reverse) (by simp [packed, whole, hchunks])
      rw [packed, offset_eq] at hlt
      exact absurd hlt (Nat.lt_irrefl _)
    | cons ch cs => exact .inr ⟨ch, cs, rest, rfl⟩

theorem packed_cons {chunk : List Char} {rest : List (List Char)} (h : s.chunks = chunk :: rest) :
    s.packed = ⟨(String.ofList s.passed.reverse ++ String.ofList chunk) :: rest.map String.ofList,
      (String.ofList s.passed.reverse).utf8ByteSize⟩ := by
  simp only [packed, h, whole, offset_eq, String.ofList_append]

theorem packed_unread (h : s.passed = []) :
    s.packed = { chunks := s.chunks.map String.ofList } := by
  rw [packed, offset, h, whole_nil]
  rfl

/-! ### What does not touch the buffer -/

@[simp] theorem packed_wakeNext (s : Stream) : s.wakeNext.packed = s.packed := by
  unfold wakeNext
  split <;> rfl

@[simp] theorem packed_passOn (s : Stream) : s.passOn.packed = s.packed := by
  unfold passOn
  split <;> simp

theorem packed_without (s : Stream) (ticket : Option Nat) :
    (s.without ticket).packed = s.packed := by
  cases ticket <;> rfl

theorem packed_close (h : s.close = .ok t) : t.packed = s.packed := by
  unfold close at h
  split at h
  · cases h
  · cases h
    rfl

/-! ### Writing -/

theorem passed_append (s : Stream) (chunk : List Char) : (s.append chunk).passed = s.passed := by
  unfold append
  split <;> rfl

theorem packed_append (h : s.packed.WellFormed) {chunk : List Char} (hchunk : chunk ≠ []) :
    (s.append chunk).packed = s.packed.push (String.ofList chunk) := by
  have hne : String.ofList chunk ≠ "" := by simpa using hchunk
  have hoffset : (s.append chunk).offset = s.offset := by rw [offset, passed_append, offset]
  rw [Packed.push, if_neg hne, packed, chunks_append, passed_append, hoffset, packed]
  rcases packed_cases h with ⟨hchunks, hpassed⟩ | ⟨ch, cs, rest, hchunks⟩
  · simp [hchunks, hpassed, whole]
  · simp [hchunks, whole]

theorem packed_write (h : s.packed.WellFormed) (hw : s.write text = .ok t) :
    t.packed = s.packed.push text := by
  unfold write at hw
  split at hw
  · cases hw
  · split at hw
    · rename_i hnil
      cases hw
      rw [Packed.push, if_pos (by simpa using hnil)]
    · rename_i hne
      cases hw
      rw [packed_wakeNext, packed_append h (by simpa using hne), String.ofList_toList]

/-! ### Reading -/

theorem join_map_ofList (chunks : List (List Char)) :
    String.join (chunks.map String.ofList) = String.ofList chunks.flatten := by
  apply String.toList_injective
  rw [String.toList_join, List.flatMap_map]
  simp

theorem packed_drain (h : s.packed.WellFormed) :
    s.packed.drain? = some (s.drain.1, s.drain.2.packed) := by
  have hleft : s.drain.2.packed = {} := rfl
  rcases packed_cases h with ⟨hchunks, hpassed⟩ | ⟨ch, cs, rest, hchunks⟩
  · rw [hleft, packed_unread hpassed, hchunks, drain, Stream.text, hchunks]
    rfl
  · rw [hleft, packed_cons hchunks]
    simp only [Packed.drain?, cut?_append, Option.map_some, drain, Stream.text, hchunks]
    rw [← List.map_cons, join_map_ofList]

theorem isEmpty_packed (h : s.packed.WellFormed) : s.packed.chunks.isEmpty = s.isEmpty := by
  rw [Bool.eq_iff_iff, isEmpty_iff, Stream.text]
  rcases packed_cases h with ⟨hchunks, -⟩ | ⟨ch, cs, rest, hchunks⟩
  · simp [packed, hchunks, whole]
  · simp [packed, hchunks, whole]

theorem packed_front? (h : s.packed.WellFormed) : s.packed.front? = some s.front? := by
  rw [front?_eq_head?, Stream.text]
  rcases packed_cases h with ⟨hchunks, hpassed⟩ | ⟨ch, cs, rest, hchunks⟩
  · rw [packed_unread hpassed, hchunks]
    rfl
  · rw [packed_cons hchunks, hchunks]
    simp [Packed.front?, cut?_append]

theorem advanceIn_append (passed : List Char) {front : List (List Char)} (h : front.flatten ≠ [])
    (rest : List (List Char)) :
    advanceIn passed (front ++ rest) =
      ((advanceIn passed front).1, (advanceIn passed front).2 ++ rest) := by
  fun_induction advanceIn passed front with
  | case1 => exact absurd rfl h
  | case2 passed chunks ih => exact ih h
  | case3 => rfl
  | case4 passed c cs chunks hne =>
    obtain ⟨d, ds, rfl⟩ := List.exists_cons_of_ne_nil hne
    rfl

theorem passed_settle (s : Stream) : s.settle.passed = s.passed := by
  unfold settle
  split <;> rfl

/-- Moving on is the same for chunks in one list and in two. -/
theorem advance_eq (s : Stream) :
    (s.advance.passed, s.advance.chunks) = advanceIn s.passed s.chunks := by
  rw [← chunks_settle s, ← passed_settle s]
  unfold advance
  rw [chunks_settle, passed_settle]
  simp only [chunks]
  rcases front_settle s with h | h
  · rw [advanceIn_append _ h]
  · simp [h]

theorem packed_advance (h : s.packed.WellFormed) (hfront : s.front? = some ch) :
    s.advance.packed = s.packed.advance ch := by
  rw [front?_eq_head?, Stream.text] at hfront
  rcases packed_cases h with ⟨hchunks, -⟩ | ⟨c, cs, rest, hchunks⟩
  · simp [hchunks] at hfront
  · obtain rfl : c = ch := by simpa [hchunks] using hfront
    have hadvance := s.advance_eq
    rw [hchunks] at hadvance
    rw [packed_cons hchunks, Packed.advance]
    dsimp only
    rw [String.utf8ByteSize_append]
    cases cs with
    | nil =>
      -- the last character of the chunk, which goes with it
      obtain ⟨hpassed, hrest⟩ := Prod.mk.inj hadvance
      rw [packed_unread hpassed, hrest, if_pos (by simp)]
    | cons d ds =>
      obtain ⟨hpassed, hrest⟩ := Prod.mk.inj hadvance
      have hmore : ¬ (String.ofList (c :: d :: ds)).utf8ByteSize ≤ c.utf8Size := by
        have hpos := d.utf8Size_pos
        simp only [String.ofList_cons, String.utf8ByteSize_append, String.utf8ByteSize_singleton]
        omega
      rw [packed_cons hrest, hpassed, utf8ByteSize_read, if_neg (by omega), ← String.ofList_append,
        ← String.ofList_append, List.reverse_cons, List.append_assoc, List.singleton_append]

/-- A read of chunks with an offset takes what a read of the stream takes, and leaves what it leaves. -/
theorem packed_serve (h : s.packed.WellFormed) (want : Want) :
    s.packed.serve? want = some ((want.serve s).map fun out => (out.1, out.2.packed)) := by
  cases want with
  | chunk =>
    rw [Packed.serve?, Want.serve, takeChunk?, packed_drain h, isEmpty_packed h]
    cases s.isEmpty <;> rfl
  | char =>
    rw [Packed.serve?, Want.serve, takeChar?, packed_front? h]
    cases hfront : s.front? with
    | none => rfl
    | some ch => simp [packed_advance h hfront]
  | peek =>
    rw [Packed.serve?, Want.serve, peekChar?, packed_front? h]
    cases s.front? <;> simp

/-! ### New streams -/

/-- A stream as it is made: with nothing in it, or closed with a text. -/
inductive Created : Stream → Prop where
  | empty (cancellable : Bool) : Created { cancellable := cancellable }
  | ofText (text : String) : Created (ofText text)

theorem packed_shut (s : Stream) : s.shut.packed = s.packed := by
  unfold shut
  rcases s.close_cases with ⟨-, h⟩ | ⟨-, t, h, -, -⟩
  · rw [h]
    rfl
  · rw [h]
    exact packed_close h

theorem Created.wellFormed (h : s.Created) : s.packed.WellFormed := by
  cases h with
  | empty => exact Packed.WellFormed.nil
  | ofText text =>
    obtain ⟨t, hw, -, -⟩ := write_of_open (s := {}) rfl text
    have hput : put {} text = t := by rw [put, hw]; rfl
    rw [Stream.ofText, hput, packed_shut, packed_write (s := {}) .nil hw]
    exact Packed.WellFormed.nil.push text

/-! ### Polls -/

section

variable {c c' : Cancellation} {ticket : Option Nat} {fired : Bool} {out : Polled String}

theorem Attempted.packed (h : s.packed.WellFormed) (ha : Attempted want.serve s fired t out) :
    (∃ value, out = .ready (.ok value) ∧ s.packed.serve? want = some (some (value, t.packed))) ∨
      (∀ value, out ≠ .ready (.ok value)) ∧ t.packed = s.packed := by
  cases ha with
  | served hserve =>
    refine .inl ⟨_, rfl, ?_⟩
    rw [packed_serve h, hserve]
    rfl
  | ended | cancelled | queued => exact .inr ⟨by simp, rfl⟩

/-- A poll of a read takes something of the chunks if it is answered, and leaves them alone else. -/
theorem Polls.packed (h : s.packed.WellFormed) (hp : Polls want.serve s c ticket t c' out) :
    (∃ value, out = .ready (.ok value) ∧ s.packed.serve? want = some (some (value, t.packed))) ∨
      (∀ value, out ≠ .ready (.ok value)) ∧ t.packed = s.packed := by
  cases hp with
  | fresh ha => exact ha.packed h
  | called _ _ ha => exact Attempted.packed (s := s.abandon _) h ha
  | givesUp | stays => exact .inr ⟨by simp, rfl⟩

theorem serve_ne_none (h : s.packed.WellFormed) (hchunks : s.packed.chunks ≠ []) :
    want.serve s ≠ none := by
  rw [ne_eq, Want.serve_eq_none_iff, ← isEmpty_iff, ← isEmpty_packed h]
  simpa using hchunks

/-- Who has to wait beside a chunk has not been called, and was not looked at. -/
theorem Polls.stays_of_chunks {n : Nat} (h : s.packed.WellFormed) (hchunks : s.packed.chunks ≠ [])
    (hp : Polls want.serve s c ticket t c' (.waiting n)) :
    t = s ∧ ticket = some n ∧ n ∉ s.woken := by
  cases hp with
  | fresh ha =>
    cases ha with
    | queued hserve => exact absurd hserve (serve_ne_none h hchunks)
  | called _ _ ha =>
    cases ha with
    | queued hserve => exact absurd hserve (serve_ne_none (s := s.abandon _) h hchunks)
  | stays hn => exact ⟨rfl, rfl, hn⟩

end

end Stream

namespace Bench

variable {b : Bench} {op : Op} {name : String} {r : Reader}

/-! ## Runs -/

theorem replay_pollReader (h : b.stream.packed.WellFormed)
    (hop : op = .start name r.want ∨ op = .poll name) :
    b.stream.packed.replay? ⟨op, some r.want, (b.pollReader name r).2⟩ =
      some (b.pollReader name r).1.stream.packed := by
  obtain ⟨c, out, hpolls, hanswer⟩ := polls_pollReader b name r
  rw [hanswer]
  rcases hpolls.packed h with ⟨value, rfl, hserve⟩ | ⟨hout, hpacked⟩
  · rcases hop with rfl | rfl <;>
      simp [Packed.replay?, Packed.leaving?, Answer.ofPolled, hserve]
  · rw [hpacked]
    rcases out with ⟨cause | value⟩ | ticket
    · rcases hop with rfl | rfl <;> rfl
    · exact absurd rfl (hout value)
    · rcases hop with rfl | rfl <;> rfl

theorem packed_dropReader (b : Bench) (name : String) :
    (b.dropReader name).stream.packed = b.stream.packed := by
  rw [dropReader_eq]
  exact Stream.packed_without _ _

/-- One operation: the chunks and the offset come to be what they are by the same operation on them. -/
theorem replay_step (h : b.stream.packed.WellFormed) (op : Op) :
    b.stream.packed.replay? (b.entry op) = some (b.step op).1.stream.packed := by
  cases op with
  | write text =>
    rcases b.stream.write_cases text with ⟨-, hw⟩ | ⟨-, t, hw, -, -⟩
    · simp [entry, step, hw, Packed.replay?]
    · simp [entry, step, hw, Packed.replay?, Stream.packed_write h hw]
  | close =>
    rcases b.stream.close_cases with ⟨-, hc⟩ | ⟨-, t, hc, -, -⟩
    · simp [entry, step, hc, Packed.replay?]
    · simp [entry, step, hc, Packed.replay?, Stream.packed_close hc]
  | readNow =>
    rcases b.stream.readNow_cases with ⟨-, -, hr⟩ | hr
    · simp [entry, step, hr, Packed.replay?]
    · simp [entry, step, hr, Packed.replay?, Packed.leaving?, Stream.packed_drain h]
  | start name want =>
    rw [← packed_dropReader b name] at h ⊢
    exact replay_pollReader (r := { want := want }) h (.inl rfl)
  | poll name =>
    cases hr : b.reader? name with
    | some r =>
      have hentry : b.entry (.poll name) = ⟨.poll name, some r.want, (b.pollReader name r).2⟩ := by
        simp [entry, want?, step, hr]
      have hstep : b.step (.poll name) = b.pollReader name r := by simp only [step, hr]
      rw [hentry, hstep]
      exact replay_pollReader h (.inr rfl)
    | none => simp [entry, step, hr, Packed.replay?]
  | isClosed | cancel => rfl
  | drop name => exact congrArg some (packed_dropReader b name).symm

/-- Every run, replayed. -/
theorem replay_run (h : b.stream.packed.WellFormed) (ops : List Op) :
    (b.run ops).2.foldlM Packed.replay? b.stream.packed = some (b.after ops).stream.packed ∧
      (b.after ops).stream.packed.WellFormed := by
  induction ops generalizing b with
  | nil => exact ⟨rfl, h⟩
  | cons op ops ih =>
    have hstep := replay_step h op
    obtain ⟨hrun, hwell⟩ := ih (h.replay hstep)
    refine ⟨?_, hwell⟩
    simp only [run, List.foldlM_cons, hstep, Option.bind_eq_bind, Option.bind_some]
    exact hrun

theorem waiting_of_pollReader (h : b.stream.packed.WellFormed)
    (hchunks : b.stream.packed.chunks ≠ []) (hpending : (b.pollReader name r).2 = .pending) :
    ∃ n ∈ r.ticket, n ∉ b.stream.woken ∧ (b.pollReader name r).1.stream = b.stream := by
  obtain ⟨c, out, hpolls, hanswer⟩ := polls_pollReader b name r
  rw [hanswer] at hpending
  rcases out with ⟨cause | value⟩ | n
  · cases hpending
  · cases hpending
  · obtain ⟨hstream, hticket, hn⟩ := hpolls.stays_of_chunks h hchunks
    exact ⟨n, hticket, hn, hstream⟩

/-- Where there is a chunk, nobody has to wait but who has a place in the queue from before and has not
been called. -/
theorem waiting_of_pending (h : b.stream.packed.WellFormed) (hchunks : b.stream.packed.chunks ≠ [])
    (hpending : (b.step op).2 = .pending) :
    ∃ name, op = .poll name ∧ (∃ n ∈ b.ticket? name, n ∉ b.stream.woken) ∧
      (b.step op).1.stream = b.stream := by
  cases op with
  | start name want =>
    rw [← packed_dropReader b name] at h hchunks
    obtain ⟨n, hn, -⟩ := waiting_of_pollReader (r := { want := want }) h hchunks hpending
    cases hn
  | poll name =>
    cases hr : b.reader? name with
    | some r =>
      have hstep : b.step (.poll name) = b.pollReader name r := by simp only [step, hr]
      rw [hstep] at hpending ⊢
      obtain ⟨n, hn, hwoken, hstream⟩ := waiting_of_pollReader h hchunks hpending
      exact ⟨name, rfl, ⟨n, by simpa [ticket?, hr] using hn, hwoken⟩, hstream⟩
    | none => simp [step, hr] at hpending
  | write text =>
    rcases b.stream.write_cases text with ⟨-, hw⟩ | ⟨-, t, hw, -⟩ <;> simp [step, hw] at hpending
  | close =>
    rcases b.stream.close_cases with ⟨-, hc⟩ | ⟨-, t, hc, -⟩ <;> simp [step, hc] at hpending
  | readNow =>
    rcases b.stream.readNow_cases with ⟨-, -, hr⟩ | hr <;> simp [step, hr] at hpending
  | isClosed | cancel | drop => cases hpending

/-- In every run that begins with a new stream:

* no chunk is empty; where there is no chunk the offset is zero, and else it is less than the size of
  the first chunk and begins one of its characters;
* the log of the run can be replayed on chunks with an offset, with every cut on the way;
* the first chunk can be cut at the offset, and something is left of it;
* there is a next character unless there is no chunk;
* and while there is a chunk, nobody begins to wait. -/
theorem run_keeps_offset (b : Bench) (ops : List Op) (after : Bench) (log : List Entry)
    (hnew : b.stream.Created) (hrun : b.run ops = (after, log)) :
    after.stream.packed.WellFormed ∧
      log.foldlM Packed.replay? b.stream.packed = some after.stream.packed ∧
      (∀ chunk ∈ after.stream.packed.chunks.head?,
        ∃ left, cut? chunk after.stream.packed.start = some left ∧ left ≠ "") ∧
      after.stream.packed.front? = some after.stream.front? ∧
      (after.stream.front? = none ↔ after.stream.packed.chunks = []) ∧
      (after.stream.packed.chunks ≠ [] → ∀ op, (after.step op).2 = .pending →
        ∃ name, op = .poll name ∧ (∃ n ∈ after.ticket? name, n ∉ after.stream.woken) ∧
          (after.step op).1.stream = after.stream) := by
  obtain ⟨hreplay, hwell⟩ := replay_run hnew.wellFormed ops
  rw [Bench.after, hrun] at hreplay hwell
  have hfront := Stream.packed_front? hwell
  refine ⟨hwell, hreplay, fun chunk hchunk => ?_, hfront, ?_, fun hchunks op =>
    waiting_of_pending hwell hchunks⟩
  · obtain ⟨rest, hrest⟩ := List.head?_eq_some_iff.1 hchunk
    obtain ⟨before, left, rfl, hstart, hleft⟩ := hwell.exists_append hrest
    exact ⟨left, by rw [hstart, cut?_append], hleft⟩
  · rw [← hwell.front?_eq_none_iff, hfront, Option.some.injEq]

/-- Of two chunks, one with characters of two and of three bytes, the first character is read. -/
def partlyReadOps : List Op := [.start "r" .char, .write "é日", .write "x", .poll "r"]

theorem run_partlyReadOps :
    (after {} partlyReadOps).stream.packed = ⟨["é日", "x"], 2⟩ ∧
      (after {} partlyReadOps).stream.packed.WellFormed ∧
      (after {} partlyReadOps).stream.packed.front? = some (some '日') ∧
      ∃ left, cut? "é日" 2 = some left ∧ left ≠ "" := by
  have hpacked : (after {} partlyReadOps).stream.packed = ⟨["é日", "x"], 2⟩ := by decide
  have hnext : (after {} partlyReadOps).stream.front? = some '日' := by decide
  obtain ⟨hwell, -, hcut, hfront, -⟩ :=
    run_keeps_offset {} partlyReadOps (after {} partlyReadOps) _ (.empty _) rfl
  rw [hnext] at hfront
  rw [hpacked] at hcut
  exact ⟨hpacked, hwell, hfront, hcut "é日" rfl⟩

end Bench

end PocketShell
