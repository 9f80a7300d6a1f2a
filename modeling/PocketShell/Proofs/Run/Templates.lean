import PocketShell.Proofs.Run.Expansion
import PocketShell.Proofs.Words

/-!
# Templates

Where all variables and substitutions of a command stand in double quotes, its words are known before
it is run, but for their values.

* `Piece` : text, or a place for a value;
* `Template.words` : the words of a command as pieces, its *template*;
* `Template.fill` : a word with the values in their places;
* `Template.ask`, `Template.askAll` : find the values of a template and nothing else
  (`expandAll_eq_ask`, `job_eq_askAll` : so does the job of the command);
* `Template.CommandRun` : a run of a command until it is started;
* `Template.quoted_keeps_shape` : it starts the template with the values in their places.
-/

namespace PocketShell

/-- A piece of a word. The substitutions of a command are numbered in the order in which they are
run. -/
inductive Piece where
  | text (text : String)
  | var (name : String)
  | sub (index : Nat) (body : List Tree)

namespace Piece

def isSub : Piece → Bool
  | sub .. => true
  | _ => false

/-- What stands for a piece, if these are the values of the variables and of the substitutions. -/
def value (env : String → String) (outputs : List String) : Piece → String
  | text s => s
  | var name => env name
  | sub index _ => outputs.getD index ""

end Piece

namespace Template

open PocketShell.Tree (job statements segments expand expandAll expandVar firstGroup? buffered
  chomp)

/-! ## Words with places for values -/

/-- The number of substitutions in a word. -/
def substitutions (word : List Piece) : Nat := word.countP Piece.isSub

theorem substitutions_sub (index : Nat) (body : List Tree) (word : List Piece) :
    substitutions (.sub index body :: word) = substitutions word + 1 := List.countP_cons_of_pos rfl

theorem substitutions_append (a b : List Piece) :
    substitutions (a ++ b) = substitutions a + substitutions b := List.countP_append

/-- A word with the values in their places. -/
def fill (env : String → String) (outputs : List String) (word : List Piece) : String :=
  String.join (word.map (Piece.value env outputs))

section

variable (env : String → String) (outputs : List String)

theorem fill_cons (piece : Piece) (word : List Piece) :
    fill env outputs (piece :: word) = piece.value env outputs ++ fill env outputs word := by
  rw [fill, List.map_cons, String.join_cons, fill]

theorem fill_append (a b : List Piece) :
    fill env outputs (a ++ b) = fill env outputs a ++ fill env outputs b := by
  rw [fill, List.map_append, String.join_append, fill, fill]

end

mutual

/-- The pieces of a part inside double quotes, if `n` substitutions stand before it. -/
def pieces (n : Nat) : Tree → List Piece
  | .leaf (.ident text) | .leaf (.whitespace text) | .leaf (.quote text) => [.text text]
  | .leaf (.var name) => [if name.isEmpty then .text "$" else .var name]
  | .seq .dblQuote body => piecesAll n body
  | .seq (.sub _ _) body => [.sub n body]
  | _ => []

def piecesAll (n : Nat) : List Tree → List Piece
  | [] => []
  | t :: ts => pieces n t ++ piecesAll (n + substitutions (pieces n t)) ts

end

/-- The pieces of the parts of a command, and `none` for a gap. -/
def parts (n : Nat) : List Tree → List (Option (List Piece))
  | [] => []
  | .leaf (.whitespace _) :: ts | .leaf .comment :: ts => none :: parts n ts
  | t :: ts => some (pieces n t) :: parts (n + substitutions (pieces n t)) ts

/-- The pieces of some parts, one after the other. -/
def allPieces (ps : List (Option (List Piece))) : List Piece := ps.flatMap (·.getD [])

/-- The words of a command: what stands between two gaps is one. -/
def words (body : List Tree) : List (List Piece) :=
  (blocks Option.isNone (parts 0 body)).map allPieces

/-- Whether a part of a command is never split: variables and substitutions are, outside of double
quotes. -/
def isQuoted : Tree → Bool
  | .leaf (.ident _) | .leaf (.quote _) | .leaf (.whitespace _) | .leaf .comment => true
  | .seq .dblQuote _ => true
  | _ => false

/-! ## Finding the values -/

/-- Finds the values of pieces in order, and puts them together. -/
def ask (cancellable : Bool) : List Piece → (String → Job) → Job
  | [], k => k ""
  | .text text :: ps, k => ask cancellable ps fun rest => k (text ++ rest)
  | .var name :: ps, k =>
    .lookup name fun text => ask cancellable ps fun rest => k (text ++ rest)
  | .sub _ body :: ps, k =>
    buffered cancellable (statements cancellable body 0 .exit) fun frame _ =>
      ask cancellable ps fun rest => k (chomp frame.text ++ rest)

/-- Finds the values of the parts of a command in order. -/
def askAll (cancellable : Bool) : List (Option (List Piece)) → (List Segment → Job) → Job
  | [], k => k []
  | none :: ps, k => askAll cancellable ps fun segments => k (.gap :: segments)
  | some word :: ps, k =>
    ask cancellable word fun text =>
      askAll cancellable ps fun segments => k (.literal text :: segments)

section

variable (c : Bool)

theorem ask_append (ps qs : List Piece) (k : String → Job) :
    ask c (ps ++ qs) k = ask c ps fun text => ask c qs fun rest => k (text ++ rest) := by
  induction ps generalizing k with
  | nil => simp [ask]
  | cons piece ps ih => cases piece <;> simp [ask, ih, String.append_assoc]

mutual

/-- The text of a part inside double quotes is that of its pieces. -/
theorem expand_eq_ask (n : Nat) (t : Tree) (k : String → Job) :
    expand c t k = ask c (pieces n t) k := by
  cases t with
  | leaf word =>
    cases word with
    | ident | whitespace | quote | comment => simp [expand, pieces, ask]
    | var name =>
      rw [expand, expandVar, pieces]
      split <;> simp [ask]
  | seq kind body =>
    cases kind with
    | dblQuote =>
      rw [expand, pieces]
      exact expandAll_eq_ask n body k
    | sub | script | group | command => simp [expand, pieces, ask]
  | join | dangling => simp [expand, pieces, ask]

theorem expandAll_eq_ask (n : Nat) (ts : List Tree) (k : String → Job) :
    expandAll c ts k = ask c (piecesAll n ts) k := by
  cases ts with
  | nil => rw [expandAll, piecesAll, ask]
  | cons t ts =>
    rw [expandAll, piecesAll, ask_append, expand_eq_ask n t]
    congr 1
    funext text
    exact expandAll_eq_ask _ ts _

end

variable {body : List Tree}

theorem segments_eq_askAll (hquoted : body.all isQuoted = true) (n : Nat)
    (k : List Segment → Option Int → Job) :
    segments c body k = askAll c (parts n body) fun segments => k segments none := by
  induction body generalizing n k with
  | nil => rw [segments, parts, askAll]
  | cons t body ih =>
    rw [List.all_cons, Bool.and_eq_true] at hquoted
    cases t with
    | leaf word =>
      cases word with
      | ident | quote =>
        simp only [segments, parts, pieces, askAll, ask, String.append_empty]
        exact ih hquoted.2 _ _
      | whitespace | comment =>
        simp only [segments, parts, askAll]
        exact ih hquoted.2 _ _
      | var => cases hquoted.1
    | seq kind inner =>
      cases kind with
      | dblQuote =>
        simp only [segments, parts, pieces, askAll, expandAll_eq_ask c n inner]
        congr 1
        funext text
        exact ih hquoted.2 _ _
      | sub | script | group | command => cases hquoted.1
    | join | dangling => cases hquoted.1

theorem firstGroup?_eq_none (hquoted : body.all isQuoted = true) (k : Int → Job) :
    firstGroup? c body k = none := by
  induction body with
  | nil => rw [firstGroup?]
  | cons t body ih =>
    rw [List.all_cons, Bool.and_eq_true] at hquoted
    rw [firstGroup?]
    · exact ih hquoted.2
    · rintro closed inner rfl
      cases hquoted.1

end

/-- Starts a command, if there is anything to start. -/
def start (cancellable : Bool) (k : Int → Job) : List String → Job
  | [] => k 0
  | argv => .exec cancellable argv k

theorem start_eq_exec (c : Bool) (k : Int → Job) {argv : List String} (h : argv ≠ []) :
    start c k argv = .exec c argv k := by
  cases argv with
  | nil => exact absurd rfl h
  | cons word argv => rfl

theorem job_eq_askAll (c : Bool) {body : List Tree} (hquoted : body.all isQuoted = true)
    (k : Int → Job) :
    job c (.seq (.command false) body) k =
      askAll c (parts 0 body) fun segments => start c k (Words.split segments) := by
  rw [job, firstGroup?_eq_none c hquoted, segments_eq_askAll c hquoted 0]
  rfl

/-! ## The numbers of the substitutions -/

/-- The substitutions in a word are numbered from `n` on. -/
def InOrder (n : Nat) : List Piece → Prop
  | [] => True
  | .sub index _ :: ps => index = n ∧ InOrder (n + 1) ps
  | _ :: ps => InOrder n ps

theorem inOrder_append {a b : List Piece} {n : Nat} :
    InOrder n (a ++ b) ↔ InOrder n a ∧ InOrder (n + substitutions a) b := by
  induction a generalizing n with
  | nil => exact ⟨fun h => ⟨trivial, h⟩, And.right⟩
  | cons piece a ih =>
    cases piece with
    | text | var => exact ih
    | sub index body =>
      rw [substitutions_sub, Nat.add_comm _ 1, ← Nat.add_assoc, InOrder, and_assoc, ← ih]
      rfl

mutual

theorem inOrder_pieces (n : Nat) (t : Tree) : InOrder n (pieces n t) := by
  cases t with
  | leaf word =>
    cases word with
    | ident | whitespace | quote | comment => simp [pieces, InOrder]
    | var name =>
      rw [pieces]
      split <;> exact trivial
  | seq kind body =>
    cases kind with
    | dblQuote =>
      rw [pieces]
      exact inOrder_piecesAll n body
    | sub | script | group | command => simp [pieces, InOrder]
  | join | dangling => simp [pieces, InOrder]

theorem inOrder_piecesAll (n : Nat) (ts : List Tree) : InOrder n (piecesAll n ts) := by
  cases ts with
  | nil => simp [piecesAll, InOrder]
  | cons t ts =>
    rw [piecesAll]
    exact inOrder_append.2 ⟨inOrder_pieces n t, inOrder_piecesAll _ ts⟩

end

theorem inOrder_parts (n : Nat) (body : List Tree) : InOrder n (allPieces (parts n body)) := by
  fun_induction parts n body with
  | case1 => exact trivial
  | case2 n _ ts ih => exact ih
  | case3 n ts ih => exact ih
  | case4 n t ts _ _ ih => exact inOrder_append.2 ⟨inOrder_pieces n t, ih⟩

theorem flatten_words (body : List Tree) : (words body).flatten = allPieces (parts 0 body) := by
  have hfilter (ps : List (Option (List Piece))) :
      allPieces (ps.filter fun part => !part.isNone) = allPieces ps := by
    induction ps with
    | nil => rfl
    | cons part ps ih => cases part <;> simp_all [allPieces]
  rw [words, ← List.flatMap_def, ← hfilter, ← flatten_blocks, allPieces, ← List.flatMap_id,
    List.flatMap_assoc]
  rfl

/-! ## Words with their values -/

/-- What a part of a command gives, once its values are known. -/
def segmentOf (env : String → String) (outputs : List String) : Option (List Piece) → Segment
  | none => .gap
  | some word => .literal (fill env outputs word)

section

variable (env : String → String) (outputs : List String) (ps : List (Option (List Piece)))

theorem spelled_flatMap_segmentOf :
    spelled (ps.flatMap fun part => (segmentOf env outputs part).items) =
      fill env outputs (allPieces ps) := by
  induction ps with
  | nil => rfl
  | cons part ps ih =>
    rw [List.flatMap_cons, spelled_append, ih]
    cases part with
    | none => exact String.empty_append
    | some word =>
      rw [segmentOf, spelled_items_literal, ← fill_append]
      rfl

/-- Whatever the values are, only gaps part the words. -/
theorem split_map_segmentOf :
    Words.split (ps.map (segmentOf env outputs)) =
      ((blocks Option.isNone ps).map allPieces).map (fill env outputs) := by
  rw [Words.split_eq_map_spelled, List.flatMap_map, blocks_flatMap (p := Option.isNone),
    List.map_map, List.map_map]
  · exact List.map_congr_left fun block _ => spelled_flatMap_segmentOf env outputs block
  · intro part _ hpart
    rw [Option.isNone_iff_eq_none.1 hpart]
    exact ⟨.separator, rfl, rfl⟩
  · intro part _ hpart
    cases part with
    | none => cases hpart
    | some word => simp [segmentOf, Segment.items, Item.isSeparator]

end

/-- A command without words does nothing, whatever its values are. -/
theorem job_of_words_nil {c : Bool} {body : List Tree} (hquoted : body.all isQuoted = true)
    (hwords : words body = []) (k : Int → Job) : job c (.seq (.command false) body) k = k 0 := by
  have hblocks : blocks Option.isNone (parts 0 body) = [] := List.map_eq_nil_iff.1 hwords
  have hgaps : ∀ part ∈ parts 0 body, part = none := by
    have hflatten := flatten_blocks (p := Option.isNone) (l := parts 0 body)
    rw [hblocks, List.flatten_nil, eq_comm, List.filter_eq_nil_iff] at hflatten
    intro part hpart
    simpa using hflatten part hpart
  -- gaps ask for nothing, so any values will do
  have hask (ps : List (Option (List Piece))) (hps : ∀ part ∈ ps, part = none)
      (k : List Segment → Job) : askAll c ps k = k (ps.map (segmentOf (fun _ => "") [])) := by
    induction ps generalizing k with
    | nil => rfl
    | cons part ps ih =>
      obtain ⟨rfl, hrest⟩ := List.forall_mem_cons.1 hps
      exact ih hrest _
  rw [job_eq_askAll c hquoted, hask _ hgaps, split_map_segmentOf, hblocks]
  rfl

/-! ## Runs -/

section

open Session (Expands)

-- `written` is what is written in all substitutions of a command, and `n` of them have been run
variable {host : Host} {c : Bool} {q : Job} {sc sc' : Scene} {written : List String} {n : Nat}

theorem expands_ask {word : List Piece} {k : String → Job} (hword : InOrder n word)
    (hn : n ≤ written.length) (hq : q.expands = false)
    (h : Expands host (ask c word k) sc (written.drop n) q sc') :
    n + substitutions word ≤ written.length ∧
      ∃ sc₁, Expands host (k (fill host.env (written.map chomp) word)) sc₁
        (written.drop (n + substitutions word)) q sc' := by
  induction word generalizing n sc k with
  | nil => exact ⟨hn, sc, h⟩
  | cons piece word ih =>
    rw [fill_cons]
    cases piece with
    | text s => exact ih hword hn h
    | var name => exact ih hword hn (h.of_lookup hq)
    | sub index body =>
      obtain ⟨rfl, hword⟩ := hword
      -- what this substitution writes is the next of the texts, and its number says so
      obtain ⟨left, status, sc₁, rest, hwritten, hrest⟩ := h.of_within hq
      have hlt : index < written.length := by
        rcases Nat.lt_or_eq_of_le hn with hlt | rfl
        · exact hlt
        · rw [List.drop_length] at hwritten
          cases hwritten
      rw [List.drop_eq_getElem_cons hlt, List.cons.injEq] at hwritten
      obtain ⟨hleft, rfl⟩ := hwritten
      have hvalue : (Piece.sub index body).value host.env (written.map chomp) =
          chomp left.text := by
        rw [Piece.value, List.getD_eq_getElem?_getD, List.getElem?_map,
          List.getElem?_eq_getElem hlt, hleft]
        rfl
      rw [hvalue, substitutions_sub, Nat.add_comm _ 1, ← Nat.add_assoc]
      exact ih hword hlt hrest

theorem expands_askAll {ps : List (Option (List Piece))} {k : List Segment → Job}
    (hps : InOrder n (allPieces ps)) (hn : n ≤ written.length) (hq : q.expands = false)
    (h : Expands host (askAll c ps k) sc (written.drop n) q sc') :
    n + substitutions (allPieces ps) ≤ written.length ∧
      ∃ sc₁, Expands host (k (ps.map (segmentOf host.env (written.map chomp)))) sc₁
        (written.drop (n + substitutions (allPieces ps))) q sc' := by
  induction ps generalizing n sc k with
  | nil => exact ⟨hn, sc, h⟩
  | cons part ps ih =>
    cases part with
    | none => exact ih hps hn h
    | some word =>
      have hcons : allPieces (some word :: ps) = word ++ allPieces ps := rfl
      rw [hcons] at hps ⊢
      obtain ⟨hword, hps⟩ := inOrder_append.1 hps
      obtain ⟨hle, sc₁, hrest⟩ := expands_ask hword hn hq h
      rw [substitutions_append, ← Nat.add_assoc]
      exact ih hps hle hrest

/-- A run of a command comes to its template with the values in their places. -/
theorem expands_job {body : List Tree} {k : Int → Job} (hquoted : body.all isQuoted = true)
    (hq : q.expands = false)
    (h : Expands host (job c (.seq (.command false) body) k) sc written q sc') :
    substitutions (words body).flatten ≤ written.length ∧
      ∃ sc₁, Expands host (start c k ((words body).map (fill host.env (written.map chomp)))) sc₁
        (written.drop (substitutions (words body).flatten)) q sc' := by
  rw [job_eq_askAll c hquoted] at h
  have hrun := expands_askAll (inOrder_parts 0 body) (Nat.zero_le _) hq h
  rwa [split_map_segmentOf, ← words, Nat.zero_add, ← flatten_words] at hrun

end

/-- A run of a command until it is started. -/
structure CommandRun (body : List Tree) where
  host : Host
  cancellable : Bool
  k : Int → Job
  sc : Scene
  /-- What is written in its substitutions. -/
  written : List String
  argv : List String
  after : Scene
  expands : Session.Expands host (job cancellable (.seq (.command false) body) k) sc written
    (.exec cancellable argv k) after

namespace CommandRun

variable {body : List Tree}

/-- The values of the substitutions. -/
def outputs (r : CommandRun body) : List String := r.written.map chomp

theorem argv_eq_map_fill (r : CommandRun body) (hquoted : body.all isQuoted = true)
    (hwords : words body ≠ []) :
    r.outputs.length = substitutions (words body).flatten ∧
      r.argv = (words body).map (fill r.host.env r.outputs) := by
  obtain ⟨hle, sc₁, hrest⟩ := expands_job hquoted rfl r.expands
  rw [start_eq_exec _ _ (by simpa using hwords)] at hrest
  obtain ⟨hexec, hwritten⟩ := hrest.eq_of_not_expands rfl
  refine ⟨?_, (Job.exec.inj hexec).2.1⟩
  rw [outputs, List.length_map]
  exact Nat.le_antisymm (List.drop_eq_nil_iff.1 hwritten) hle

/-- A session that comes to its end has started the command. -/
theorem exists_of_finished (hquoted : body.all isQuoted = true) (hwords : words body ≠ [])
    {host : Host} {c : Bool} {k : Int → Job} {sc sc' : Scene} {n : Nat} {events rest : List Event}
    {status : Int} (h : Session.job host n (job c (.seq (.command false) body) k) sc events =
      (sc', rest, .finished status)) :
    ∃ r : CommandRun body, r.host = host ∧ r.cancellable = c ∧ r.k = k ∧ r.sc = sc := by
  obtain ⟨written, q, after, hexpands, hq⟩ := Session.exists_expands h
  obtain ⟨-, sc₁, hrest⟩ := expands_job hquoted hq hexpands
  rw [start_eq_exec _ _ (by simpa using hwords)] at hrest
  obtain ⟨rfl, -⟩ := hrest.eq_of_not_expands rfl
  exact ⟨⟨host, c, k, sc, written, _, after, hexpands⟩, rfl, rfl, rfl, rfl⟩

end CommandRun

/-- **Quoted values do not change the shape of a command.** Let every part of a command be a word, a
quotation, a gap or a comment, so that all its variables and substitutions stand in double quotes.
If it has no words, nothing is done. Otherwise every run that ends has started it, and every run
starts its template with the values in their places, one for each substitution. So in any two runs,
whatever their values are, there are as many words, and a word is the same if its own values are. -/
theorem quoted_keeps_shape {body : List Tree} (hquoted : body.all isQuoted = true) :
    (words body = [] → ∀ c k, job c (.seq (.command false) body) k = k 0) ∧
      (words body ≠ [] →
        InOrder 0 (words body).flatten ∧
        (∀ host c k sc n events sc' rest status,
          Session.job host n (job c (.seq (.command false) body) k) sc events =
              (sc', rest, .finished status) →
            ∃ r : CommandRun body, r.host = host ∧ r.cancellable = c ∧ r.k = k ∧ r.sc = sc) ∧
        (∀ r : CommandRun body, r.outputs.length = substitutions (words body).flatten ∧
          r.argv = (words body).map (fill r.host.env r.outputs)) ∧
        ∀ r r' : CommandRun body, r.argv.length = r'.argv.length ∧
          ∀ (i : Nat) (word : List Piece), (words body)[i]? = some word →
            (∀ piece ∈ word,
              piece.value r.host.env r.outputs = piece.value r'.host.env r'.outputs) →
            r.argv[i]? = r'.argv[i]?) := by
  refine ⟨fun hwords c k => job_of_words_nil hquoted hwords k, fun hwords => ?_⟩
  refine ⟨flatten_words body ▸ inOrder_parts 0 body,
    fun host c k sc n events sc' rest status h => CommandRun.exists_of_finished hquoted hwords h,
    fun r => r.argv_eq_map_fill hquoted hwords, fun r r' => ?_⟩
  rw [(r.argv_eq_map_fill hquoted hwords).2, (r'.argv_eq_map_fill hquoted hwords).2]
  refine ⟨by rw [List.length_map, List.length_map], fun i word hword hvalues => ?_⟩
  rw [List.getElem?_map, List.getElem?_map, hword, Option.map_some, Option.map_some, fill, fill,
    List.map_congr_left hvalues]

/-- Three words, the second of which holds a variable and a substitution that pauses. -/
def greeting : List Tree :=
  [.leaf (.ident "out"), .leaf (.whitespace " "), .leaf (.ident "to="),
    .seq .dblQuote [.leaf (.var "X"), .seq (.sub .dollar true)
      [.seq (.command false) [.leaf (.ident "yield")],
        .seq (.command false) [.leaf (.ident "out"), .leaf (.whitespace " "), .leaf (.var "X")]]],
    .leaf (.whitespace " "), .leaf (.ident "end")]

/-- A run in which the value holds blanks, a quotation mark and what looks like a substitution, and
a run in which it is empty. -/
theorem quoted_keeps_shape_greeting :
    greeting.all isQuoted = true ∧
      (∀ r : CommandRun greeting,
        r.argv[1]? = some (String.join ["to=", r.host.env "X", r.outputs.getD 0 ""])) ∧
      ∃ r r' : CommandRun greeting, r.host.env "X" = "a  'b\n$(c)" ∧ r'.host.env "X" = "" ∧
        r.argv.length = r'.argv.length ∧ r.argv[2]? = r'.argv[2]? := by
  have hquoted : greeting.all isQuoted = true := rfl
  have hwords : words greeting ≠ [] := List.cons_ne_nil _ _
  obtain ⟨hstarted, hargv, hshape⟩ := ((quoted_keeps_shape hquoted).2 hwords).2
  obtain ⟨r, hhost, -⟩ := hstarted (Probe.host (.ofList [("X", "a  'b\n$(c)")])) true .exit {} 9 []
    _ _ _ rfl
  obtain ⟨r', hhost', -⟩ := hstarted (Probe.host {}) false .exit {} 9 [] _ _ _ rfl
  refine ⟨hquoted, fun r => ?_, r, r', ?_, ?_, (hshape r r').1,
    (hshape r r').2 2 [.text "end"] rfl fun piece hpiece => ?_⟩
  · rw [(hargv r).2]
    rfl
  · rw [hhost]
    rfl
  · rw [hhost']
    rfl
  · rw [List.mem_singleton.1 hpiece]
    rfl

end Template

end PocketShell
