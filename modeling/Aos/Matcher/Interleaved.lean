/-
  Aos.Matcher.Interleaved — a `Char_Indexer` in memory, with keys that are entered
  between the characters of a text.

  A partial match is a pointer to a node, and `insert_key` may take the array away
  that the node lies in.  The next `move` then reads through a pointer to a block that
  was freed.  The histories of the calls say when: a key that leaves the tree beside
  the node of a partial match is the end, unless no character follows.

  Main results:
    • `insert_step`, `move_step` — what a call does to the partial matches;
    • `run_safe_iff` — when a run of calls never uses a block that was freed;
    • `run_reports`  — the calls of `on_key_matched` of such a run;
    • `search_in_memory` — all keys first: each slice of the text that is a key, once.
-/
import Aos.Matcher.NodePlaces

namespace Aos.Indexer_Memory

open Node_Memory
open Lib.Trie (Family)

/-! ## §1. The matcher. -/

/-- A partial match: the pointer to the node it has reached, and where in the text it began. -/
structure Result where
  curr : Place
  head : Nat

structure Char_Indexer where
  root_ : Memory
  match_ : List Result

def new : Char_Indexer := ⟨.new 0 0, []⟩

inductive Call
  | insert_key (buf : Bytes)
  | move (ch : Byte)

section Calls

variable (junk : Nat → Nat → Cell)

/-- `insert_key(buf, size)` -/
def insert_key (x : Char_Indexer) (buf : Bytes) : Option Char_Indexer :=
  (Node_Memory.insert_key junk x.root_ .root buf).map fun m => { x with root_ := m }

/-- `if( flag & Match ) on_key_matched(head, c - head + 1)` -/
def on_match (m : Memory) (r : Result) (c : Nat) : Option (List (Nat × Nat)) :=
  (m.load junk r.curr).map fun node =>
    if node.matched then [(r.head, c - r.head + 1)] else []

/-- The loop over `match_`: the matches that stay, and the calls made. -/
def move_matches (m : Memory) (c : Nat) (ch : Byte) :
    List Result → Option (List Result × List (Nat × Nat))
  | [] => some ([], [])
  | r :: rest =>
      (find junk m r.curr ch).bind fun
        | some next_match =>
            let r' := { r with curr := next_match }
            (on_match junk m r' c).bind fun called =>
              (move_matches m c ch rest).map fun (stay, calls) => (r' :: stay, called ++ calls)
        | none => move_matches m c ch rest

/-- `move(c)`, with `ch` the character `c` points at. -/
def move (x : Char_Indexer) (c : Nat) (ch : Byte) : Option (Char_Indexer × List (Nat × Nat)) :=
  (find junk x.root_ .root ch).bind fun new_match =>
    if new_match.isNone ∧ x.match_.isEmpty then some (x, [])
    else
      (move_matches junk x.root_ c ch x.match_).bind fun (stay, calls) =>
        match new_match with
        | some node =>
            let new_result : Result := ⟨node, c⟩
            (on_match junk x.root_ new_result c).map fun called =>
              ({ x with match_ := new_result :: stay }, calls ++ called)
        | none => some ({ x with match_ := stay }, calls)

/-- A program's calls, with the text's next character at `c`: all calls of `on_key_matched`. -/
def run : Char_Indexer → Nat → List Call → Option (Char_Indexer × List (Nat × Nat))
  | x, _, [] => some (x, [])
  | x, c, .insert_key buf :: calls => (insert_key junk x buf).bind fun x => run x c calls
  | x, c, .move ch :: calls =>
      (move junk x c ch).bind fun (x, called) =>
        (run x (c + 1) calls).map fun (x, rest) => (x, called ++ rest)

end Calls

/-! ## §2. Histories. -/

/-- The characters so far. -/
def text (calls : List Call) : Bytes :=
  calls.filterMap fun | .move ch => some ch | .insert_key _ => none

/-- The keys so far. -/
def keys (calls : List Call) : List Bytes :=
  calls.filterMap fun | .insert_key buf => some buf | .move _ => none

/-- Ever since `start` the text has gone along some key that was there. -/
def Followed (calls : List Call) (start : Nat) : Prop :=
  ∀ pre ch post, calls = pre ++ .move ch :: post → start ≤ (text pre).length →
    ∃ k ∈ keys pre, (text pre).drop start ++ [ch] <+: k

/-- The key `buf` leaves the keys there are, right beside the last character of a slice of the
    text that might still become a key. -/
def Dangles (calls : List Call) (buf : Bytes) : Prop :=
  ∃ start < (text calls).length, Followed calls start ∧
    ∃ σ c ch, (text calls).drop start = σ ++ [c] ∧ σ ++ [ch] <+: buf ∧
      ∀ k ∈ keys calls, ¬ σ ++ [ch] <+: k

/-- No character follows where a pointer may dangle. -/
def Safe (calls : List Call) : Prop :=
  ∀ pre buf post, calls = pre ++ .insert_key buf :: post → Dangles pre buf → text post = []

/-- The last character made a slice of the text a key. -/
def Matched (calls : List Call) (ch : Byte) (start len : Nat) : Prop :=
  0 < len ∧ start + len = (text calls).length + 1 ∧ Followed (calls ++ [.move ch]) start ∧
    (text calls).drop start ++ [ch] ∈ keys calls

/-- Some character did. -/
def Reported (calls : List Call) (start len : Nat) : Prop :=
  ∃ pre ch post, calls = pre ++ .move ch :: post ∧ Matched pre ch start len

theorem text_append (calls more : List Call) : text (calls ++ more) = text calls ++ text more :=
  List.filterMap_append

theorem keys_append (calls more : List Call) : keys (calls ++ more) = keys calls ++ keys more :=
  List.filterMap_append

/-- Where a list with one more element at its end can be divided. -/
theorem concat_eq_append_cons {α : Type} {l pre post : List α} {a b : α} :
    l ++ [a] = pre ++ b :: post ↔
      (l = pre ∧ a = b ∧ post = []) ∨ ∃ rest, post = rest ++ [a] ∧ l = pre ++ b :: rest := by
  rcases List.eq_nil_or_concat' post with rfl | ⟨rest, x, rfl⟩
  · rw [List.append_singleton_inj]
    simp
  · rw [← List.cons_append, ← List.append_assoc, List.append_singleton_inj]
    constructor
    · rintro ⟨hl, rfl⟩
      exact Or.inr ⟨rest, rfl, hl⟩
    · rintro (⟨-, -, h⟩ | ⟨rest', h, hl⟩)
      · exact absurd h (by simp)
      · obtain ⟨rfl, hx⟩ := List.append_singleton_inj.mp h
        exact ⟨hl, hx.symm⟩

theorem followed_insert (calls : List Call) (buf : Bytes) (start : Nat) :
    Followed (calls ++ [.insert_key buf]) start ↔ Followed calls start := by
  constructor
  · intro h pre ch post heq
    exact h pre ch (post ++ [.insert_key buf]) (by simp [heq])
  · intro h pre ch post heq
    rcases concat_eq_append_cons.mp heq with ⟨-, hcall, -⟩ | ⟨rest, -, hcalls⟩
    · exact absurd hcall (by simp)
    · exact h pre ch rest hcalls

theorem followed_move (calls : List Call) (ch : Byte) {start : Nat}
    (hle : start ≤ (text calls).length) :
    Followed (calls ++ [.move ch]) start ↔ Followed calls start ∧
      ∃ k ∈ keys calls, (text calls).drop start ++ [ch] <+: k := by
  constructor
  · intro h
    refine ⟨fun pre d post heq => ?_, h calls ch [] rfl hle⟩
    exact h pre d (post ++ [.move ch]) (by simp [heq])
  · rintro ⟨h, hlast⟩ pre d post heq
    rcases concat_eq_append_cons.mp heq with ⟨rfl, hcall, -⟩ | ⟨rest, -, hcalls⟩
    · obtain rfl := Call.move.inj hcall
      exact fun _ => hlast
    · exact h pre d rest hcalls

/-- What begins at the next character has not been read at all. -/
theorem followed_end (calls : List Call) : Followed calls (text calls).length := by
  intro pre ch post heq hle
  have hlen := congrArg (fun calls => (text calls).length) heq
  rw [text_append, List.length_append] at hlen
  have hmove : (text (.move ch :: post)).length = (text post).length + 1 := rfl
  omega

/-! ## §3. What holds between two calls. -/

variable (junk : Nat → Nat → Cell)

/-- The nodes are those of the keys; there is one partial match for each slice of the text that
    has been followed to its end, and its pointer leads to the node for that slice. -/
structure Kept (calls : List Call) (V : Family Byte Cell) (x : Char_Indexer) : Prop where
  holds : Holds x.root_ V
  alive : ∀ ρ, V ρ ≠ none ↔ ρ = [] ∨ ∃ k ∈ keys calls, ρ <+: k
  marked : ∀ ρ, Marked V ρ ↔ ρ ∈ keys calls
  heads : (x.match_.map Result.head).Pairwise (· > ·)
  waits : ∀ start, start ∈ x.match_.map Result.head ↔
    start < (text calls).length ∧ Followed calls start
  curr : ∀ r ∈ x.match_, At x.root_ V ((text calls).drop r.head) r.curr

/-- One of the pointers dangles. -/
def Lost (x : Char_Indexer) : Prop :=
  (∃ V, Holds x.root_ V) ∧ ∃ r ∈ x.match_, Gone x.root_ r.curr

theorem kept_new : ∃ V, Kept [] V new := by
  refine ⟨_, holds_new 0 0, fun ρ => ?_, fun ρ => ?_, List.Pairwise.nil, fun start => ?_,
    fun r hr => absurd hr List.not_mem_nil⟩
  · by_cases hρ : ρ = []
    · simp [hρ]
    · simp [hρ, keys]
  · unfold Marked
    by_cases hρ : ρ = []
    · simp [hρ, keys, Cell.matched, Char_Node.Match]
    · simp [hρ, keys]
  · simp [new, text]

/-- A partial match is a slice that is not empty. -/
theorem Kept.head_lt {calls : List Call} {V : Family Byte Cell} {x : Char_Indexer}
    (hkept : Kept calls V x) {r : Result} (hr : r ∈ x.match_) :
    r.head < (text calls).length :=
  ((hkept.waits r.head).mp (List.mem_map_of_mem hr)).1

/-! ### A key. -/

/-- The key takes a pointer away, in terms of the histories. -/
theorem Kept.dangles_iff {calls : List Call} {V : Family Byte Cell} {x : Char_Indexer}
    (hkept : Kept calls V x) (buf : Bytes) :
    Dangles calls buf ↔ ∃ r ∈ x.match_, Branches V [] buf ((text calls).drop r.head) := by
  have hnone : ∀ (σ : List Byte) (ch : Byte),
      V (σ ++ [ch]) = none ↔ ∀ k ∈ keys calls, ¬ σ ++ [ch] <+: k := by
    intro σ ch
    rw [← not_not (a := V (σ ++ [ch]) = none), ← Ne, hkept.alive]
    simp
  constructor
  · rintro ⟨start, hlt, hfol, σ, c, ch, hw, hpre, hnew⟩
    obtain ⟨r, hr, rfl⟩ := List.mem_map.mp ((hkept.waits start).mpr ⟨hlt, hfol⟩)
    exact ⟨r, hr, σ, c, ch, hw, List.nil_prefix, hpre, (hnone σ ch).mpr hnew⟩
  · rintro ⟨r, hr, σ, c, ch, hw, -, hpre, hnew⟩
    obtain ⟨hlt, hfol⟩ := (hkept.waits r.head).mp (List.mem_map_of_mem hr)
    exact ⟨r.head, hlt, hfol, σ, c, ch, hw, hpre, (hnone σ ch).mp hnew⟩

/-- **A key is entered**: what it does to the partial matches. -/
theorem insert_step {calls : List Call} {V : Family Byte Cell} {x : Char_Indexer}
    (hkept : Kept calls V x) (buf : Bytes) :
    ∃ x', insert_key junk x buf = some x' ∧ (Dangles calls buf → Lost x') ∧
      (¬ Dangles calls buf → ∃ V', Kept (calls ++ [.insert_key buf]) V' x') := by
  obtain ⟨m', V', hins, hent⟩ := insert_key_at junk buf hkept.holds At.root
  have htext : text (calls ++ [.insert_key buf]) = text calls :=
    (text_append _ _).trans (List.append_nil _)
  have hkeys : keys (calls ++ [.insert_key buf]) = keys calls ++ [buf] := keys_append _ _
  refine ⟨⟨m', x.match_⟩, by rw [insert_key, hins]; rfl, fun hdang => ?_, fun hdang => ?_⟩
  · obtain ⟨r, hr, hbr⟩ := (hkept.dangles_iff buf).mp hdang
    exact ⟨⟨V', hent.holds⟩, r, hr, hent.gone _ _ (hkept.curr r hr) hbr⟩
  · refine ⟨V', hent.holds, fun ρ => ?_, fun ρ => ?_, hkept.heads, fun start => ?_,
      fun r hr => ?_⟩
    · rw [hent.alive, hkept.alive, hkeys, List.nil_append]
      simp only [List.mem_append, List.mem_singleton, or_and_right, exists_or, exists_eq_left]
      rw [or_assoc]
    · rw [hent.marked, hkept.marked, hkeys, List.nil_append, List.mem_append, List.mem_singleton]
    · rw [htext, followed_insert]
      exact hkept.waits start
    · rw [htext]
      exact hent.stays _ _ (hkept.curr r hr) fun hbr =>
        hdang ((hkept.dangles_iff buf).mpr ⟨r, hr, hbr⟩)

theorem lost_insert {x : Char_Indexer} (hlost : Lost x) (buf : Bytes) :
    ∃ x', insert_key junk x buf = some x' ∧ Lost x' := by
  obtain ⟨⟨V, hold⟩, r, hr, hgone⟩ := hlost
  obtain ⟨m', V', hins, hent⟩ := insert_key_at junk buf hold At.root
  exact ⟨⟨m', x.match_⟩, by rw [insert_key, hins]; rfl, ⟨V', hent.holds⟩, r, hr,
    gone_insert_key junk hgone hins⟩

/-! ### A character. -/

theorem lost_matches {m : Memory} (c : Nat) (ch : Byte) {l : List Result} {r : Result}
    (hr : r ∈ l) (hgone : Gone m r.curr) : move_matches junk m c ch l = none := by
  induction l with
  | nil => exact absurd hr List.not_mem_nil
  | cons r' rest ih =>
      rw [move_matches]
      cases List.mem_cons.mp hr with
      | inl heq =>
          rw [← heq, find, load_gone junk hgone]
          rfl
      | inr hin =>
          have hrest := ih hin
          cases hfind : find junk m r'.curr ch with
          | none => rfl
          | some next =>
              rw [Option.bind_some]
              cases next with
              | none => exact hrest
              | some next_match =>
                  dsimp only
                  rw [hrest]
                  cases on_match junk m { r' with curr := next_match } c with
                  | none => rfl
                  | some called => rfl

/-- **The next character** reads through the pointer that dangles. -/
theorem lost_move {x : Char_Indexer} (hlost : Lost x) (c : Nat) (ch : Byte) :
    move junk x c ch = none := by
  obtain ⟨-, r, hr, hgone⟩ := hlost
  have hmatches := lost_matches junk c ch hr hgone
  have hne : x.match_.isEmpty = false := by
    cases hl : x.match_ with
    | nil => exact absurd (hl ▸ hr) List.not_mem_nil
    | cons r rest => rfl
  unfold move
  cases find junk x.root_ .root ch with
  | none => rfl
  | some new_match =>
      rw [Option.bind_some, if_neg (by simp [hne]), hmatches]
      rfl

/-- The call for a match that has reached its node. -/
theorem on_match_at {m : Memory} {V : Family Byte Cell} (hold : Holds m V) {ρ : List Byte}
    {r : Result} (hat : At m V ρ r.curr) (c : Nat) :
    ∃ called, on_match junk m r c = some called ∧ (called.map Prod.fst).Sublist [r.head] ∧
      ∀ start len, (start, len) ∈ called ↔
        start = r.head ∧ len = c - r.head + 1 ∧ Marked V ρ := by
  obtain ⟨node, hnode, hload⟩ := load_at junk hold hat
  have hmarked : Marked V ρ ↔ node.matched = true := by
    rw [Marked, hnode]
    rfl
  refine ⟨_, by rw [on_match, hload, Option.map_some], ?_⟩
  by_cases hm : node.matched = true
  · rw [if_pos hm]
    exact ⟨List.Sublist.refl _, fun start len => by simp [hmarked, hm]⟩
  · rw [if_neg hm]
    exact ⟨List.nil_sublist _, fun start len => by simp [hmarked, hm]⟩

/-- **The loop over the partial matches**: those stay for which there is a node, and those are
    reported at whose node a key ends. -/
theorem move_matches_at {m : Memory} {V : Family Byte Cell} (hold : Holds m V) (read : Bytes)
    (c : Nat) (ch : Byte) {l : List Result} (hl : ∀ r ∈ l, At m V (read.drop r.head) r.curr) :
    ∃ stay out, move_matches junk m c ch l = some (stay, out) ∧
      (stay.map Result.head).Sublist (l.map Result.head) ∧
      (∀ start, start ∈ stay.map Result.head ↔
        start ∈ l.map Result.head ∧ V (read.drop start ++ [ch]) ≠ none) ∧
      (∀ r ∈ stay, At m V (read.drop r.head ++ [ch]) r.curr) ∧
      (out.map Prod.fst).Sublist (l.map Result.head) ∧
      ∀ start len, (start, len) ∈ out ↔ start ∈ l.map Result.head ∧
        len = c - start + 1 ∧ Marked V (read.drop start ++ [ch]) := by
  induction l with
  | nil => exact ⟨[], [], rfl, List.Sublist.refl _, by simp, by simp, List.Sublist.refl _, by simp⟩
  | cons r rest ih =>
      obtain ⟨stay, out, hmove, hsub, hstay, hat, hfst, hout⟩ :=
        ih fun r' hr' => hl r' (List.mem_cons_of_mem _ hr')
      rcases find_at junk hold (hl r List.mem_cons_self) ch with ⟨hnone, hfind⟩ | ⟨Q, hfind, hQ⟩
      · have hmark : ¬ Marked V (read.drop r.head ++ [ch]) := by
          rw [Marked, hnone]
          simp
        refine ⟨stay, out, ?_, hsub.cons _, fun start => ?_, hat, hfst.cons _, fun start len => ?_⟩
        · rw [move_matches, hfind]
          exact hmove
        · rw [hstay, List.map_cons, List.mem_cons, or_and_right]
          exact ⟨Or.inr, fun h => h.resolve_left fun hr => hr.2 (hr.1 ▸ hnone)⟩
        · rw [hout, List.map_cons, List.mem_cons, or_and_right]
          exact ⟨Or.inr, fun h => h.resolve_left fun hr => hmark (hr.1 ▸ hr.2.2)⟩
      · obtain ⟨called, hcalled, hone, hmem⟩ :=
          on_match_at junk hold (r := { r with curr := Q }) hQ c
        refine ⟨{ r with curr := Q } :: stay, called ++ out, ?_, hsub.cons_cons _,
          fun start => ?_, fun r' hr' => ?_, ?_, fun start len => ?_⟩
        · rw [move_matches, hfind, Option.bind_some]
          dsimp only
          rw [hcalled, Option.bind_some, hmove]
          rfl
        · rw [List.map_cons, List.mem_cons, hstay, List.map_cons, List.mem_cons, or_and_right]
          refine or_congr_left ⟨fun heq => ⟨heq, ?_⟩, fun h => h.1⟩
          rw [heq]
          exact hQ.alive hold
        · cases List.mem_cons.mp hr' with
          | inl heq =>
              rw [heq]
              exact hQ
          | inr hin => exact hat r' hin
        · rw [List.map_append]
          exact hone.append hfst
        · rw [List.mem_append, hmem, hout, List.map_cons, List.mem_cons, or_and_right]
          refine or_congr_left (and_congr_right fun heq => ?_)
          rw [heq]

/-- **`move`**, with the new match in front of those that stay. -/
theorem move_at {x : Char_Indexer} {V : Family Byte Cell} (hold : Holds x.root_ V) (read : Bytes)
    (ch : Byte) (hcurr : ∀ r ∈ x.match_, At x.root_ V (read.drop r.head) r.curr)
    (hheads : (x.match_.map Result.head).Pairwise (· > ·))
    (hlt : ∀ r ∈ x.match_, r.head < read.length) :
    ∃ x' out, move junk x read.length ch = some (x', out) ∧ x'.root_ = x.root_ ∧
      (x'.match_.map Result.head).Pairwise (· > ·) ∧
      (∀ start, start ∈ x'.match_.map Result.head ↔
        (start = read.length ∨ start ∈ x.match_.map Result.head) ∧
          V (read.drop start ++ [ch]) ≠ none) ∧
      (∀ r ∈ x'.match_, At x.root_ V (read.drop r.head ++ [ch]) r.curr) ∧
      out.Nodup ∧ ∀ start len, (start, len) ∈ out ↔
        (start = read.length ∨ start ∈ x.match_.map Result.head) ∧
          len = read.length - start + 1 ∧ Marked V (read.drop start ++ [ch]) := by
  obtain ⟨stay, out, hmove, hsub, hstay, hat, hfst, hout⟩ :=
    move_matches_at junk hold read read.length ch hcurr
  have hhead : ∀ start ∈ x.match_.map Result.head, start < read.length := by
    intro start hstart
    obtain ⟨r, hr, rfl⟩ := List.mem_map.mp hstart
    exact hlt r hr
  have hnodup : out.Nodup :=
    (hfst.nodup (hheads.imp fun h => (ne_of_lt h).symm)).of_map _
  have hfirst : read.drop read.length ++ [ch] = [] ++ [ch] := by rw [List.drop_length]
  rcases find_at junk hold At.root ch with ⟨hnone, hfind⟩ | ⟨Q, hfind, hQ⟩
  · -- the character begins no key
    rw [← hfirst] at hnone
    have hmark : ¬ Marked V (read.drop read.length ++ [ch]) := by
      rw [Marked, hnone]
      simp
    refine ⟨{ x with match_ := stay }, out, ?_, rfl, hheads.sublist hsub, fun start => ?_, hat,
      hnodup, fun start len => ?_⟩
    · unfold move
      rw [hfind, Option.bind_some]
      by_cases hempty : x.match_.isEmpty = true
      · rw [if_pos ⟨rfl, hempty⟩]
        rw [List.isEmpty_iff] at hempty
        rw [hempty, move_matches] at hmove
        obtain ⟨rfl, rfl⟩ := Prod.mk.inj (Option.some.inj hmove)
        rw [← hempty]
      · rw [if_neg fun h => hempty h.2, hmove]
        rfl
    · rw [hstay, or_and_right]
      exact ⟨Or.inr, fun h => h.resolve_left fun hr => hr.2 (hr.1 ▸ hnone)⟩
    · rw [hout, or_and_right]
      exact ⟨Or.inr, fun h => h.resolve_left fun hr => hmark (hr.1 ▸ hr.2.2)⟩
  · rw [← hfirst] at hQ
    obtain ⟨called, hcalled, hone, hmem⟩ :=
      on_match_at junk hold (r := ⟨Q, read.length⟩) hQ read.length
    refine ⟨{ x with match_ := ⟨Q, read.length⟩ :: stay }, out ++ called, ?_, rfl, ?_,
      fun start => ?_, fun r hr => ?_, ?_, fun start len => ?_⟩
    · unfold move
      rw [hfind, Option.bind_some, if_neg (by simp), hmove, Option.bind_some]
      dsimp only
      rw [hcalled, Option.map_some]
    · exact List.pairwise_cons.mpr
        ⟨fun start hstart => hhead start (hsub.subset hstart), hheads.sublist hsub⟩
    · rw [List.map_cons, List.mem_cons, hstay, or_and_right]
      refine or_congr_left ⟨fun heq => ⟨heq, ?_⟩, fun h => h.1⟩
      rw [heq]
      exact hQ.alive hold
    · cases List.mem_cons.mp hr with
      | inl heq =>
          rw [heq]
          exact hQ
      | inr hin => exact hat r hin
    · -- the match that has just begun is not one of the others
      refine List.Nodup.append hnodup ((hone.nodup (List.nodup_singleton _)).of_map _) ?_
      intro call hcall hcall'
      have hin := hfst.subset (List.mem_map_of_mem hcall)
      have heq := List.mem_singleton.mp (hone.subset (List.mem_map_of_mem hcall'))
      exact absurd (hhead _ hin) (by rw [heq]; exact lt_irrefl _)
    · rw [List.mem_append, hmem, hout, or_and_right, or_comm]
      refine or_congr_left (and_congr_right fun heq => ?_)
      rw [heq]

/-- **A character is read**: what it does to the partial matches, and the calls that are made. -/
theorem move_step {calls : List Call} {V : Family Byte Cell} {x : Char_Indexer}
    (hkept : Kept calls V x) (ch : Byte) :
    ∃ x' out, move junk x (text calls).length ch = some (x', out) ∧
      Kept (calls ++ [.move ch]) V x' ∧ out.Nodup ∧
      ∀ start len, (start, len) ∈ out ↔ Matched calls ch start len := by
  obtain ⟨x', out, hmove, hroot, hheads, hwaits, hcurr, hnodup, hout⟩ :=
    move_at junk hkept.holds (text calls) ch hkept.curr hkept.heads fun r hr => hkept.head_lt hr
  have htext : text (calls ++ [.move ch]) = text calls ++ [ch] := text_append _ _
  have hkeys : keys (calls ++ [.move ch]) = keys calls :=
    (keys_append _ _).trans (List.append_nil _)
  have halive : ∀ start, V ((text calls).drop start ++ [ch]) ≠ none ↔
      ∃ k ∈ keys calls, (text calls).drop start ++ [ch] <+: k := fun start => by
    rw [hkept.alive]
    exact or_iff_right (by simp)
  -- the slices that have been followed, the new one with them
  have hstart : ∀ start, (start = (text calls).length ∨ start ∈ x.match_.map Result.head) ↔
      start < (text calls).length + 1 ∧ Followed calls start := by
    intro start
    rw [hkept.waits, Nat.lt_succ_iff_lt_or_eq]
    constructor
    · rintro (rfl | ⟨hlt, hfol⟩)
      · exact ⟨Or.inr rfl, followed_end calls⟩
      · exact ⟨Or.inl hlt, hfol⟩
    · rintro ⟨hlt | heq, hfol⟩
      · exact Or.inr ⟨hlt, hfol⟩
      · exact Or.inl heq
  refine ⟨x', out, hmove, ⟨hroot ▸ hkept.holds, ?_, ?_, hheads, fun start => ?_, fun r hr => ?_⟩,
    hnodup, fun start len => ?_⟩
  · rw [hkeys]
    exact hkept.alive
  · rw [hkeys]
    exact hkept.marked
  · rw [hwaits, hstart, htext, List.length_append, List.length_singleton, and_assoc]
    refine and_congr_right fun hlt => ?_
    rw [followed_move calls ch (by omega), halive]
  · have hle : r.head ≤ (text calls).length := by
      have h := ((hstart r.head).mp ((hwaits r.head).mp (List.mem_map_of_mem hr)).1).1
      omega
    rw [htext, List.drop_append_of_le_length hle, hroot]
    exact hcurr r hr
  · rw [hout, hstart, hkept.marked]
    unfold Matched
    constructor
    · rintro ⟨⟨hlt, hfol⟩, rfl, hkey⟩
      refine ⟨by omega, by omega, ?_, hkey⟩
      exact (followed_move calls ch (by omega)).mpr ⟨hfol, _, hkey, List.prefix_rfl⟩
    · rintro ⟨hpos, hlen, hfol, hkey⟩
      refine ⟨⟨by omega, ?_⟩, by omega, hkey⟩
      exact ((followed_move calls ch (by omega)).mp hfol).1

/-! ## §4. Runs. -/

/-- `Safe` for the calls that follow others. -/
def Safe_From (before calls : List Call) : Prop :=
  ∀ pre buf post, calls = pre ++ .insert_key buf :: post → Dangles (before ++ pre) buf →
    text post = []

def Reported_From (before calls : List Call) (start len : Nat) : Prop :=
  ∃ pre ch post, calls = pre ++ .move ch :: post ∧ Matched (before ++ pre) ch start len

theorem cons_eq_append_cons {α : Type} {l pre post : List α} {a b : α} :
    a :: l = pre ++ b :: post ↔
      (pre = [] ∧ a = b ∧ l = post) ∨ ∃ rest, pre = a :: rest ∧ l = rest ++ b :: post := by
  rw [List.cons_eq_append_iff, List.cons.injEq]
  simp only [eq_comm]

theorem safe_from_insert (before calls : List Call) (buf : Bytes) :
    Safe_From before (.insert_key buf :: calls) ↔
      (Dangles before buf → text calls = []) ∧
        Safe_From (before ++ [.insert_key buf]) calls := by
  constructor
  · intro h
    refine ⟨fun hdang => h [] buf calls rfl (by rwa [List.append_nil]), ?_⟩
    intro pre buf' post heq hdang
    exact h (.insert_key buf :: pre) buf' post (by rw [heq]; rfl) (by simpa using hdang)
  · rintro ⟨hnow, hlater⟩ pre buf' post heq hdang
    rcases cons_eq_append_cons.mp heq with ⟨rfl, hcall, rfl⟩ | ⟨rest, rfl, hcalls⟩
    · obtain rfl := Call.insert_key.inj hcall
      exact hnow (by rwa [List.append_nil] at hdang)
    · exact hlater rest buf' post hcalls (by simpa using hdang)

theorem safe_from_move (before calls : List Call) (ch : Byte) :
    Safe_From before (.move ch :: calls) ↔ Safe_From (before ++ [.move ch]) calls := by
  constructor
  · intro h pre buf post heq hdang
    exact h (.move ch :: pre) buf post (by rw [heq]; rfl) (by simpa using hdang)
  · intro h pre buf post heq hdang
    rcases cons_eq_append_cons.mp heq with ⟨-, hcall, -⟩ | ⟨rest, rfl, hcalls⟩
    · exact absurd hcall (by simp)
    · exact h rest buf post hcalls (by simpa using hdang)

theorem reported_from_insert (before calls : List Call) (buf : Bytes) (start len : Nat) :
    Reported_From before (.insert_key buf :: calls) start len ↔
      Reported_From (before ++ [.insert_key buf]) calls start len := by
  constructor
  · rintro ⟨pre, ch, post, heq, hmatch⟩
    rcases cons_eq_append_cons.mp heq with ⟨-, hcall, -⟩ | ⟨rest, rfl, hcalls⟩
    · exact absurd hcall (by simp)
    · exact ⟨rest, ch, post, hcalls, by simpa using hmatch⟩
  · rintro ⟨pre, ch, post, heq, hmatch⟩
    exact ⟨.insert_key buf :: pre, ch, post, by rw [heq]; rfl, by simpa using hmatch⟩

theorem reported_from_move (before calls : List Call) (ch : Byte) (start len : Nat) :
    Reported_From before (.move ch :: calls) start len ↔
      Matched before ch start len ∨ Reported_From (before ++ [.move ch]) calls start len := by
  constructor
  · rintro ⟨pre, ch', post, heq, hmatch⟩
    rcases cons_eq_append_cons.mp heq with ⟨rfl, hcall, rfl⟩ | ⟨rest, rfl, hcalls⟩
    · obtain rfl := Call.move.inj hcall
      exact Or.inl (by rwa [List.append_nil] at hmatch)
    · exact Or.inr ⟨rest, ch', post, hcalls, by simpa using hmatch⟩
  · rintro (hmatch | ⟨pre, ch', post, heq, hmatch⟩)
    · exact ⟨[], ch, calls, rfl, by rwa [List.append_nil]⟩
    · exact ⟨.move ch :: pre, ch', post, by rw [heq]; rfl, by simpa using hmatch⟩

/-- A call that is made later ends later in the text. -/
theorem reported_from_beyond {before calls : List Call} {start len : Nat}
    (h : Reported_From before calls start len) : (text before).length < start + len := by
  obtain ⟨pre, ch, post, -, -, hlen, -⟩ := h
  rw [text_append, List.length_append] at hlen
  omega

/-- **Behind a pointer that dangles** keys can be entered, and nothing else. -/
theorem lost_run (calls : List Call) : ∀ {x : Char_Indexer} (c : Nat), Lost x →
    (text calls = [] → ∃ x', run junk x c calls = some (x', [])) ∧
      (text calls ≠ [] → run junk x c calls = none) := by
  induction calls with
  | nil => exact fun c _ => ⟨fun _ => ⟨_, rfl⟩, fun h => absurd rfl h⟩
  | cons call calls ih =>
      intro x c hlost
      cases call with
      | insert_key buf =>
          obtain ⟨x', hins, hlost'⟩ := lost_insert junk hlost buf
          rw [run, hins, Option.bind_some]
          exact ih c hlost'
      | move ch =>
          refine ⟨fun h => absurd h (by simp [text]), fun _ => ?_⟩
          rw [run, lost_move junk hlost]
          rfl

/-- **A run**, from any history on. -/
theorem run_from (calls : List Call) : ∀ {before : List Call} {V : Family Byte Cell}
    {x : Char_Indexer}, Kept before V x →
      (Safe_From before calls → ∃ x' out,
        run junk x (text before).length calls = some (x', out) ∧ out.Nodup ∧
          ∀ start len, (start, len) ∈ out ↔ Reported_From before calls start len) ∧
      (¬ Safe_From before calls → run junk x (text before).length calls = none) := by
  induction calls with
  | nil =>
      intro before V x _
      refine ⟨fun _ => ⟨x, [], rfl, List.nodup_nil, fun start len => ?_⟩, fun h => ?_⟩
      · refine iff_of_false List.not_mem_nil ?_
        rintro ⟨pre, ch, post, heq, -⟩
        exact absurd heq (by simp)
      · exact absurd (fun pre buf post heq => absurd heq (by simp)) h
  | cons call calls ih =>
      intro before V x hkept
      cases call with
      | insert_key buf =>
          obtain ⟨x', hins, hdang, hkeep⟩ := insert_step junk hkept buf
          have htext : (text (before ++ [.insert_key buf])).length = (text before).length := by
            rw [text_append]
            simp [text]
          rw [run, hins, Option.bind_some, safe_from_insert]
          simp only [reported_from_insert]
          by_cases h : Dangles before buf
          · obtain ⟨hstop, hgo⟩ := lost_run junk calls (text before).length (hdang h)
            -- no key is of interest any more
            have hrest : text calls = [] → Safe_From (before ++ [.insert_key buf]) calls := by
              intro hnil pre buf' post heq _
              rw [heq, text_append, List.append_eq_nil_iff] at hnil
              exact hnil.2
            refine ⟨fun hsafe => ?_, fun hsafe => hgo fun hnil => hsafe ⟨fun _ => hnil, hrest hnil⟩⟩
            have hnil := hsafe.1 h
            obtain ⟨x'', hrun⟩ := hstop hnil
            refine ⟨x'', [], hrun, List.nodup_nil, fun start len => ?_⟩
            refine iff_of_false List.not_mem_nil ?_
            rintro ⟨pre, ch, post, heq, -⟩
            rw [heq, text_append, List.append_eq_nil_iff] at hnil
            exact absurd hnil.2 (by simp [text])
          · obtain ⟨V', hkept'⟩ := hkeep h
            obtain ⟨hsafe, hnot⟩ := ih hkept'
            rw [htext] at hsafe hnot
            exact ⟨fun hs => hsafe hs.2, fun hs => hnot fun hs' => hs ⟨fun hd => absurd hd h, hs'⟩⟩
      | move ch =>
          obtain ⟨x', out, hmove, hkept', hnodup, hout⟩ := move_step junk hkept ch
          obtain ⟨hsafe, hnot⟩ := ih hkept'
          have htext : (text (before ++ [.move ch])).length = (text before).length + 1 := by
            rw [text_append, List.length_append]
            rfl
          rw [htext] at hsafe hnot
          rw [run, hmove, Option.bind_some, safe_from_move]
          dsimp only
          refine ⟨fun hs => ?_, fun hs => by rw [hnot hs]; rfl⟩
          obtain ⟨x'', rest, hrun, hnodup', hrest⟩ := hsafe hs
          refine ⟨x'', out ++ rest, by rw [hrun]; rfl, ?_, fun start len => ?_⟩
          · refine List.Nodup.append hnodup hnodup' ?_
            rintro ⟨start, len⟩ hcall hcall'
            have hlen := ((hout start len).mp hcall).2.1
            have hlt := reported_from_beyond ((hrest start len).mp hcall')
            rw [htext] at hlt
            omega
          · rw [List.mem_append, hout, hrest, reported_from_move]

/-- **No call reads through a pointer to a block that was freed**, just when no key leaves the
    tree beside a partial match that is still read on. -/
theorem run_safe_iff (calls : List Call) :
    (∃ x out, run junk new 0 calls = some (x, out)) ↔ Safe calls := by
  obtain ⟨V, hkept⟩ := kept_new
  obtain ⟨hsafe, hnot⟩ := run_from junk calls hkept
  constructor
  · rintro ⟨x, out, hrun⟩
    by_contra h
    have hnone := hnot h
    rw [show (text []).length = 0 from rfl, hrun] at hnone
    exact absurd hnone (by simp)
  · intro h
    obtain ⟨x, out, hrun, -⟩ := hsafe h
    exact ⟨x, out, hrun⟩

/-- **The calls of `on_key_matched`**: one for each slice of the text that has been followed to
    its end, along keys that were there at the time, and is a key then. -/
theorem run_reports (calls : List Call) (hsafe : Safe calls) :
    ∃ x out, run junk new 0 calls = some (x, out) ∧ out.Nodup ∧
      ∀ start len, (start, len) ∈ out ↔ Reported calls start len := by
  obtain ⟨V, hkept⟩ := kept_new
  exact (run_from junk calls hkept).1 hsafe

/-- "abc" is entered behind the first character of "abc", below the node that has been reached. -/
theorem run_reports_abc :
    ∃ x out, run (fun _ _ => ⟨0, 0, 0, none⟩) new 0
        [.insert_key [97, 98], .move 97, .insert_key [97, 98, 99], .move 98, .move 99]
          = some (x, out) ∧ out.Nodup ∧
      ∀ start len, (start, len) ∈ out ↔ Reported
        [.insert_key [97, 98], .move 97, .insert_key [97, 98, 99], .move 98, .move 99] start len := by
  refine run_reports _ _ ?_
  have hsafe : Safe_From []
      [.insert_key [97, 98], .move 97, .insert_key [97, 98, 99], .move 98, .move 99] := by
    rw [safe_from_insert, safe_from_move, safe_from_insert, safe_from_move, safe_from_move]
    refine ⟨?_, ?_, fun pre buf post heq => absurd heq (by simp)⟩
    · rintro ⟨start, hlt, -⟩
      exact absurd hlt (Nat.not_lt_zero start)
    · rintro ⟨start, hlt, -, σ, c, ch, hw, hpre, hnew⟩
      obtain rfl : start = 0 := by
        have h : start < 1 := hlt
        omega
      -- what has been read is "a", and both keys go on from there
      obtain rfl : σ = [] := by
        have hlen : [(97 : Byte)].length = (σ ++ [c]).length := congrArg List.length hw
        simpa using hlen
      have hch : ch = 97 := by simpa using hpre
      exact absurd (by rw [hch]; simp) (hnew [97, 98] List.mem_cons_self)
  exact hsafe

/-! ### All keys first. -/

/-- `insert_key` for every key, then `move` for each character. -/
def search_calls (ks : List Bytes) (txt : Bytes) : List Call :=
  ks.map .insert_key ++ txt.map .move

@[simp] theorem text_search (ks : List Bytes) (txt : Bytes) :
    text (search_calls ks txt) = txt := by
  rw [search_calls, text_append, text, text, List.filterMap_map, List.filterMap_map]
  simp

@[simp] theorem keys_search (ks : List Bytes) (txt : Bytes) :
    keys (search_calls ks txt) = ks := by
  rw [search_calls, keys_append, keys, keys, List.filterMap_map, List.filterMap_map]
  simp

/-- The calls before a character. -/
theorem search_split {ks : List Bytes} {txt : Bytes} {pre post : List Call} {ch : Byte}
    (h : search_calls ks txt = pre ++ .move ch :: post) :
    ∃ read rest, txt = read ++ ch :: rest ∧ pre = search_calls ks read := by
  rcases List.append_eq_append_iff.mp h with ⟨tail, rfl, htail⟩ | ⟨tail, htail, hpost⟩
  · obtain ⟨read, more, rfl, rfl, hmore⟩ := List.map_eq_append_iff.mp htail
    obtain ⟨d, rest, rfl, hd, -⟩ := List.map_eq_cons_iff.mp hmore
    obtain rfl := Call.move.inj hd
    exact ⟨read, rest, rfl, rfl⟩
  · cases tail with
    | nil =>
        obtain ⟨d, rest, rfl, hd, -⟩ := List.map_eq_cons_iff.mp hpost.symm
        obtain rfl := Call.move.inj hd
        refine ⟨[], rest, rfl, ?_⟩
        rw [List.append_nil] at htail
        rw [← htail, search_calls, List.map_nil, List.append_nil]
    | cons call tail =>
        -- a key is no character
        obtain ⟨rfl, -⟩ := List.cons.inj hpost
        have hmem : Call.move ch ∈ ks.map Call.insert_key := by
          rw [htail]
          simp
        obtain ⟨buf, -, hbuf⟩ := List.mem_map.mp hmem
        exact absurd hbuf (by simp)

theorem safe_search (ks : List Bytes) (txt : Bytes) : Safe (search_calls ks txt) := by
  intro pre buf post heq hdang
  by_contra hne
  obtain ⟨start, hlt, -⟩ := hdang
  -- a character before the key would come before all of them
  have hpre : ∃ d ∈ pre, ∃ ch, d = Call.move ch := by
    by_contra hall
    have hnil : text pre = [] := by
      rw [text, List.filterMap_eq_nil_iff]
      intro call hcall
      cases call with
      | insert_key buf => rfl
      | move ch => exact absurd ⟨_, hcall, ch, rfl⟩ hall
    rw [hnil] at hlt
    exact absurd hlt (Nat.not_lt_zero start)
  obtain ⟨_, hd, ch, rfl⟩ := hpre
  obtain ⟨A, B, rfl⟩ := List.append_of_mem hd
  have hsplit : search_calls ks txt = A ++ .move ch :: (B ++ .insert_key buf :: post) := by
    rw [heq]
    simp
  obtain ⟨read, rest, hread, hA⟩ := search_split hsplit
  have hlen := congrArg (fun calls => (keys calls).length) heq
  rw [hA, keys_append, keys_append, keys_search, keys_search] at hlen
  have hkey : (keys (.insert_key buf :: post)).length = (keys post).length + 1 := rfl
  rw [List.length_append, List.length_append] at hlen
  omega

/-- A slice that is a key has been followed to its end. -/
theorem followed_search {ks : List Bytes} {txt : Bytes} {start : Nat} {k : Bytes} (hk : k ∈ ks)
    (hpre : txt.drop start <+: k) : Followed (search_calls ks txt) start := by
  intro pre ch post heq hle
  obtain ⟨read, rest, rfl, rfl⟩ := search_split heq
  rw [text_search] at hle
  rw [keys_search, text_search]
  refine ⟨k, hk, List.IsPrefix.trans ?_ hpre⟩
  rw [List.drop_append_of_le_length hle]
  exact (List.prefix_append_right_inj _).mpr ⟨rest, rfl⟩

theorem reported_search (ks : List Bytes) (txt : Bytes) (start len : Nat) :
    Reported (search_calls ks txt) start len ↔
      0 < len ∧ start + len ≤ txt.length ∧ (txt.drop start).take len ∈ ks := by
  have hslice : ∀ (read rest : Bytes) (ch : Byte), start ≤ read.length →
      start + len = read.length + 1 →
      ((read ++ ch :: rest).drop start).take len = read.drop start ++ [ch] := by
    intro read rest ch hle hlen
    rw [List.drop_append_of_le_length hle]
    have hsplit : read.drop start ++ ch :: rest = read.drop start ++ [ch] ++ rest := by simp
    have hlen' : len = (read.drop start ++ [ch]).length := by
      rw [List.length_append, List.length_drop, List.length_singleton]
      omega
    rw [hsplit, hlen', List.take_left]
  constructor
  · rintro ⟨pre, ch, post, heq, hpos, hlen, -, hkey⟩
    obtain ⟨read, rest, rfl, rfl⟩ := search_split heq
    rw [text_search] at hlen hkey
    rw [keys_search] at hkey
    refine ⟨hpos, ?_, ?_⟩
    · rw [List.length_append, List.length_cons]
      omega
    · rwa [hslice read rest ch (by omega) hlen]
  · rintro ⟨hpos, hle, hkey⟩
    -- the slice ends with this character
    obtain ⟨read, ch, rest, rfl, hread⟩ :
        ∃ read ch rest, txt = read ++ ch :: rest ∧ start + len = read.length + 1 := by
      have hlt : start + len - 1 < txt.length := by omega
      refine ⟨txt.take (start + len - 1), txt[start + len - 1], txt.drop (start + len - 1 + 1),
        ?_, ?_⟩
      · rw [List.getElem_cons_drop, List.take_append_drop]
      · rw [List.length_take_of_le (by omega)]
        omega
    rw [hslice read rest ch (by omega) hread] at hkey
    have hmove : search_calls ks (read ++ [ch]) = search_calls ks read ++ [.move ch] := by
      simp [search_calls]
    refine ⟨search_calls ks read, ch, rest.map .move, by simp [search_calls], hpos, ?_, ?_, ?_⟩
    · rw [text_search, hread]
    · rw [← hmove]
      refine followed_search hkey ?_
      rw [List.drop_append_of_le_length (by omega)]
    · rw [text_search, keys_search]
      exact hkey

/-- **All keys first**: the matcher in memory reports each slice of the text that is a key, and
    each once. -/
theorem search_in_memory (ks : List Bytes) (txt : Bytes) :
    ∃ x out, run junk new 0 (search_calls ks txt) = some (x, out) ∧ out.Nodup ∧
      ∀ start len, (start, len) ∈ out ↔
        0 < len ∧ start + len ≤ txt.length ∧ (txt.drop start).take len ∈ ks := by
  obtain ⟨V, hkept⟩ := kept_new
  obtain ⟨x, out, hrun, hnodup, hout⟩ := (run_from junk _ hkept).1 (safe_search ks txt)
  exact ⟨x, out, hrun, hnodup, fun start len =>
    (hout start len).trans (reported_search ks txt start len)⟩

end Aos.Indexer_Memory
