/-
  Aos.Matcher.CharIndexer — `Char_Indexer`, all occurrences of all keys.

  The keys make a trie; `move` gives it one more character of the text and
  keeps a list of the partial matches that are still alive.  A reported match
  is a call of `on_key_matched`, here a pair (head, size) in the result.

  What the component is for, in its own terms: the trie is a set of keys
  (`Holds`), and a text is to be searched for every slice in that set.
  **`move_reports_keys`**: the calls are exactly those pairs, each made once.
-/
import Aos.Matcher.CharNode
import Aos.Lib.Suffixes

namespace Aos

open Lib.Suffixes

/-! ## §1. Keys. -/

namespace Char_Node

/-- `insert_key(buf, size)` from a node on: the loop `node = node->set(*ptr)`. -/
def insert_key (node : Char_Node) : Bytes → Char_Node
  | [] => { node with flag_ := Match }
  | ch :: buf =>
      let pn := node.set ch
      { pn.1 with node_ := pn.1.node_.modify pn.2 (fun child => insert_key child buf) }

/-- `(flag() & Match) == Match`. -/
def matched (node : Char_Node) : Bool := node.flag_ &&& Match == Match

theorem insert_key_cons (node : Char_Node) (ch : Byte) (buf : Bytes) :
    node.insert_key (ch :: buf) = node.update ch (fun child => child.insert_key buf) := rfl

theorem insert_key_ok (buf : Bytes) :
    ∀ node : Char_Node, Ok node → (node.insert_key buf).ch_ = node.ch_ ∧ Ok (node.insert_key buf) := by
  induction buf with
  | nil =>
      intro node hok
      exact ⟨rfl, Ok.mk _ hok.sorted (fun c hc => hok.child hc)⟩
  | cons ch buf ih =>
      intro node hok
      rw [insert_key_cons]
      exact ⟨update_ch node ch _, ok_update node ch _ hok ih⟩

/-- The trie below `node` holds the word `w`. -/
def holds (node : Char_Node) (w : Bytes) : Bool := accepts find matched node w

theorem holds_cons (node : Char_Node) (ch : Byte) (w : Bytes) :
    node.holds (ch :: w) = (node.find ch).any (fun child => child.holds w) :=
  accepts_cons find matched node ch w

theorem holds_new (ch : Byte) (w : Bytes) : (new ch 0).holds w = false := by
  cases w with
  | nil =>
      show ((0 : Byte) &&& Match == Match) = false
      decide
  | cons d w =>
      rw [holds_cons, find_eq _ d (ok_new ch 0)]
      rfl

/-- A child that is not there yet holds what a fresh one does: nothing. -/
theorem holds_child (node : Char_Node) (ch : Byte) (w : Bytes) :
    ((node.find ch).getD (new ch 0)).holds w = node.holds (ch :: w) := by
  rw [holds_cons]
  cases node.find ch with
  | none => exact holds_new ch w
  | some child => rfl

/-- **Entering a key adds that key and nothing else.** -/
theorem holds_insert_key (buf : Bytes) :
    ∀ (node : Char_Node), Ok node → ∀ w,
      (node.insert_key buf).holds w = (decide (w = buf) || node.holds w) := by
  induction buf with
  | nil =>
      intro node hok w
      cases w with
      | nil =>
          show (Match &&& Match == Match) = (decide (([] : Bytes) = []) || _)
          rw [decide_eq_true rfl, Bool.true_or]
          decide
      | cons d w =>
          -- only the flag differs, no lookup sees it
          have hsame : (node.insert_key []).find d = node.find d := rfl
          rw [holds_cons, holds_cons, hsame]
          simp
  | cons ch buf ih =>
      intro node hok w
      rw [insert_key_cons]
      cases w with
      | nil =>
          show matched (node.update ch _) = (decide ([] = ch :: buf) || matched node)
          unfold matched
          rw [update_flag]
          simp
      | cons d w =>
          rw [holds_cons, find_update node ch d _ hok (insert_key_ok buf)]
          by_cases hd : d = ch
          · subst hd
            have hchild : Ok ((node.find d).getD (new d 0)) := by
              cases hf : node.find d with
              | none => exact ok_new d 0
              | some child => exact ok_of_find hok hf
            rw [if_pos rfl, Option.any_some, ih _ hchild w, holds_child]
            simp
          · rw [if_neg hd, holds_cons]
            simp [hd]

end Char_Node

/-! ## §2. The matcher. -/

/-- A partial match: the node it has reached, and where in the text it began. -/
structure Result where
  curr : Char_Node
  head : Nat

structure Char_Indexer where
  root_ : Char_Node
  match_ : List Result

namespace Char_Indexer

def new : Char_Indexer := ⟨Char_Node.new 0 0, []⟩

def insert_key (m : Char_Indexer) (buf : Bytes) : Char_Indexer :=
  { m with root_ := m.root_.insert_key buf }

/-- `if( flag & Match ) on_key_matched(head, c - head + 1)`. -/
def on_match (r : Result) (c : Nat) : List (Nat × Nat) :=
  if r.curr.matched then [(r.head, c - r.head + 1)] else []

/-- The loop over `match_`: the matches that stay, and the calls made. -/
def move_matches (c : Nat) (ch : Byte) : List Result → List Result × List (Nat × Nat)
  | [] => ([], [])
  | r :: rest =>
      match r.curr.find ch with
      | some next_match =>
          let r' := { r with curr := next_match }
          let tail := move_matches c ch rest
          (r' :: tail.1, on_match r' c ++ tail.2)
      | none => move_matches c ch rest

/-- `move(c)`, with `ch` the character `c` points at. -/
def move (m : Char_Indexer) (c : Nat) (ch : Byte) : Char_Indexer × List (Nat × Nat) :=
  let new_match := m.root_.find ch
  if new_match.isNone ∧ m.match_.isEmpty then (m, [])
  else
    let moved := move_matches c ch m.match_
    match new_match with
    | some node =>
        let new_result : Result := ⟨node, c⟩
        ({ m with match_ := new_result :: moved.1 }, moved.2 ++ on_match new_result c)
    | none => ({ m with match_ := moved.1 }, moved.2)

/-- `move` on each character of a text that starts at `c`: all calls made. -/
def move_all (m : Char_Indexer) (c : Nat) : Bytes → List (Nat × Nat)
  | [] => []
  | ch :: text => (m.move c ch).2 ++ move_all (m.move c ch).1 (c + 1) text

/-! ## §3. One character. -/

/-- The list of partial matches as the library's live runs. -/
def runs (l : List Result) : List (Nat × Char_Node) := l.map (fun r => (r.head, r.curr))

/-- The matches are the live runs of the trie after `read`. -/
def Live (m : Char_Indexer) (read : Bytes) : Prop :=
  runs m.match_ = live Char_Node.find m.root_ read

/-- The report of one run, `n` characters after it began. -/
theorem report_size (node : Char_Node) (c n : Nat) :
    [(c, node)].filterMap (report Char_Node.matched (c + n))
      = if node.matched then [(c, n)] else [] := by
  rw [List.filterMap_cons]
  unfold report
  have hsize : c + n - c = n := by omega
  by_cases hm : node.matched = true
  · rw [if_pos hm, if_pos hm, hsize]
    rfl
  · rw [if_neg hm, if_neg hm]
    rfl

theorem on_match_report (r : Result) (c : Nat) (h : r.head ≤ c) :
    on_match r c = [(r.head, r.curr)].filterMap (report Char_Node.matched (c + 1)) := by
  have hsize : c + 1 = r.head + (c - r.head + 1) := by omega
  rw [hsize, report_size]
  rfl

theorem move_matches_runs (c : Nat) (ch : Byte) (l : List Result) (hl : ∀ r ∈ l, r.head ≤ c) :
    runs (move_matches c ch l).1 = (runs l).filterMap (advance Char_Node.find ch) ∧
    (move_matches c ch l).2 = ((runs l).filterMap (advance Char_Node.find ch)).filterMap
      (report Char_Node.matched (c + 1)) := by
  induction l with
  | nil => exact ⟨rfl, rfl⟩
  | cons r rest ih =>
      have hrest := ih (fun r' hr' => hl r' (List.mem_cons_of_mem _ hr'))
      have hruns : runs (r :: rest) = (r.head, r.curr) :: runs rest := rfl
      rw [move_matches, hruns, List.filterMap_cons]
      unfold advance
      -- a match that cannot go on is erased from the list
      cases hf : r.curr.find ch with
      | none => exact hrest
      | some next_match =>
          have hhead := on_match_report { r with curr := next_match } c (hl r List.mem_cons_self)
          refine ⟨?_, ?_⟩
          · show (r.head, next_match) :: runs (move_matches c ch rest).1 = _
            rw [hrest.1]
            rfl
          · show on_match { r with curr := next_match } c ++ (move_matches c ch rest).2 = _
            rw [hhead, hrest.2, ← List.filterMap_append]
            rfl

/-- The partial matches began inside what has been read. -/
theorem head_le (m : Char_Indexer) (read : Bytes) (hlive : m.Live read) :
    ∀ r ∈ m.match_, r.head ≤ read.length := by
  intro r hr
  have hmem : (r.head, r.curr) ∈ live Char_Node.find m.root_ read := by
    rw [← hlive]
    exact List.mem_map_of_mem hr
  have hlt := live_start Char_Node.find m.root_ read _ hmem
  omega

@[simp] theorem move_root (m : Char_Indexer) (c : Nat) (ch : Byte) :
    (m.move c ch).1.root_ = m.root_ := by
  unfold move
  by_cases hidle : (m.root_.find ch).isNone ∧ m.match_.isEmpty
  · rw [if_pos hidle]
  · rw [if_neg hidle]
    cases m.root_.find ch with
    | none => rfl
    | some node => rfl

/-- **One step.**  `move` keeps the matches the live runs of the text read so
    far, and its calls are what the library reports for the character. -/
theorem move_step (m : Char_Indexer) (read : Bytes) (ch : Byte) (hlive : m.Live read) :
    (m.move read.length ch).1.Live (read ++ [ch]) ∧
    (m.move read.length ch).2 = report_step Char_Node.find m.root_ Char_Node.matched read ch := by
  have hmoved := move_matches_runs read.length ch m.match_ (head_le m read hlive)
  unfold Live at hlive ⊢
  rw [move_root, live_concat, report_step, ← hlive]
  unfold move fresh
  cases hf : m.root_.find ch with
  | none =>
      by_cases hempty : m.match_.isEmpty = true
      · -- nothing pending and no new match: the function returns at once
        rw [if_pos ⟨rfl, hempty⟩]
        rw [List.isEmpty_iff] at hempty
        rw [hempty]
        exact ⟨rfl, rfl⟩
      · rw [if_neg (by simp [hempty])]
        refine ⟨hmoved.1, ?_⟩
        rw [← hmoved.2]
        exact (List.append_nil _).symm
  | some node =>
      -- the new match is put in front and called last
      rw [if_neg (by simp)]
      refine ⟨?_, ?_⟩
      · show (read.length, node) :: runs (move_matches read.length ch m.match_).1 = _
        rw [hmoved.1]
        rfl
      · show (move_matches read.length ch m.match_).2 ++ on_match ⟨node, read.length⟩ read.length = _
        rw [hmoved.2, on_match_report _ _ le_rfl]
        rfl

/-! ## §4. A whole text. -/

theorem move_all_reports (text : Bytes) :
    ∀ (m : Char_Indexer) (read : Bytes), m.Live read →
      m.move_all read.length text
        = reports Char_Node.find m.root_ Char_Node.matched read text := by
  induction text with
  | nil => intro m read _; rfl
  | cons ch text ih =>
      intro m read hlive
      obtain ⟨hlive', hcalls⟩ := move_step m read ch hlive
      have hrest := ih (m.move read.length ch).1 (read ++ [ch]) hlive'
      rw [List.length_append, List.length_singleton, move_root] at hrest
      rw [move_all, reports, hcalls, hrest]

/-- The trie is the set `keys`. -/
structure Holds (m : Char_Indexer) (keys : List Bytes) : Prop where
  ok : m.root_.Ok
  holds : ∀ w, m.root_.holds w = true ↔ w ∈ keys

theorem holds_new : Holds new [] :=
  ⟨Char_Node.ok_new 0 0, fun w => by
    rw [show new.root_ = Char_Node.new 0 0 from rfl, Char_Node.holds_new]
    simp⟩

theorem Holds.insert_key {m : Char_Indexer} {keys : List Bytes} (h : Holds m keys) (buf : Bytes) :
    Holds (m.insert_key buf) (buf :: keys) := by
  refine ⟨(Char_Node.insert_key_ok buf m.root_ h.ok).2, ?_⟩
  intro w
  show (m.root_.insert_key buf).holds w = true ↔ _
  rw [Char_Node.holds_insert_key buf m.root_ h.ok, Bool.or_eq_true, decide_eq_true_eq, h.holds,
    List.mem_cons]

/-- `insert_key` for every key in turn. -/
def insert_keys (m : Char_Indexer) (keys : List Bytes) : Char_Indexer := keys.foldl insert_key m

theorem Holds.insert_keys (keys : List Bytes) :
    ∀ {m : Char_Indexer} {old : List Bytes}, Holds m old →
      Holds (m.insert_keys keys) (keys.reverse ++ old) := by
  induction keys with
  | nil => intro m old h; exact h
  | cons k keys ih =>
      intro m old h
      have h' := ih (h.insert_key k)
      rw [List.reverse_cons, List.append_assoc, List.singleton_append]
      exact h'

theorem insert_keys_match (keys : List Bytes) :
    ∀ m : Char_Indexer, (m.insert_keys keys).match_ = m.match_ := by
  induction keys with
  | nil => intro m; rfl
  | cons k keys ih => intro m; exact ih (m.insert_key k)

/-- **The matcher is sound and complete.**  For non-empty keys entered into a
    fresh indexer, giving it a text character by character calls
    `on_key_matched` for exactly the pairs (start, length) whose slice of the
    text is a key, and for each of them once. -/
theorem move_reports_keys (keys : List Bytes) (hkeys : ∀ k ∈ keys, k ≠ []) (text : Bytes) :
    ((new.insert_keys keys).move_all 0 text).Nodup ∧
    ∀ start len, (start, len) ∈ (new.insert_keys keys).move_all 0 text ↔
      start + len ≤ text.length ∧ (text.drop start).take len ∈ keys := by
  have hkeep : Holds (new.insert_keys keys) (keys.reverse ++ []) := Holds.insert_keys keys holds_new
  have hlive : (new.insert_keys keys).Live [] := by
    unfold Live
    rw [insert_keys_match]
    rfl
  have hall := move_all_reports text _ [] hlive
  rw [List.length_nil] at hall
  rw [hall]
  refine ⟨reports_nodup _ _ _ text, ?_⟩
  intro start len
  have hmem : ((new.insert_keys keys).root_.holds ((text.drop start).take len) = true)
      ↔ (text.drop start).take len ∈ keys := by
    rw [hkeep.holds]
    simp
  rw [mem_reports]
  constructor
  · intro hboth
    obtain ⟨_, hle, hacc⟩ := hboth
    exact ⟨hle, hmem.mp hacc⟩
  · intro hboth
    obtain ⟨hle, hkey⟩ := hboth
    refine ⟨?_, hle, hmem.mpr hkey⟩
    -- a slice of length 0 would be the empty key
    intro heq
    subst heq
    exact hkeys _ hkey List.take_zero

/-- Overlapping keys: "ab", "b" and "ba" in the text "aba". -/
theorem move_reports_keys_aba :
    ((new.insert_keys [[97, 98], [98], [98, 97]]).move_all 0 [97, 98, 97]).Nodup ∧
    ∀ start len, (start, len) ∈ (new.insert_keys [[97, 98], [98], [98, 97]]).move_all 0 [97, 98, 97] ↔
      start + len ≤ 3 ∧ (([97, 98, 97] : Bytes).drop start).take len
        ∈ [[97, 98], [98], [98, 97]] :=
  move_reports_keys [[97, 98], [98], [98, 97]] (by decide) [97, 98, 97]

end Char_Indexer

end Aos
