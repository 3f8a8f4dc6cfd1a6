/-
  Aos.Matcher.Move2 — `Char_Indexer::move2`, the stepper that looks ahead.

  `move2` is called at a character and reads the next one too.  Its partial
  matches have taken the character behind the one it is called at, so its list
  is never the list of `move`: it is that list moved on by one character.  The
  matches of length 1 have no place in such a list and are reported at once.

  Main results:
    • `move2_step` — one step keeps the list one character ahead;
    • `move2_agrees` — over a whole text the calls are those of `move`.
-/
import Aos.Matcher.Search

namespace Aos.Char_Indexer

open Lib.Suffixes

/-! ## §1. `move2`. -/

/-- `move2(c)`, with `ch` the character `c` points at and `ch1` the one behind it. -/
def move2 (m : Char_Indexer) (c : Nat) (ch ch1 : Byte) : Char_Indexer × List (Nat × Nat) :=
  let match0 := m.root_.find ch
  if match0.isNone ∧ m.match_.isEmpty then (m, [])
  else
    let one := if match0.any Char_Node.matched then [(c, 1)] else []
    let moved := move_matches (c + 1) ch1 m.match_
    match match0.bind (fun node => node.find ch1) with
    | some match1 =>
        let new_result : Result := ⟨match1, c⟩
        ({ m with match_ := new_result :: moved.1 },
          one ++ moved.2 ++ if match1.matched then [(c, 2)] else [])
    | none => ({ m with match_ := moved.1 }, one ++ moved.2)

/-- `move2` on each character of a text that starts at `c`: all calls made. -/
def move2_all (m : Char_Indexer) (c : Nat) : Bytes → List (Nat × Nat)
  | [] => []
  | ch :: text =>
      (m.move2 c ch (deref text)).2 ++ move2_all (m.move2 c ch (deref text)).1 (c + 1) text

/-! ## §2. One character. -/

/-- The matches are the live runs of the trie after `read`, moved on by `ch`. -/
def Ahead (m : Char_Indexer) (read : Bytes) (ch : Byte) : Prop :=
  runs m.match_ = ahead Char_Node.find m.root_ read ch

theorem ahead_head_le {m : Char_Indexer} {read : Bytes} {ch : Byte} (h : m.Ahead read ch) :
    ∀ r ∈ m.match_, r.head ≤ read.length + 1 := by
  intro r hr
  have hmem : (r.head, r.curr) ∈ ahead Char_Node.find m.root_ read ch := by
    rw [← h]
    exact List.mem_map_of_mem hr
  have hlt := ahead_start Char_Node.find m.root_ read ch _ hmem
  omega

@[simp] theorem move2_root (m : Char_Indexer) (c : Nat) (ch ch1 : Byte) :
    (m.move2 c ch ch1).1.root_ = m.root_ := by
  unfold move2
  by_cases hidle : (m.root_.find ch).isNone ∧ m.match_.isEmpty
  · rw [if_pos hidle]
  · rw [if_neg hidle]
    cases (m.root_.find ch).bind (fun node => node.find ch1) with
    | none => simp only
    | some node => simp only

/-- The report of a match of length 1. -/
theorem one_report (m : Char_Indexer) (c : Nat) (ch : Byte) :
    (if (m.root_.find ch).any Char_Node.matched then [(c, 1)] else [])
      = (fresh Char_Node.find m.root_ c ch).filterMap (report Char_Node.matched (c + 1)) := by
  unfold fresh
  cases m.root_.find ch with
  | none => rfl
  | some node => exact (report_size node c 1).symm

/-- **One step.**  `move2` keeps its matches one character ahead of the text read so
    far, and its calls are, in some order, what the library reports for the character. -/
theorem move2_step (m : Char_Indexer) (read : Bytes) (ch ch1 : Byte) (hahead : m.Ahead read ch) :
    (m.move2 read.length ch ch1).1.Ahead (read ++ [ch]) ch1 ∧
    (m.move2 read.length ch ch1).2.Perm
      (ahead_step Char_Node.find m.root_ Char_Node.matched read ch ch1) := by
  have hmoved := move_matches_runs (read.length + 1) ch1 m.match_ (ahead_head_le hahead)
  have hone := one_report m read.length ch
  unfold Ahead at hahead ⊢
  rw [move2_root, ahead_step, ahead_concat, ← hahead, ← hone, List.filterMap_append, ← hmoved.2,
    ← hmoved.1]
  unfold move2 fresh
  cases hf : m.root_.find ch with
  | none =>
      by_cases hempty : m.match_.isEmpty = true
      · -- nothing pending and no key begins here: the function returns at once
        rw [if_pos ⟨rfl, hempty⟩]
        rw [List.isEmpty_iff] at hempty
        rw [hempty]
        exact ⟨rfl, List.Perm.refl _⟩
      · rw [if_neg (by simp [hempty])]
        exact ⟨rfl, List.Perm.refl _⟩
  | some node =>
      rw [if_neg (by simp)]
      have hnew : ([(read.length, node)] : List (Nat × Char_Node)).filterMap
          (advance Char_Node.find ch1)
          = ((node.find ch1).map (fun s => (read.length, s))).toList := by
        rw [List.filterMap_cons]
        unfold advance
        cases node.find ch1 with
        | none => rfl
        | some match1 => rfl
      show (runs _ = [(read.length, node)].filterMap _ ++ _) ∧ List.Perm _ (_ ++
        (([(read.length, node)].filterMap _).filterMap _ ++ _))
      rw [hnew, Option.bind_some]
      cases hf1 : node.find ch1 with
      | none => exact ⟨rfl, List.Perm.refl _⟩
      | some match1 =>
          -- the match of length 2 is put in front and called last
          have htwo := report_size match1 read.length 2
          refine ⟨rfl, ?_⟩
          show (_ ++ _ ++ (if match1.matched = true then [(read.length, 2)] else [])).Perm
            (_ ++ ([(read.length, match1)].filterMap _ ++ _))
          rw [← htwo, List.append_assoc]
          exact List.perm_append_comm.append_left _

/-! ## §3. A whole text. -/

theorem move2_all_reports (text : Bytes) :
    ∀ (m : Char_Indexer) (read : Bytes), m.Ahead read (deref text) →
      (m.move2_all read.length text).Perm
        (ahead_reports Char_Node.find m.root_ Char_Node.matched NUL read text) := by
  induction text with
  | nil => intro m read _; exact List.Perm.refl _
  | cons ch text ih =>
      intro m read hahead
      obtain ⟨hahead', hcalls⟩ := move2_step m read ch (deref text) hahead
      have hrest := ih (m.move2 read.length ch (deref text)).1 (read ++ [ch]) hahead'
      rw [List.length_append, List.length_singleton, move2_root] at hrest
      rw [move2_all, ahead_reports]
      exact hcalls.append hrest

/-- No partial match takes a character that no key holds. -/
theorem ahead_nil {keys : List Bytes} {ch : Byte} (hkeys : ∀ k ∈ keys, ch ∉ k) (read : Bytes) :
    ahead Char_Node.find (new.insert_keys keys).root_ read ch = [] := by
  unfold ahead live
  rw [List.filterMap_filterMap, List.filterMap_eq_nil_iff]
  intro h hh
  rw [List.mem_reverse, List.mem_range] at hh
  rw [← started_concat _ _ read ch h (by omega)]
  unfold started
  rw [List.drop_append_of_le_length (by omega)]
  -- the run would have to spell the beginning of a key, `ch` included
  have hnone : ¬ (run Char_Node.find (new.insert_keys keys).root_ (read.drop h ++ [ch])).isSome := by
    rw [path_insert_keys_new keys (by simp)]
    intro hkey
    obtain ⟨k, hk, hpre⟩ := hkey
    exact hkeys k hk (hpre.subset (by simp))
  rw [Option.not_isSome_iff_eq_none] at hnone
  rw [hnone]
  rfl

/-- **The stepper that looks ahead agrees with the plain one.**  For keys without NUL
    and any text, the calls of `move2` at each character are those of `move`. -/
theorem move2_agrees (keys : List Bytes) (hkeys : ∀ k ∈ keys, NUL ∉ k) (text : Bytes) :
    ((new.insert_keys keys).move2_all 0 text).Perm ((new.insert_keys keys).move_all 0 text) := by
  have hlive : (new.insert_keys keys).Live [] := by
    unfold Live
    rw [insert_keys_match]
    rfl
  have hahead : (new.insert_keys keys).Ahead [] (deref text) := by
    unfold Ahead
    rw [insert_keys_match]
    rfl
  have hmove := move_all_reports text _ [] hlive
  have hmove2 := move2_all_reports text _ [] hahead
  have hperm := ahead_reports_perm Char_Node.find (new.insert_keys keys).root_ Char_Node.matched
    NUL (ahead_nil hkeys) text []
  rw [List.length_nil] at hmove hmove2
  rw [hmove]
  exact hmove2.trans hperm

/-- Keys of length 1, 2 and 3 in the text "abab". -/
theorem move2_agrees_abab :
    ((new.insert_keys [lit "a", lit "ba", lit "aba"]).move2_all 0 (lit "abab")).Perm
      ((new.insert_keys [lit "a", lit "ba", lit "aba"]).move_all 0 (lit "abab")) :=
  move2_agrees [lit "a", lit "ba", lit "aba"] (by decide) (lit "abab")

end Aos.Char_Indexer
