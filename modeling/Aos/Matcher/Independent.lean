/-
  Aos.Matcher.Independent — one matcher, two texts.

  Nothing empties `match_`: the partial matches that are alive at the end of a
  text are there when the next one begins, and `c - head + 1` is then taken of
  pointers into two texts.

  Main results:
    • `move_all_split` — the calls for a text are those of an idle matcher, and
      those of the pending matches;
    • `mem_fed` — what is pending behind a text;
    • `searches_independent_iff` — when an earlier text leaves no trace.
-/
import Aos.Matcher.Search

namespace Aos.Char_Indexer

open Lib.Suffixes

/-! ## §1. Pending matches. -/

/-- The matcher behind a text that starts at `c`. -/
def fed (m : Char_Indexer) (c : Nat) : Bytes → Char_Indexer
  | [] => m
  | ch :: text => fed (m.move c ch).1 (c + 1) text

/-- The calls for partial matches that were there before the text. -/
def stale (c : Nat) : List Result → Bytes → List (Nat × Nat)
  | _, [] => []
  | l, ch :: text => (move_matches c ch l).2 ++ stale (c + 1) (move_matches c ch l).1 text

theorem move_matches_append (c : Nat) (ch : Byte) (l l' : List Result) :
    move_matches c ch (l ++ l')
      = ((move_matches c ch l).1 ++ (move_matches c ch l').1,
         (move_matches c ch l).2 ++ (move_matches c ch l').2) := by
  induction l with
  | nil => rfl
  | cons r l ih =>
      rw [List.cons_append, move_matches, move_matches]
      cases r.curr.find ch with
      | none => exact ih
      | some node =>
          rw [ih]
          simp

/-- The match that begins with the character at `c`. -/
def new_matches (root : Char_Node) (c : Nat) (ch : Byte) : List Result :=
  ((root.find ch).map (fun node => ⟨node, c⟩)).toList

/-- `move`, its early return included. -/
theorem move_eq (root : Char_Node) (l : List Result) (c : Nat) (ch : Byte) :
    move ⟨root, l⟩ c ch
      = (⟨root, new_matches root c ch ++ (move_matches c ch l).1⟩,
         (move_matches c ch l).2 ++ (new_matches root c ch).flatMap (on_match · c)) := by
  unfold move new_matches
  cases hf : root.find ch with
  | some node =>
      rw [if_neg (by simp)]
      simp
  | none =>
      cases l with
      | nil =>
          rw [if_pos (by simp)]
          rfl
      | cons r l =>
          rw [if_neg (by simp)]
          simp

/-- **The calls for a text are those of an idle matcher, and those of the pending
    matches.** -/
theorem move_all_split (root : Char_Node) (text : Bytes) :
    ∀ (l l' : List Result) (c : Nat),
      (move_all ⟨root, l ++ l'⟩ c text).Perm (move_all ⟨root, l⟩ c text ++ stale c l' text) := by
  induction text with
  | nil => intro l l' c; exact List.Perm.refl _
  | cons ch text ih =>
      intro l l' c
      have hrest := ih (new_matches root c ch ++ (move_matches c ch l).1)
        (move_matches c ch l').1 (c + 1)
      rw [List.append_assoc] at hrest
      rw [move_all, move_all, stale, move_eq, move_eq, move_matches_append]
      apply List.Perm.trans (hrest.append_left _)
      -- the calls of this character, then those of the rest
      rw [List.perm_iff_count]
      intro call
      simp only [List.count_append]
      omega

theorem move_matches_calls_nil (c : Nat) (ch : Byte) (l : List Result) :
    (move_matches c ch l).2 = [] ↔
      ∀ r ∈ l, ∀ node, r.curr.find ch = some node → node.matched = false := by
  induction l with
  | nil => simp [move_matches]
  | cons r l ih =>
      rw [move_matches]
      cases hf : r.curr.find ch with
      | none => simp [ih, hf]
      | some node => simp [ih, hf, on_match]

/-- **There are calls for the pending matches exactly when one of them goes on to a
    key.** -/
theorem stale_nil_iff (text : Bytes) :
    ∀ (c : Nat) (l : List Result), stale c l text = [] ↔
      ∀ r ∈ l, ∀ p, p ≠ [] → p <+: text → r.curr.holds p = false := by
  induction text with
  | nil =>
      intro c l
      refine ⟨fun _ r _ p hne hpre => ?_, fun _ => rfl⟩
      exact absurd (List.prefix_nil.mp hpre) hne
  | cons ch text ih =>
      intro c l
      rw [stale, List.append_eq_nil_iff, ih, move_matches_calls_nil]
      constructor
      · intro hboth r hr p hne hpre
        obtain ⟨hnow, hlater⟩ := hboth
        obtain ⟨d, p, rfl⟩ := List.exists_cons_of_ne_nil hne
        obtain ⟨rfl, hpre'⟩ := List.cons_prefix_cons.mp hpre
        rw [Char_Node.holds_cons]
        cases hf : r.curr.find d with
        | none => rfl
        | some node =>
            rw [Option.any_some]
            by_cases hp : p = []
            · rw [hp]
              exact hnow r hr node hf
            · exact hlater { r with curr := node }
                ((mem_move_matches c d l _).mpr ⟨r, hr, node, hf, rfl⟩) p hp hpre'
      · intro hall
        refine ⟨?_, ?_⟩
        · intro r hr node hf
          have hone := hall r hr [ch] (List.cons_ne_nil ch []) ⟨text, rfl⟩
          rw [Char_Node.holds_cons, hf] at hone
          exact hone
        · intro r' hr' p hne hpre
          obtain ⟨r, hr, node, hf, rfl⟩ := (mem_move_matches c ch l r').mp hr'
          have hmore := hall r hr (ch :: p) (List.cons_ne_nil ch p)
            (List.cons_prefix_cons.mpr ⟨rfl, hpre⟩)
          rw [Char_Node.holds_cons, hf] at hmore
          exact hmore

/-! ## §2. What an earlier text leaves behind. -/

/-- **What is pending behind a text has read a suffix of it.** -/
theorem mem_fed (text : Bytes) :
    ∀ (m : Char_Indexer) (c : Nat) (node : Char_Node),
      (∃ r ∈ (m.fed c text).match_, r.curr = node) ↔
        (∃ r ∈ m.match_, run Char_Node.find r.curr text = some node) ∨
        ∃ s, s ≠ [] ∧ s <:+ text ∧ run Char_Node.find m.root_ s = some node := by
  induction text with
  | nil =>
      intro m c node
      simp [fed, List.suffix_nil]
  | cons ch text ih =>
      intro m c node
      rw [fed, ih, move_root]
      constructor
      · intro hor
        cases hor with
        | inl hpending =>
            obtain ⟨r', hr', hrun⟩ := hpending
            cases (mem_move m c ch r').mp hr' with
            | inl hnew =>
                -- the match that began with `ch`
                obtain ⟨child, hf, rfl⟩ := hnew
                refine Or.inr ⟨ch :: text, List.cons_ne_nil ch text, List.suffix_rfl, ?_⟩
                rw [run_cons, hf]
                exact hrun
            | inr hold =>
                obtain ⟨r, hr, child, hf, rfl⟩ := hold
                refine Or.inl ⟨r, hr, ?_⟩
                rw [run_cons, hf]
                exact hrun
        | inr hbegun =>
            obtain ⟨s, hne, hsuf, hrun⟩ := hbegun
            exact Or.inr ⟨s, hne, hsuf.trans (List.suffix_cons ch text), hrun⟩
      · intro hor
        cases hor with
        | inl hpending =>
            obtain ⟨r, hr, hrun⟩ := hpending
            rw [run_cons, Option.bind_eq_some_iff] at hrun
            obtain ⟨child, hf, hrun⟩ := hrun
            exact Or.inl ⟨{ r with curr := child },
              (mem_move m c ch _).mpr (Or.inr ⟨r, hr, child, hf, rfl⟩), hrun⟩
        | inr hbegun =>
            obtain ⟨s, hne, hsuf, hrun⟩ := hbegun
            cases List.suffix_cons_iff.mp hsuf with
            | inl hall =>
                subst hall
                rw [run_cons, Option.bind_eq_some_iff] at hrun
                obtain ⟨child, hf, hrun⟩ := hrun
                exact Or.inl ⟨⟨child, c⟩, (mem_move m c ch _).mpr (Or.inl ⟨child, hf, rfl⟩), hrun⟩
            | inr hsuf => exact Or.inr ⟨s, hne, hsuf, hrun⟩

theorem fed_root (text : Bytes) : ∀ (m : Char_Indexer) (c : Nat), (m.fed c text).root_ = m.root_ := by
  induction text with
  | nil => intro m c; rfl
  | cons ch text ih => intro m c; rw [fed, ih, move_root]

/-- A word that is read in two parts. -/
theorem holds_append (node : Char_Node) (s p : Bytes) :
    node.holds (s ++ p) = (run Char_Node.find node s).any (fun child => child.holds p) := by
  unfold Char_Node.holds accepts
  rw [run_append]
  cases run Char_Node.find node s with
  | none => rfl
  | some child => rfl

/-! ## §3. Two texts. -/

/-- A key begins inside the first text and ends inside the second. -/
def Straddles (keys : List Bytes) (text text' : Bytes) : Prop :=
  ∃ s p, s ≠ [] ∧ p ≠ [] ∧ s <:+ text ∧ p <+: text' ∧ s ++ p ∈ keys

theorem stale_fed_nil_iff (keys : List Bytes) (c c' : Nat) (text text' : Bytes) :
    stale c' ((new.insert_keys keys).fed c text).match_ text' = []
      ↔ ¬ Straddles keys text text' := by
  have hkeep : Holds (new.insert_keys keys) (keys.reverse ++ []) := Holds.insert_keys keys holds_new
  have hkey : ∀ w, (new.insert_keys keys).root_.holds w = true ↔ w ∈ keys := by
    intro w
    rw [hkeep.holds]
    simp
  rw [stale_nil_iff]
  constructor
  · intro hall hstraddles
    obtain ⟨s, p, hs, hp, hsuf, hpre, hmem⟩ := hstraddles
    rw [← hkey, holds_append, Option.any_eq_true] at hmem
    obtain ⟨node, hrun, hholds⟩ := hmem
    obtain ⟨r, hr, rfl⟩ := (mem_fed text (new.insert_keys keys) c node).mpr
      (Or.inr ⟨s, hs, hsuf, hrun⟩)
    rw [hall r hr p hp hpre] at hholds
    exact absurd hholds (by simp)
  · intro hno r hr p hp hpre
    rw [← Bool.not_eq_true]
    intro hholds
    apply hno
    cases (mem_fed text (new.insert_keys keys) c r.curr).mp ⟨r, hr, rfl⟩ with
    | inl hpending =>
        -- a fresh matcher has nothing pending
        obtain ⟨r', hr', _⟩ := hpending
        rw [insert_keys_match] at hr'
        exact absurd hr' List.not_mem_nil
    | inr hbegun =>
        obtain ⟨s, hs, hsuf, hrun⟩ := hbegun
        refine ⟨s, p, hs, hp, hsuf, hpre, ?_⟩
        rw [← hkey, holds_append, hrun]
        exact hholds

/-- **When an earlier text leaves no trace.**  For every set of keys and two texts,
    wherever they lie: the second one is reported as by a fresh matcher exactly when
    no key begins inside the first and ends inside the second.  What is reported
    otherwise is more, whatever `c - head + 1` comes to across the two texts. -/
theorem searches_independent_iff (keys : List Bytes) (c c' : Nat) (text text' : Bytes) :
    (((new.insert_keys keys).fed c text).move_all c' text').Perm
        ((new.insert_keys keys).move_all c' text')
      ↔ ¬ Straddles keys text text' := by
  have hroot : (new.insert_keys keys).fed c text
      = ⟨(new.insert_keys keys).root_, [] ++ ((new.insert_keys keys).fed c text).match_⟩ := by
    rw [← fed_root text (new.insert_keys keys) c]
    rfl
  have hfresh : new.insert_keys keys = ⟨(new.insert_keys keys).root_, []⟩ := by
    show new.insert_keys keys = ⟨(new.insert_keys keys).root_, new.match_⟩
    rw [← insert_keys_match keys new]
  have hsplit := move_all_split (new.insert_keys keys).root_ text' []
    ((new.insert_keys keys).fed c text).match_ c'
  rw [← hroot, ← hfresh] at hsplit
  rw [← stale_fed_nil_iff keys c c' text text']
  constructor
  · intro hperm
    have hlen := (hsplit.symm.trans hperm).length_eq
    rw [List.length_append] at hlen
    exact List.length_eq_zero_iff.mp (by omega)
  · intro hnil
    rw [hnil, List.append_nil] at hsplit
    exact hsplit

/-- The key "ab", the texts "a" and "b": a match is reported where there is none. -/
theorem searches_not_independent :
    ¬ (((new.insert_keys [lit "ab"]).fed 0 (lit "a")).move_all 8 (lit "b")).Perm
        ((new.insert_keys [lit "ab"]).move_all 8 (lit "b")) := by
  intro hperm
  exact absurd hperm.length_eq (by decide +kernel)

end Aos.Char_Indexer
