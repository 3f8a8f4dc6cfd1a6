/-
  Aos.Lib.Memory — a memory of cells, counted from 0.

  Main results:
    • `load_append`       — adjacent ranges;
    • `load_store`        — what was stored is loaded;
    • `load_store_before` — the cells in front are what they were.
-/
import Mathlib.Tactic

namespace Lib.Memory

variable {α : Type}

/-- The cells from `a` on. -/
def load (mem : Nat → α) (a n : Nat) : List α := (List.range' a n).map mem

/-- These values are put into the cells from `a` on. -/
def store (mem : Nat → α) (a : Nat) (s : List α) : Nat → α := fun i =>
  if i < a then mem i else (s[i - a]?).getD (mem i)

@[simp] theorem load_length (mem : Nat → α) (a n : Nat) : (load mem a n).length = n := by
  unfold load
  rw [List.length_map, List.length_range']

theorem load_get (mem : Nat → α) (a n : Nat) {k : Nat} (h : k < (load mem a n).length) :
    (load mem a n)[k] = mem (a + k) := by
  simp [load]

/-- Adjacent ranges are one range. -/
theorem load_append (mem : Nat → α) (a m n : Nat) :
    load mem a (m + n) = load mem a m ++ load mem (a + m) n := by
  unfold load
  rw [← List.map_append, List.range'_append_1]

theorem load_drop (mem : Nat → α) (a n k : Nat) :
    (load mem a n).drop k = load mem (a + k) (n - k) := by
  apply List.ext_getElem
  · rw [List.length_drop, load_length, load_length]
  · intro i hi hj
    rw [List.getElem_drop, load_get, load_get, Nat.add_assoc]

/-- A cell outside the range keeps its value. -/
theorem store_outside (mem : Nat → α) (a : Nat) (s : List α) {i : Nat}
    (h : i < a ∨ a + s.length ≤ i) : store mem a s i = mem i := by
  unfold store
  by_cases hi : i < a
  · rw [if_pos hi]
  · rw [if_neg hi, List.getElem?_eq_none (by omega), Option.getD_none]

/-- A cell inside takes what is stored. -/
theorem store_inside (mem : Nat → α) (a : Nat) (s : List α) (k : Nat) (h : k < s.length) :
    store mem a s (a + k) = s.get ⟨k, h⟩ := by
  unfold store
  rw [if_neg (by omega), Nat.add_sub_cancel_left, List.getElem?_eq_getElem h, Option.getD_some]
  rfl

/-- **What was stored is loaded.** -/
theorem load_store (mem : Nat → α) (a : Nat) (s rest : List α) :
    load (store mem a (s ++ rest)) a s.length = s := by
  apply List.ext_getElem
  · exact load_length _ _ _
  · intro k hk hks
    have hlen : k < (s ++ rest).length := by
      rw [List.length_append]
      omega
    have hcell := store_inside mem a (s ++ rest) k hlen
    rw [load_get, hcell]
    exact List.getElem_append_left hks

/-- **The cells in front are what they were.** -/
theorem load_store_before (mem : Nat → α) (a : Nat) (s : List α) {b n : Nat} (h : b + n ≤ a) :
    load (store mem a s) b n = load mem b n := by
  unfold load
  apply List.map_congr_left
  intro i hi
  have hmem := List.mem_range'_1.mp hi
  exact store_outside mem a s (Or.inl (by omega))

end Lib.Memory
