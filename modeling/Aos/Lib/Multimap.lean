/-
  Aos.Lib.Multimap — an ordered multimap as the list of its entries.

  Main results:
    • `insert_perm`, `eraseValue_perm` — the entries after an insertion, and after
      a value has been erased.
-/
import Mathlib.Tactic

namespace Lib.Multimap

variable {κ α : Type}

/-- The new entry comes behind those with the same key. -/
def insert [LT κ] [DecidableLT κ] (m : List (κ × α)) (k : κ) (a : α) : List (κ × α) :=
  m.takeWhile (fun e => decide (¬ k < e.1)) ++
    (k, a) :: m.dropWhile (fun e => decide (¬ k < e.1))

/-- The first entry with the value is erased. -/
def eraseValue [DecidableEq α] (m : List (κ × α)) (a : α) : List (κ × α) := m.eraseP (fun e => e.2 = a)

theorem insert_perm [LT κ] [DecidableLT κ] (m : List (κ × α)) (k : κ) (a : α) :
    (insert m k a).Perm ((k, a) :: m) := by
  unfold insert
  refine List.perm_middle.trans ?_
  rw [List.takeWhile_append_dropWhile]

theorem eraseValue_perm [DecidableEq α] {m : List (κ × α)} {a : α} (h : a ∈ m.map Prod.snd) :
    ∃ k, m.Perm ((k, a) :: eraseValue m a) := by
  obtain ⟨e, he, ha⟩ := List.mem_map.mp h
  obtain ⟨⟨k, b⟩, before, after, _, hb, hm, herase⟩ :=
    List.exists_of_eraseP (p := fun e => decide (e.2 = a)) he (by simpa using ha)
  obtain rfl : b = a := by simpa using hb
  refine ⟨k, ?_⟩
  rw [eraseValue, herase, hm]
  exact List.perm_middle

/-! ### The values. -/

theorem insert_values [LT κ] [DecidableLT κ] (m : List (κ × α)) (k : κ) (a : α) :
    ((insert m k a).map Prod.snd).Perm (a :: m.map Prod.snd) :=
  (insert_perm m k a).map Prod.snd

theorem eraseValue_values [DecidableEq α] {m : List (κ × α)} {a : α}
    (h : a ∈ m.map Prod.snd) :
    (m.map Prod.snd).Perm (a :: (eraseValue m a).map Prod.snd) := by
  obtain ⟨k, hperm⟩ := eraseValue_perm h
  exact hperm.map Prod.snd

end Lib.Multimap
