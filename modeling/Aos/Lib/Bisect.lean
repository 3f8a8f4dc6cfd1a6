/-
  Aos.Lib.Bisect — binary search in a sorted array.

  The search asks a probe for each place it looks at: `.eq` when the wanted
  key lies there, `.lt` when it lies before that place, `.gt` when behind it.
  The array's order enters only through `Sorted`, which says that the answers
  change from `.gt` to `.lt` once, with at most one `.eq` between.

  Main results:
    • `bisect_spec`  — the search reports the place of the key, or the place at
      which an absent key has to be put;
    • `bisect_split` — the same of a list: what stands around that place.
-/
import Mathlib.Tactic

namespace Lib.Bisect

/-- Where the search ends. -/
inductive Outcome where
  | hit (mid : Nat)
  | miss (insert : Nat)
  deriving DecidableEq

/-- The loop `while( low <= high )`. -/
def bisect (probe : Nat → Ordering) (low high : Int) : Outcome :=
  if low ≤ high then
    let mid := (low + high) / 2
    match probe mid.toNat with
    | .eq => .hit mid.toNat
    | .lt => bisect probe low (mid - 1)
    | .gt => bisect probe (mid + 1) high
  else .miss low.toNat
termination_by (high + 1 - low).toNat
decreasing_by all_goals omega

/-- The answers an array of `n` increasing keys gives. -/
def Sorted (probe : Nat → Ordering) (n : Nat) : Prop :=
  ∀ i j, i < j → j < n → probe i ≠ .gt → probe j = .lt

/-- What the caller may rely on. -/
def Spec (probe : Nat → Ordering) (n : Nat) : Outcome → Prop
  | .hit i => i < n ∧ probe i = .eq
  | .miss p => p ≤ n ∧ (∀ i < p, probe i = .gt) ∧ (∀ i, p ≤ i → i < n → probe i = .lt)

/-- The loop keeps everything below `low` too small and everything above `high` too large. -/
theorem bisect_loop (probe : Nat → Ordering) (n : Nat) (hs : Sorted probe n) :
    ∀ low high : Int, 0 ≤ low → high < n → low ≤ high + 1 →
      (∀ i : Nat, (i : Int) < low → probe i = .gt) →
      (∀ i : Nat, high < (i : Int) → i < n → probe i = .lt) →
      Spec probe n (bisect probe low high) := by
  intro low high
  fun_induction bisect probe low high with
  | case1 low high hle mid heq =>
      intro h0 hn _ _ _
      exact ⟨by omega, heq⟩
  | case2 low high hle mid hlt ih =>
      -- everything from `mid` on is too large
      intro h0 hn _ hlow hhigh
      apply ih h0 (by omega) (by omega) hlow
      intro i hi hin
      by_cases hmid : i = mid.toNat
      · rw [hmid, hlt]
      · exact hs mid.toNat i (by omega) hin (by rw [hlt]; exact Ordering.noConfusion)
  | case3 low high hle mid hgt ih =>
      -- everything up to `mid` is too small
      intro h0 hn _ hlow hhigh
      refine ih (by omega) hn (by omega) ?_ hhigh
      intro i hi
      by_contra hne
      have hmid : i ≠ mid.toNat := by
        intro h
        exact hne (h ▸ hgt)
      have hlt := hs i mid.toNat (by omega) (by omega) hne
      rw [hgt] at hlt
      exact Ordering.noConfusion hlt
  | case4 low high hle =>
      -- the range is empty, and `low` is the place of insertion
      intro h0 _ _ hlow hhigh
      refine ⟨by omega, ?_, ?_⟩
      · intro i hi
        exact hlow i (by omega)
      · intro i hi hin
        exact hhigh i (by omega) hin

/-- **The search over a sorted array is right.** -/
theorem bisect_spec (probe : Nat → Ordering) (n : Nat) (hs : Sorted probe n) :
    Spec probe n (bisect probe 0 ((n : Int) - 1)) := by
  refine bisect_loop probe n hs 0 ((n : Int) - 1) le_rfl (by omega) (by omega) ?_ ?_
  · intro i hi
    omega
  · intro i hi hin
    omega

/-! ## A list in order. -/

/-- **The search through a list**, of which each element is compared with the wanted key: the
    element that is equal to it and those around it, or those below and those above. -/
theorem bisect_split {α : Type} (cmp : α → Ordering) {cs : List α}
    (hs : cs.Pairwise fun a b => cmp a ≠ .gt → cmp b = .lt) (probe : Nat → Ordering)
    (hp : ∀ i (h : i < cs.length), probe i = cmp cs[i]) :
    (∃ A x B, cs = A ++ x :: B ∧ cmp x = .eq ∧
        bisect probe 0 ((cs.length : Int) - 1) = .hit A.length) ∨
      ∃ A B, cs = A ++ B ∧ (∀ a ∈ A, cmp a = .gt) ∧ (∀ b ∈ B, cmp b = .lt) ∧
        bisect probe 0 ((cs.length : Int) - 1) = .miss A.length := by
  have hsorted : Sorted probe cs.length := by
    intro i j hij hj hi
    rw [hp j hj]
    rw [hp i (by omega)] at hi
    exact List.pairwise_iff_getElem.mp hs i j (by omega) hj hij hi
  have hspec := bisect_spec probe cs.length hsorted
  cases hf : bisect probe 0 ((cs.length : Int) - 1) with
  | hit i =>
      -- the element probed is the one between the two halves
      rw [hf] at hspec
      obtain ⟨hi, heq⟩ := hspec
      rw [hp i hi] at heq
      refine Or.inl ⟨cs.take i, cs[i], cs.drop (i + 1), ?_, heq, ?_⟩
      · rw [List.getElem_cons_drop, List.take_append_drop]
      · rw [List.length_take_of_le (by omega)]
  | miss p =>
      -- the place of insertion separates the smaller from the larger
      rw [hf] at hspec
      obtain ⟨hle, hbelow, habove⟩ := hspec
      refine Or.inr ⟨cs.take p, cs.drop p, (List.take_append_drop _ _).symm, ?_, ?_, ?_⟩
      · intro a ha
        obtain ⟨i, hi, rfl⟩ := List.mem_iff_getElem.mp ha
        rw [List.length_take] at hi
        rw [List.getElem_take, ← hp i (by omega)]
        exact hbelow i (by omega)
      · intro b hb
        obtain ⟨i, hi, rfl⟩ := List.mem_iff_getElem.mp hb
        rw [List.length_drop] at hi
        rw [List.getElem_drop, ← hp (p + i) (by omega)]
        exact habove (p + i) (by omega) (by omega)
      · rw [List.length_take_of_le hle]

end Lib.Bisect
