/-
  Aos.Lib.Comparator — functions that compare two values and return a number.

  A comparator returns a negative number, zero or a positive one; it may fail to
  return.  Where the sign is that of a comparison in a linear order, the
  comparator orders its arguments.

  Main results:
    • `order_cons`, `order_pair` — how lists and pairs compare;
    • `orders_of_rank` — a comparator that compares ranks is an order.
-/
import Mathlib.Tactic
import Mathlib.Data.List.Lex
import Mathlib.Data.Prod.Lex

namespace Lib.Comparator

/-! ## §1. Comparisons. -/

section Order

variable {κ ι : Type} [LinearOrder κ] [LinearOrder ι]

/-- How two members of a linear order compare. -/
def order (x y : κ) : Ordering := cmp x y

theorem order_lt_iff {x y : κ} : order x y = .lt ↔ x < y := cmp_eq_lt_iff x y

theorem order_gt_iff {x y : κ} : order x y = .gt ↔ y < x := cmp_eq_gt_iff x y

theorem order_eq_iff {x y : κ} : order x y = .eq ↔ x = y := cmp_eq_eq_iff x y

@[simp] theorem order_self (x : κ) : order x x = .eq := cmp_self_eq_eq x

theorem order_swap (x y : κ) : (order x y).swap = order y x := cmp_swap x y

/-- **Lists compare element by element.** -/
theorem order_cons (x y : κ) (xs ys : List κ) :
    order (x :: xs) (y :: ys) = (order x y).then (order xs ys) := by
  rcases lt_trichotomy x y with hlt | rfl | hgt
  · rw [order_lt_iff.mpr hlt, order_lt_iff.mpr (List.cons_lt_cons_iff.mpr (Or.inl hlt))]
    rfl
  · rw [order_self, Ordering.eq_then]
    rcases lt_trichotomy xs ys with hlt | rfl | hgt
    · rw [order_lt_iff.mpr hlt, order_lt_iff.mpr (List.cons_lt_cons_iff.mpr (Or.inr ⟨rfl, hlt⟩))]
    · rw [order_self, order_self]
    · rw [order_gt_iff.mpr hgt, order_gt_iff.mpr (List.cons_lt_cons_iff.mpr (Or.inr ⟨rfl, hgt⟩))]
  · rw [order_gt_iff.mpr hgt, order_gt_iff.mpr (List.cons_lt_cons_iff.mpr (Or.inl hgt))]
    rfl

theorem order_nil_cons (y : κ) (ys : List κ) : order [] (y :: ys) = .lt :=
  order_lt_iff.mpr (List.nil_lt_cons y ys)

theorem order_cons_nil (x : κ) (xs : List κ) : order (x :: xs) [] = .gt :=
  order_gt_iff.mpr (List.nil_lt_cons x xs)

/-- **Pairs compare by their first components, then by the second ones.** -/
theorem order_pair (a c : κ) (b d : ι) :
    order (toLex (a, b)) (toLex (c, d)) = (order a c).then (order b d) := by
  rcases lt_trichotomy a c with hlt | rfl | hgt
  · rw [order_lt_iff.mpr hlt, order_lt_iff.mpr (Prod.Lex.toLex_lt_toLex.mpr (Or.inl hlt))]
    rfl
  · rw [order_self, Ordering.eq_then]
    rcases lt_trichotomy b d with hlt | rfl | hgt
    · have hpair : toLex (a, b) < toLex (a, d) := Prod.Lex.toLex_lt_toLex.mpr (Or.inr ⟨rfl, hlt⟩)
      rw [order_lt_iff.mpr hlt, order_lt_iff.mpr hpair]
    · rw [order_self, order_self]
    · have hpair : toLex (a, d) < toLex (a, b) := Prod.Lex.toLex_lt_toLex.mpr (Or.inr ⟨rfl, hgt⟩)
      rw [order_gt_iff.mpr hgt, order_gt_iff.mpr hpair]
  · rw [order_gt_iff.mpr hgt, order_gt_iff.mpr (Prod.Lex.toLex_lt_toLex.mpr (Or.inl hgt))]
    rfl

end Order

/-! ## §2. Comparators. -/

section Orders

variable {α κ : Type}

/-- The comparator is total, antisymmetric in sign and transitive on `S`. -/
structure Orders (compares : α → α → Option Int) (S : Set α) : Prop where
  total : ∀ a ∈ S, ∀ b ∈ S, (compares a b).isSome
  antisymm : ∀ a ∈ S, ∀ b ∈ S, ∀ x y, compares a b = some x → compares b a = some y →
    x.sign = -y.sign
  trans : ∀ a ∈ S, ∀ b ∈ S, ∀ c ∈ S, ∀ x y z, compares a b = some x → compares b c = some y →
    compares a c = some z → x ≤ 0 → y ≤ 0 → z ≤ 0 ∧ (x < 0 ∨ y < 0 → z < 0)

variable [LinearOrder κ]

/-- The sign of `r` is that of the comparison of `x` and `y`. -/
def Compares (r : Int) (x y : κ) : Prop := order r 0 = order x y

variable {r : Int} {x y : κ}

theorem Compares.lt_iff (h : Compares r x y) : r < 0 ↔ x < y := by
  rw [← order_lt_iff, h, order_lt_iff]

theorem Compares.eq_iff (h : Compares r x y) : r = 0 ↔ x = y := by
  rw [← order_eq_iff, h, order_eq_iff]

theorem Compares.gt_iff (h : Compares r x y) : 0 < r ↔ y < x := by
  rw [← order_gt_iff, h, order_gt_iff]

theorem Compares.le_iff (h : Compares r x y) : r ≤ 0 ↔ x ≤ y := by
  rw [← not_lt, h.gt_iff, not_lt]

/-- Two numbers of opposite signs. -/
theorem sign_swap_iff (x y : Int) :
    x.sign = -y.sign ↔ (x < 0 ↔ 0 < y) ∧ (0 < x ↔ y < 0) := by
  constructor
  · intro h
    constructor
    · rw [← Int.sign_eq_neg_one_iff_neg, ← Int.sign_eq_one_iff_pos, h, neg_inj]
    · rw [← Int.sign_eq_one_iff_pos, ← Int.sign_eq_neg_one_iff_neg, h, neg_eq_iff_eq_neg]
  · rintro ⟨hneg, hpos⟩
    rcases lt_trichotomy x 0 with hx | hx | hx
    · rw [Int.sign_eq_neg_one_of_neg hx, Int.sign_eq_one_of_pos (hneg.mp hx)]
    · have hy : y = 0 := by omega
      rw [hx, hy]
      rfl
    · rw [Int.sign_eq_one_of_pos hx, Int.sign_eq_neg_one_of_neg (hpos.mp hx)]
      rfl

theorem Compares.sign_swap {s : Int} (h : Compares r x y) (h' : Compares s y x) :
    r.sign = -s.sign := by
  rw [sign_swap_iff, h.lt_iff, h'.gt_iff, h.gt_iff, h'.lt_iff]
  exact ⟨Iff.rfl, Iff.rfl⟩

/-- **A comparator that compares ranks is an order**, where it returns. -/
theorem orders_of_rank {compares : α → α → Option Int} {S : Set α} (rank : α → κ)
    (htotal : ∀ a ∈ S, ∀ b ∈ S, (compares a b).isSome)
    (hrank : ∀ a ∈ S, ∀ b ∈ S, ∀ r, compares a b = some r → Compares r (rank a) (rank b)) :
    Orders compares S where
  total := htotal
  antisymm a ha b hb x y hx hy := (hrank a ha b hb x hx).sign_swap (hrank b hb a ha y hy)
  trans a ha b hb c hc x y z hx hy hz hx0 hy0 := by
    have hab := hrank a ha b hb x hx
    have hbc := hrank b hb c hc y hy
    have hac := hrank a ha c hc z hz
    have hle := hab.le_iff.mp hx0
    have hle' := hbc.le_iff.mp hy0
    refine ⟨hac.le_iff.mpr (hle.trans hle'), fun hlt => hac.lt_iff.mpr ?_⟩
    rcases hlt with hlt | hlt
    · exact lt_of_lt_of_le (hab.lt_iff.mp hlt) hle'
    · exact lt_of_le_of_lt hle (hbc.lt_iff.mp hlt)

end Orders

end Lib.Comparator
