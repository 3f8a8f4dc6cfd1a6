/-
  Aos.Str.Number — numbers read by `atoi` and written by `snprintf`.

  Main results:
    • `dec_digits` — a printed number is digits only, and at least one;
    • `atoi_digits` — `atoi` reads a run of digits up to the first other byte.
-/
import Aos.Byte
import Mathlib.Data.Nat.Digits.Lemmas

namespace Aos

/-! ## §1. Reading. -/

/-- `::isspace` of the C locale. -/
def isspace (c : Byte) : Bool := c = SP ∨ (9 ≤ c ∧ c ≤ 13)

def isdigit (c : Byte) : Bool := 48 ≤ c ∧ c ≤ 57

/-- The value of a run of digits. -/
def value (s : Bytes) : Nat := s.foldl (fun n c => 10 * n + (c.toNat - 48)) 0

/-- `::atoi`; the C library defines no value for a number that is no `int`. -/
def atoi (s : Bytes) : Option Int :=
  let s := s.dropWhile isspace
  let digits := if s.head? = some 45 ∨ s.head? = some 43 then s.tail else s
  let n : Int := value (digits.takeWhile isdigit)
  let n := if s.head? = some 45 then -n else n
  if -2 ^ 31 ≤ n ∧ n < 2 ^ 31 then some n else none

/-- **`atoi` reads a run of digits up to the first other byte.** -/
theorem atoi_digits (ds rest : Bytes) (hne : ds ≠ []) (hds : ∀ c ∈ ds, isdigit c = true)
    (hrest : ∀ c, rest.head? = some c → isdigit c = false) :
    atoi (ds ++ rest) = if value ds < 2 ^ 31 then some (value ds : Int) else none := by
  obtain ⟨d, ds, rfl⟩ := List.exists_cons_of_ne_nil hne
  have hd := hds d List.mem_cons_self
  have hrange : 48 ≤ d ∧ d ≤ 57 := of_decide_eq_true hd
  have h48 : 48 ≤ d.toNat := hrange.1
  have h57 : d.toNat ≤ 57 := hrange.2
  -- a digit is no white space and no sign
  have hspace : isspace d = false := by
    unfold isspace
    rw [decide_eq_false_iff_not]
    intro hor
    rcases hor with rfl | ⟨_, h13⟩
    · exact absurd h48 (by decide)
    · have h13' : d.toNat ≤ 13 := h13
      omega
  have hsign : ∀ c : Byte, c.toNat < 48 → ((d :: (ds ++ rest)).head? = some c) = False := by
    intro c hc
    rw [List.head?_cons, Option.some.injEq]
    apply eq_false
    intro heq
    rw [heq] at h48
    omega
  have htake : (d :: (ds ++ rest)).takeWhile isdigit = d :: ds := by
    rw [← List.cons_append, List.takeWhile_append_of_pos hds]
    cases rest with
    | nil => simp
    | cons c rest =>
        rw [List.takeWhile_cons, hrest c rfl]
        simp
  unfold atoi
  rw [List.cons_append, List.dropWhile_cons, hspace]
  simp only [Bool.false_eq_true, if_false, hsign 45 (by decide), hsign 43 (by decide), or_self]
  rw [htake]
  by_cases hlt : value (d :: ds) < 2 ^ 31
  · rw [if_pos hlt, if_pos (by omega)]
  · rw [if_neg hlt, if_neg (by omega)]

theorem atoi_range {s : Bytes} {n : Int} (h : atoi s = some n) : -2 ^ 31 ≤ n ∧ n < 2 ^ 31 := by
  unfold atoi at h
  simp only [Option.ite_none_right_eq_some] at h
  obtain ⟨hrange, hsome⟩ := h
  rw [← Option.some.inj hsome]
  exact hrange

/-! ## §2. Writing. -/

/-- The digits of a number, `%d` of a number that is not negative. -/
def dec (n : Nat) : Bytes :=
  if n = 0 then [48] else (Nat.digits 10 n).reverse.map (fun d => 48 + UInt8.ofNat d)

/-- `%d` of any number. -/
def dec_int (i : Int) : Bytes := if i < 0 then 45 :: dec i.natAbs else dec i.toNat

/-- **A printed number is digits only, and at least one.** -/
theorem dec_digits (n : Nat) : dec n ≠ [] ∧ ∀ c ∈ dec n, isdigit c = true := by
  unfold dec
  by_cases h0 : n = 0
  · rw [if_pos h0]
    exact ⟨by simp, by decide +kernel⟩
  · rw [if_neg h0]
    refine ⟨by simp [Nat.digits_ne_nil_iff_ne_zero.mpr h0], ?_⟩
    intro c hc
    obtain ⟨d, hd, rfl⟩ := List.mem_map.mp hc
    have hlt : d < 10 := Nat.digits_lt_base (by omega) (List.mem_reverse.mp hd)
    have hdigit : ∀ d : Fin 10, isdigit (48 + UInt8.ofNat d) = true := by decide
    exact hdigit ⟨d, hlt⟩

theorem value_append (s : Bytes) (c : Byte) : value (s ++ [c]) = 10 * value s + (c.toNat - 48) := by
  unfold value
  rw [List.foldl_append]
  rfl

theorem value_digits (n : Nat) (hn : n ≠ 0) :
    value ((Nat.digits 10 n).reverse.map (fun d => 48 + UInt8.ofNat d)) = n := by
  induction n using Nat.strong_induction_on with
  | _ n ih =>
      have hdigit : ∀ d : Fin 10, (48 + UInt8.ofNat d).toNat - 48 = d.val := by decide
      have hmod : n % 10 < 10 := Nat.mod_lt _ (by omega)
      have hlast : (48 + UInt8.ofNat (n % 10)).toNat - 48 = n % 10 := hdigit ⟨n % 10, hmod⟩
      rw [Nat.digits_def' (by omega) (by omega), List.reverse_cons, List.map_append,
        List.map_singleton, value_append, hlast]
      by_cases hq : n / 10 = 0
      · rw [hq, Nat.digits_zero]
        show 10 * 0 + n % 10 = n
        omega
      · rw [ih (n / 10) (by omega) hq]
        omega

/-- **What is printed is read back.** -/
theorem value_dec (n : Nat) : value (dec n) = n := by
  unfold dec
  by_cases h0 : n = 0
  · subst h0
    rfl
  · rw [if_neg h0]
    exact value_digits n h0

end Aos
