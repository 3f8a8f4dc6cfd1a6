/-
  Aos.Str.CaseFolding — comparing and searching up to letter case.

  `strcasecmp` keeps the difference of two characters in a `signed char`, which
  holds the differences from -128 to 127.  `strncasestr` compares from the places
  alone that have the needle's first byte.

  Main results:
    • `strcasecmp_gap`, `gap_three` — what is kept, and how three strings differ;
    • `strcasecmp_orders_iff` — on which sets of strings `strcasecmp` is an order;
    • `strncasestr_leftmost_iff` — when the match that is found is the leftmost one.
-/
import Aos.Lib.Comparator
import Aos.Lib.Occurrence
import Aos.Str.Compare

namespace Aos

open Lib.Comparator Lib.Occurrence

/-! ## §1. The difference that is kept. -/

/-- The difference of two characters up to letter case. -/
def char_gap (c d : Byte) : Int := tolower (schar c) - tolower (schar d)

/-- The first difference of two strings up to letter case. -/
def gap : Bytes → Bytes → Int
  | [], ct => char_gap NUL (deref ct)
  | c :: cs, ct =>
      if char_gap c (deref ct) ≠ 0 ∨ c = NUL then char_gap c (deref ct) else gap cs ct.tail

section Gap

theorem char_gap_range (c d : Byte) : -255 ≤ char_gap c d ∧ char_gap c d ≤ 255 := by
  have hc := c.toNat_lt
  have hd := d.toNat_lt
  unfold char_gap tolower schar
  split_ifs <;> omega

theorem char_gap_swap (c d : Byte) : char_gap d c = -char_gap c d := by
  unfold char_gap
  omega

theorem char_gap_nul {d : Byte} (h : char_gap NUL d = 0) : d = NUL := by
  rw [← tolower_nul_iff]
  unfold char_gap at h
  omega

/-- The differences at the first characters and at the others. -/
theorem gap_step (a b : Bytes) :
    gap a b = if char_gap (deref a) (deref b) ≠ 0 ∨ deref a = NUL then
      char_gap (deref a) (deref b) else gap a.tail b.tail := by
  cases a with
  | nil => exact (if_pos (Or.inr rfl)).symm
  | cons c a => rfl

/-- The strings go on where their first characters do not differ and are not their ends. -/
theorem gap_tail {a b : Bytes} (h : char_gap (deref a) (deref b) = 0) (hne : deref a ≠ NUL) :
    gap a b = gap a.tail b.tail := by
  rw [gap_step, if_neg fun hor => hor.elim (fun hdiff => hdiff h) hne]

theorem gap_head {a b : Bytes} (h : char_gap (deref a) (deref b) ≠ 0 ∨ deref a = NUL) :
    gap a b = char_gap (deref a) (deref b) := by
  rw [gap_step, if_pos h]

theorem gap_range (a : Bytes) : ∀ b : Bytes, -255 ≤ gap a b ∧ gap a b ≤ 255 := by
  induction a with
  | nil => exact fun b => char_gap_range _ _
  | cons c a ih =>
      intro b
      rw [gap]
      split_ifs
      · exact char_gap_range _ _
      · exact ih b.tail

/-- **What `strcasecmp` returns**: the first difference, kept in a `signed char`. -/
theorem strcasecmp_gap (a : Bytes) : ∀ b : Bytes, strcasecmp a b = (gap a b).bmod (2 ^ 8) := by
  induction a with
  | nil => exact fun b => rfl
  | cons c a ih =>
      intro b
      have hzero : fold_diff c (deref b) ≠ 0 ↔ char_gap c (deref b) ≠ 0 := by
        rw [Ne, fold_diff_eq_zero, char_gap]
        omega
      rw [strcasecmp, gap]
      by_cases hstop : char_gap c (deref b) ≠ 0 ∨ c = NUL
      · rw [if_pos hstop]
        exact if_pos (hstop.imp_left hzero.mpr)
      · rw [if_neg hstop, ← ih b.tail]
        exact if_neg fun h => hstop (h.imp_left hzero.mp)

/-- `strncasecmp` is `strcasecmp` on the prefixes. -/
theorem strncasecmp_prefixes (n : Nat) : ∀ a b : Bytes,
    strncasecmp a b n = strcasecmp (a.take n) (b.take n) := by
  induction n with
  | zero => exact fun _ _ => (by decide : fold_diff NUL NUL = 0).symm
  | succ n ih =>
      intro a b
      cases a with
      | nil =>
          rw [strncasecmp_end [] b n rfl]
          cases b with
          | nil => rfl
          | cons d b => rfl
      | cons c a =>
          cases b with
          | nil =>
              have hrest := ih a []
              rw [List.take_nil] at hrest
              rw [List.take_succ_cons, List.take_nil, strcasecmp, strncasecmp]
              show (if _ then _ else strncasecmp a [] n) = if _ then _ else strcasecmp (a.take n) []
              rw [hrest]
              rfl
          | cons d b =>
              rw [List.take_succ_cons, List.take_succ_cons, strcasecmp, strncasecmp]
              show (if _ then _ else strncasecmp a b n)
                = if _ then _ else strcasecmp (a.take n) (b.take n)
              rw [ih a b]
              rfl

theorem gap_swap (a : Bytes) : ∀ b : Bytes, gap b a = -gap a b := by
  have hend : ∀ {a b : Bytes}, deref a = NUL → gap b a = -gap a b := by
    intro a b ha
    rw [gap_head (Or.inr ha), ← char_gap_swap]
    refine gap_head ?_
    by_cases hdiff : char_gap (deref b) (deref a) = 0
    · rw [char_gap_swap, neg_eq_zero, ha] at hdiff
      exact Or.inr (char_gap_nul hdiff)
    · exact Or.inl hdiff
  induction a with
  | nil => exact fun b => hend rfl
  | cons c a ih =>
      intro b
      by_cases hc : c = NUL
      · exact hend hc
      · by_cases hdiff : char_gap c (deref b) = 0
        · have hswap : char_gap (deref b) c = 0 := by
            rw [char_gap_swap, hdiff]
            rfl
          have hb : deref b ≠ NUL := by
            intro hb
            rw [hb] at hswap
            exact hc (char_gap_nul hswap)
          have htail : gap (c :: a) b = gap a b.tail := gap_tail (a := c :: a) hdiff hc
          have htail' : gap b (c :: a) = gap b.tail a := gap_tail (b := c :: a) hswap hb
          rw [htail, htail', ih b.tail]
        · have hswap : char_gap (deref b) c ≠ 0 := by
            rw [char_gap_swap]
            omega
          have hhead : gap (c :: a) b = char_gap c (deref b) := gap_head (a := c :: a) (Or.inl hdiff)
          have hhead' : gap b (c :: a) = char_gap (deref b) c :=
            gap_head (b := c :: a) (Or.inl hswap)
          rw [hhead, hhead', char_gap_swap]

/-- **How three strings differ**: in the first difference of one pair, in both of them, or the
    first and the last string are alike where both differ from the second one. -/
theorem gap_three (a : Bytes) : ∀ b c : Bytes,
    (gap a c = gap a b ∧ gap a b ≠ 0) ∨ (gap a c = gap b c ∧ gap b c ≠ 0) ∨
      gap a c = gap a b + gap b c ∨ (gap a b + gap b c = 0 ∧ gap a b ≠ 0) := by
  have hadd : ∀ x y z : Byte, char_gap x z = char_gap x y + char_gap y z := by
    intro x y z
    unfold char_gap
    omega
  -- the end of the first string, or a difference of the first two
  have hstop : ∀ {a b c : Bytes}, char_gap (deref a) (deref b) ≠ 0 ∨ deref a = NUL →
      (gap a c = gap a b ∧ gap a b ≠ 0) ∨ (gap a c = gap b c ∧ gap b c ≠ 0) ∨
        gap a c = gap a b + gap b c ∨ (gap a b + gap b c = 0 ∧ gap a b ≠ 0) := by
    intro a b c h
    have hsum := hadd (deref a) (deref b) (deref c)
    have hab := gap_head h
    by_cases hbc : char_gap (deref b) (deref c) ≠ 0 ∨ deref b = NUL
    · rw [hab, gap_head hbc]
      by_cases hac : char_gap (deref a) (deref c) ≠ 0 ∨ deref a = NUL
      · rw [gap_head hac]
        exact Or.inr (Or.inr (Or.inl hsum))
      · rw [not_or, not_not] at hac
        exact Or.inr (Or.inr (Or.inr ⟨by omega, h.resolve_right hac.2⟩))
    · rw [not_or, not_not] at hbc
      have hac : char_gap (deref a) (deref c) ≠ 0 ∨ deref a = NUL :=
        h.imp_left fun hne => by omega
      have hne : char_gap (deref a) (deref b) ≠ 0 := by
        refine h.elim id fun ha hzero => ?_
        rw [ha] at hzero
        exact hbc.2 (char_gap_nul hzero)
      rw [hab, gap_head hac]
      exact Or.inl ⟨by omega, hne⟩
  induction a with
  | nil => exact fun b c => hstop (Or.inr rfl)
  | cons x a ih =>
      intro b c
      by_cases hab : char_gap x (deref b) ≠ 0 ∨ x = NUL
      · exact hstop hab
      · rw [not_or, not_not] at hab
        have hb : deref b ≠ NUL := by
          intro hb
          rw [hb, char_gap_swap, neg_eq_zero] at hab
          exact hab.2 (char_gap_nul hab.1)
        have hsum := hadd x (deref b) (deref c)
        have htail : gap (x :: a) b = gap a b.tail := gap_tail (a := x :: a) hab.1 hab.2
        by_cases hbc : char_gap (deref b) (deref c) = 0
        · have hac : char_gap x (deref c) = 0 := by omega
          have htail' : gap (x :: a) c = gap a c.tail := gap_tail (a := x :: a) hac hab.2
          rw [htail, htail', gap_tail hbc hb]
          exact ih b.tail c.tail
        · have hac : char_gap x (deref c) ≠ 0 := by omega
          have hhead : gap (x :: a) c = char_gap x (deref c) := gap_head (a := x :: a) (Or.inl hac)
          rw [hhead, gap_head (Or.inl hbc)]
          exact Or.inr (Or.inl ⟨by omega, hbc⟩)

end Gap

/-! ## §2. The order. -/

section Order

/-- The sign that is left of a difference. -/
theorem strcasecmp_sign (a b : Bytes) :
    (strcasecmp a b < 0 ↔ (-128 ≤ gap a b ∧ gap a b < 0) ∨ 128 ≤ gap a b) ∧
      (0 < strcasecmp a b ↔ (0 < gap a b ∧ gap a b < 128) ∨ gap a b < -128) := by
  have hrange := gap_range a b
  rw [strcasecmp_gap, Int.bmod_def]
  omega

/-- What is left of a difference is not positive: it is kept and is none itself, or it is kept
    as its opposite. -/
theorem below_of_not_above {d : Int} (hrange : -255 ≤ d ∧ d ≤ 255) (hne : d ≠ 128 ∧ d ≠ -128)
    (h : ¬ ((0 < d ∧ d < 128) ∨ d < -128)) : (-128 < d ∧ d ≤ 0) ∨ 128 < d := by
  omega

/-- `strcasecmp` as a comparator. -/
def strcasecmp_compares (a b : Bytes) : Option Int := some (strcasecmp a b)

/-- No difference in the set is kept as its own opposite, and no two that are kept as they are
    add up to one that is not. -/
structure Narrow (S : Set Bytes) : Prop where
  apart : ∀ x ∈ S, ∀ y ∈ S, gap x y ≠ 128
  sum : ∀ x ∈ S, ∀ y ∈ S, ∀ z ∈ S, -128 < gap x y → gap x y < 0 → -128 < gap y z →
    gap y z < 0 → -128 ≤ gap x z

/-- A difference of the set is not one of those that are kept as their opposite. -/
theorem Narrow.ne {S : Set Bytes} (h : Narrow S) {x y : Bytes} (hx : x ∈ S) (hy : y ∈ S) :
    gap x y ≠ 128 ∧ gap x y ≠ -128 := by
  have hswap := gap_swap x y
  have hother := h.apart y hy x hx
  exact ⟨h.apart x hx y hy, by omega⟩

theorem orders_of_narrow {S : Set Bytes} (h : Narrow S) : Orders strcasecmp_compares S where
  total _ _ _ _ := rfl
  antisymm a ha b hb x y hx hy := by
    obtain rfl := Option.some.inj hx
    obtain rfl := Option.some.inj hy
    have hne := h.ne ha hb
    have hab := strcasecmp_sign a b
    have hba := strcasecmp_sign b a
    rw [gap_swap a b] at hba
    rw [sign_swap_iff, hab.1, hab.2, hba.1, hba.2]
    omega
  trans a ha b hb c hc x y z hx hy hz hx0 hy0 := by
    obtain rfl := Option.some.inj hx
    obtain rfl := Option.some.inj hy
    obtain rfl := Option.some.inj hz
    have hab := strcasecmp_sign a b
    have hbc := strcasecmp_sign b c
    have hac := strcasecmp_sign a c
    rw [← not_lt, hab.2] at hx0
    rw [← not_lt, hbc.2] at hy0
    rw [← not_lt, hac.1, hac.2, hab.1, hbc.1]
    clear hab hbc hac
    have hrange := gap_range a c
    have hne := h.ne ha hc
    have hthree := gap_three a b c
    have hbelow := below_of_not_above (gap_range a b) (h.ne ha hb) hx0
    have hbelow' := below_of_not_above (gap_range b c) (h.ne hb hc) hy0
    clear hx0 hy0
    rcases hbelow with hp | hp
    · rcases hbelow' with hq | hq
      · have hsum := h.sum a ha b hb c hc
        omega
      · -- from the third string round to the first one, and on to the second
        have hsum := h.sum c hc a ha b hb
        rw [gap_swap a c, gap_swap b c] at hsum
        omega
    · rcases hbelow' with hq | hq
      · have hsum := h.sum b hb c hc a ha
        rw [gap_swap a c, gap_swap a b] at hsum
        omega
      · omega

/-- **`strcasecmp` orders a set of strings** exactly where the set is narrow; `strncasecmp`
    always has the sign of `strcasecmp` on the prefixes. -/
theorem strcasecmp_orders_iff (S : Set Bytes) :
    (Orders strcasecmp_compares S ∧ ∀ a ∈ S, ∀ b ∈ S, ∀ n,
        (strncasecmp a b n).sign = (strcasecmp (a.take n) (b.take n)).sign) ↔ Narrow S := by
  constructor
  · rintro ⟨horders, -⟩
    constructor
    · intro x hx y hy heq
      have hsign := horders.antisymm x hx y hy _ _ rfl rfl
      have hxy := strcasecmp_sign x y
      have hyx := strcasecmp_sign y x
      rw [gap_swap x y] at hyx
      rw [sign_swap_iff, hxy.1, hxy.2, hyx.1, hyx.2] at hsign
      omega
    · intro x hx y hy z hz hxy hxy' hyz hyz'
      by_contra hfar
      have hsxy := strcasecmp_sign x y
      have hsyz := strcasecmp_sign y z
      have hsxz := strcasecmp_sign x z
      have htrans := horders.trans x hx y hy z hz _ _ _ rfl rfl rfl (by omega) (by omega)
      omega
  · intro h
    refine ⟨orders_of_narrow h, fun a _ b _ n => ?_⟩
    rw [strncasecmp_prefixes]

/-- The empty string and a byte of value -128: each of them comes before the other. -/
theorem strcasecmp_opposite : ¬ Orders strcasecmp_compares {a | NUL ∉ a} := by
  intro h
  have hsign := h.antisymm [] List.not_mem_nil [0x80] (by decide) _ _ rfl rfl
  exact absurd hsign (by decide)

end Order

/-! ## §3. The search. -/

/-- The loop of `strncasestr`: `len` more places to look at, and the place number `p`. -/
def strncasestr_loop (little : Bytes) (n_little : Nat) : Nat → Nat → Bytes → Option Nat
  | len, p, ptr =>
      if deref ptr = deref little ∧ strncasecmp ptr little n_little = 0 then some p
      else
        match len with
        | 0 => none
        | len + 1 => strncasestr_loop little n_little len (p + 1) ptr.tail

/-- `strncasestr(big, n_big, little, n_little)`, as an offset in `big`. -/
def strncasestr (big : Bytes) (n_big : Nat) (little : Bytes) (n_little : Nat) : Option Nat :=
  if n_little > n_big then none else strncasestr_loop little n_little (n_big - n_little) 0 big

section Search

variable {big little : Bytes}

/-- A place that the loop takes: the needle's first byte, and the needle up to letter case. -/
def Hit (little : Bytes) (n_little : Nat) (ptr : Bytes) : Prop :=
  deref ptr = deref little ∧ strncasecmp ptr little n_little = 0

theorem strncasestr_loop_hit {n_little len p : Nat} {ptr : Bytes} (h : Hit little n_little ptr) :
    strncasestr_loop little n_little len p ptr = some p := by
  cases len with
  | zero => exact if_pos h
  | succ len => exact if_pos h

theorem strncasestr_loop_end {n_little p : Nat} {ptr : Bytes} (h : ¬ Hit little n_little ptr) :
    strncasestr_loop little n_little 0 p ptr = none := if_neg h

theorem strncasestr_loop_next {n_little len p : Nat} {ptr : Bytes}
    (h : ¬ Hit little n_little ptr) :
    strncasestr_loop little n_little (len + 1) p ptr
      = strncasestr_loop little n_little len (p + 1) ptr.tail := if_neg h

/-- **The loop takes the first such place**, or there is none. -/
theorem strncasestr_loop_spec (little : Bytes) (n_little len : Nat) : ∀ (p : Nat) (ptr : Bytes),
    (∃ k ≤ len, strncasestr_loop little n_little len p ptr = some (p + k) ∧
        Hit little n_little (ptr.drop k) ∧ ∀ j < k, ¬ Hit little n_little (ptr.drop j)) ∨
      (strncasestr_loop little n_little len p ptr = none ∧
        ∀ k ≤ len, ¬ Hit little n_little (ptr.drop k)) := by
  induction len with
  | zero =>
      intro p ptr
      by_cases hhit : Hit little n_little ptr
      · rw [strncasestr_loop_hit hhit]
        exact Or.inl ⟨0, le_rfl, rfl, hhit, fun j hj => absurd hj (Nat.not_lt_zero j)⟩
      · rw [strncasestr_loop_end hhit]
        refine Or.inr ⟨rfl, fun k hk => ?_⟩
        rw [Nat.le_zero.mp hk]
        exact hhit
  | succ len ih =>
      intro p ptr
      by_cases hhit : Hit little n_little ptr
      · rw [strncasestr_loop_hit hhit]
        exact Or.inl ⟨0, Nat.zero_le _, rfl, hhit, fun j hj => absurd hj (Nat.not_lt_zero j)⟩
      · rw [strncasestr_loop_next hhit]
        have htail : ∀ k, ptr.tail.drop k = ptr.drop (k + 1) := fun k => List.drop_tail ..
        rcases ih (p + 1) ptr.tail with ⟨k, hk, hloop, hfound, hfirst⟩ | ⟨hloop, hnone⟩
        · refine Or.inl ⟨k + 1, Nat.succ_le_succ hk, ?_, ?_, fun j hj => ?_⟩
          · rw [Nat.add_comm k 1, ← Nat.add_assoc]
            exact hloop
          · rw [← htail]
            exact hfound
          · cases j with
            | zero => exact hhit
            | succ j =>
                rw [← htail]
                exact hfirst j (Nat.lt_of_succ_lt_succ hj)
        · refine Or.inr ⟨hloop, fun k hk => ?_⟩
          cases k with
          | zero => exact hhit
          | succ k =>
              rw [← htail]
              exact hnone k (Nat.le_of_succ_le_succ hk)

/-- The comparison at a place of the haystack. -/
theorem strncasecmp_drop_iff (hbig : NUL ∉ big) (hlittle : NUL ∉ little) (k : Nat) :
    strncasecmp (big.drop k) little little.length = 0 ↔ lower little <+: (lower big).drop k := by
  have hdrop : NUL ∉ big.drop k := fun hm => hbig (List.mem_of_mem_drop hm)
  rw [strncasecmp_begins_iff, Begins, c_str_of_no_nul hdrop, c_str_of_no_nul hlittle]
  have hlower : lower (big.drop k) = (lower big).drop k := List.map_drop ..
  rw [hlower]
  exact and_iff_left fun hm => absurd hm hlittle

/-- **The leftmost match** up to letter case is the one that is found exactly where it begins
    with the needle's first byte itself. -/
theorem strncasestr_leftmost_iff (hbig : NUL ∉ big) (hlittle : NUL ∉ little) (hne : little ≠ []) :
    strncasestr big big.length little little.length = occurrence (lower little) (lower big) ↔
      ∀ p, occurrence (lower little) (lower big) = some p → deref (big.drop p) = deref little := by
  have hlen : ∀ s : Bytes, (lower s).length = s.length := fun s => List.length_map ..
  have hpos := List.length_pos_iff.mpr hne
  cases hocc : occurrence (lower little) (lower big) with
  | none =>
      refine iff_of_true ?_ fun p hp => absurd hp (by simp)
      rw [strncasestr]
      split_ifs
      · rfl
      · rcases strncasestr_loop_spec little little.length (big.length - little.length)
          0 big with ⟨k, hk, -, hhit, -⟩ | ⟨hloop, -⟩
        · refine absurd ((strncasecmp_drop_iff hbig hlittle k).mp hhit.2) ?_
          exact occurrence_none_iff.mp hocc k (by rw [hlen]; omega)
        · exact hloop
  | some p =>
      obtain ⟨-, hpre, hfirst⟩ := occurrence_some_iff.mp hocc
      have hroom := hpre.length_le
      rw [List.length_drop, hlen, hlen] at hroom
      have hmatch := (strncasecmp_drop_iff hbig hlittle p).mpr hpre
      have hbefore : ∀ j < p, ¬ Hit little little.length (big.drop j) := fun j hj hhit =>
        hfirst j hj ((strncasecmp_drop_iff hbig hlittle j).mp hhit.2)
      have honly : (∀ q, some p = some q → deref (big.drop q) = deref little) ↔
          deref (big.drop p) = deref little :=
        ⟨fun h => h p rfl, fun h q hq => Option.some.inj hq ▸ h⟩
      rw [strncasestr, if_neg (by omega), honly]
      rcases strncasestr_loop_spec little little.length (big.length - little.length)
        0 big with ⟨k, hk, hloop, hhit, hleast⟩ | ⟨hloop, hnone⟩
      · rw [hloop, Nat.zero_add, Option.some_inj]
        constructor
        · rintro rfl
          exact hhit.1
        · intro hexact
          have hle := not_lt.mp fun hlt => hleast p hlt ⟨hexact, hmatch⟩
          exact le_antisymm hle (not_lt.mp fun hlt => hbefore k hlt hhit)
      · rw [hloop]
        exact iff_of_false (by simp) fun hexact => hnone p (by omega) ⟨hexact, hmatch⟩

theorem strncasestr_leftmost_name :
    strncasestr (lit "a Name") (lit "a Name").length (lit "NAME") (lit "NAME").length
        = occurrence (lower (lit "NAME")) (lower (lit "a Name")) ↔
      ∀ p, occurrence (lower (lit "NAME")) (lower (lit "a Name")) = some p →
        deref ((lit "a Name").drop p) = deref (lit "NAME") :=
  strncasestr_leftmost_iff (by decide) (by decide) (by decide)

/-- One letter in the other case is not found. -/
theorem strncasestr_letter :
    strncasestr (lit "B") 1 (lit "b") 1 = none ∧
      strncasestr (lit "B") 1 (lit "b") 1 ≠ occurrence (lower (lit "b")) (lower (lit "B")) := by
  decide

end Search

end Aos
