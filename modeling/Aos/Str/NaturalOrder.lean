/-
  Aos.Str.NaturalOrder — `strnatcmp` and `strcasenatcmp`.

  White space is skipped; runs of digits compare as numbers, or digit by digit
  where one of them begins with a zero; every other byte compares as a `char`.
  Strings that are alike so far compare byte by byte.  Two `int`s count the bytes
  that have been read.

  Main results:
    • `strnatcmp_rank` — the comparison is that of the strings' ranks;
    • `strcasenatcmp_orders_iff` — it orders a set of strings exactly when an `int`
      counts the bytes of each;
    • `strnatcmp_case_iff` — when it takes two strings that differ in case only
      for the same.
-/
import Aos.Lib.Comparator
import Aos.Str.Compare
import Aos.Str.Number

namespace Aos

open Lib.Comparator

/-! ## §1. The comparison. -/

/-- `::strcmp` -/
def strcmp : Bytes → Bytes → Int
  | [], ct => NUL.toNat - (deref ct).toNat
  | c :: cs, ct =>
      if c ≠ deref ct then c.toNat - (deref ct).toNat
      else if c = NUL then 0
      else strcmp cs ct.tail

/-- `nat_cmp_right_(a, b)`; the longer run wins, and `bias` is the first difference. -/
def nat_cmp_right_ (bias : Int) : Bytes → Bytes → Int
  | [], b => if isdigit (deref b) then -1 else bias
  | x :: a, b =>
      if ¬ isdigit x ∧ ¬ isdigit (deref b) then bias
      else if ¬ isdigit x then -1
      else if ¬ isdigit (deref b) then 1
      else
        nat_cmp_right_
          (if schar x < schar (deref b) then if bias = 0 then -1 else bias
            else if schar x > schar (deref b) then if bias = 0 then 1 else bias
            else bias) a b.tail

/-- `nat_cmp_left_(a, b)`; the first difference wins. -/
def nat_cmp_left_ : Bytes → Bytes → Int
  | [], b => if isdigit (deref b) then -1 else 0
  | x :: a, b =>
      if ¬ isdigit x ∧ ¬ isdigit (deref b) then 0
      else if ¬ isdigit x then -1
      else if ¬ isdigit (deref b) then 1
      else if schar x < schar (deref b) then -1
      else if schar x > schar (deref b) then 1
      else nat_cmp_left_ a b.tail

/-- `while( isspace(ca) ) ca = a[++ai]`; the string is the one from `ai` on. -/
def skip_spaces (ai : Int) : Bytes → Option (Int × Bytes)
  | [] => some (ai, [])
  | c :: a => if isspace c then (int_add ai 1).bind fun ai' => skip_spaces ai' a
      else some (ai, c :: a)

theorem skip_spaces_eq {ai ai' : Int} {a a' : Bytes} (h : skip_spaces ai a = some (ai', a')) :
    a' = a.dropWhile isspace ∧ ai' + a'.length = ai + a.length := by
  induction a generalizing ai with
  | nil =>
      obtain ⟨rfl, rfl⟩ := Prod.mk.inj (Option.some.inj h)
      exact ⟨rfl, rfl⟩
  | cons c a ih =>
      rw [skip_spaces] at h
      by_cases hc : isspace c = true
      · rw [if_pos hc, Option.bind_eq_some_iff] at h
        obtain ⟨k, hk, hskip⟩ := h
        unfold int_add at hk
        split_ifs at hk
        obtain rfl := Option.some.inj hk
        obtain ⟨ha, hlen⟩ := ih hskip
        rw [List.dropWhile_cons_of_pos hc, List.length_cons]
        exact ⟨ha, by omega⟩
      · rw [if_neg hc] at h
        obtain ⟨rfl, rfl⟩ := Prod.mk.inj (Option.some.inj h)
        rw [List.dropWhile_cons_of_neg hc]
        exact ⟨rfl, rfl⟩

theorem skip_spaces_length {ai ai' : Int} {a a' : Bytes} (h : skip_spaces ai a = some (ai', a')) :
    a'.length ≤ a.length := by
  rw [(skip_spaces_eq h).1]
  exact (List.dropWhile_sublist isspace).length_le

section Natcmp

variable (fold_case : Bool)

/-- `ca = tolower(ca)`, where the case is folded. -/
def fold_char (c : Byte) : Int := if fold_case then tolower (schar c) else schar c

/-- The comparison of two runs of digits, as far as there are two. -/
def nat_cmp_runs (a b : Bytes) : Int :=
  if isdigit (deref a) ∧ isdigit (deref b) then
    -- a zero in front makes the runs fractions
    if deref a = 48 ∨ deref b = 48 then nat_cmp_left_ a b else nat_cmp_right_ 0 a b
  else 0

theorem tails_shorter {a b : Bytes} (h : ¬ (deref a = NUL ∧ deref b = NUL)) :
    a.tail.length + b.tail.length < a.length + b.length := by
  rw [List.length_tail, List.length_tail]
  cases a with
  | nil =>
      cases b with
      | nil => exact absurd ⟨rfl, rfl⟩ h
      | cons d b => simp
  | cons c a =>
      rw [List.length_cons]
      omega

/-- The loop of `strnatcmp_(a, b, fold_case)`, from the bytes number `ai` and `bi` on; there
    is no result where one of these numbers overflows. -/
def strnatcmp_loop (str_a str_b : Bytes) (ai bi : Int) (a b : Bytes) : Option Int :=
  match _ha : skip_spaces ai a, _hb : skip_spaces bi b with
  | some (ai', a'), some (bi', b') =>
      if nat_cmp_runs a' b' ≠ 0 then some (nat_cmp_runs a' b')
      else if _hend : deref a' = NUL ∧ deref b' = NUL then
        -- nothing told the strings apart: one function is left to do it, and it sees letter
        -- case where the case is folded
        some (if fold_case then strcmp str_a str_b else strcasecmp str_a str_b)
      else if fold_char fold_case (deref a') < fold_char fold_case (deref b') then some (-1)
      else if fold_char fold_case (deref a') > fold_char fold_case (deref b') then some 1
      else
        (int_add ai' 1).bind fun ai'' => (int_add bi' 1).bind fun bi'' =>
          strnatcmp_loop str_a str_b ai'' bi'' a'.tail b'.tail
  | _, _ => none
termination_by a.length + b.length
decreasing_by
  have hshort := tails_shorter _hend
  have hle := skip_spaces_length _ha
  have hle' := skip_spaces_length _hb
  omega

/-- `strnatcmp_(a, b, fold_case)` -/
def strnatcmp_ (a b : Bytes) : Option Int := strnatcmp_loop fold_case a b 0 0 a b

end Natcmp

/-- `strnatcmp(a, b)` -/
def strnatcmp (a b : Bytes) : Option Int := strnatcmp_ false a b

/-- `strcasenatcmp(a, b)` -/
def strcasenatcmp (a b : Bytes) : Option Int := strnatcmp_ true a b

/-! ## §2. Tokens. -/

/-- The digits a string begins with. -/
def digits (a : Bytes) : List Int := (a.takeWhile isdigit).map schar

/-- What a string begins with: a run of digits, a number that has its length in front, or a
    character. -/
def token (fold_case : Bool) (a : Bytes) : List Int :=
  if isdigit (deref a) then
    if deref a = 48 then 48 :: digits a else 49 :: (digits a).length :: digits a
  else [fold_char fold_case (deref a)]

/-- The tokens of a string, from each byte on that is no white space. -/
def key (fold_case : Bool) : Bytes → List (List Int)
  | [] => [[0]]
  | c :: a => if isspace c then key fold_case a else token fold_case (c :: a) :: key fold_case a

section Tokens

theorem isdigit_iff (c : Byte) : isdigit c = true ↔ 48 ≤ c.toNat ∧ c.toNat ≤ 57 := by
  rw [isdigit, decide_eq_true_iff]
  exact and_congr UInt8.le_iff_toNat_le UInt8.le_iff_toNat_le

theorem digits_of_digit {a : Bytes} (h : isdigit (deref a) = true) :
    digits a = schar (deref a) :: digits a.tail := by
  cases a with
  | nil => exact absurd h (by decide)
  | cons c a =>
      have hc : isdigit c = true := h
      rw [digits, List.takeWhile_cons_of_pos hc]
      rfl

theorem digits_of_other {a : Bytes} (h : isdigit (deref a) = false) : digits a = [] := by
  cases a with
  | nil => rfl
  | cons c a =>
      have hc : ¬ isdigit c = true := by
        rw [Bool.not_eq_true]
        exact h
      rw [digits, List.takeWhile_cons_of_neg hc]
      rfl

theorem schar_inj {c d : Byte} (h : schar c = schar d) : c = d := by
  have hc := c.toNat_lt
  have hd := d.toNat_lt
  unfold schar at h
  refine UInt8.toNat_inj.mp ?_
  split_ifs at h <;> omega

theorem order_neg_one : order (-1 : Int) 0 = .lt := order_lt_iff.mpr (by decide)

theorem order_one : order (1 : Int) 0 = .gt := order_gt_iff.mpr (by decide)

/-- The first difference is kept. -/
theorem order_bias (bias x y : Int) :
    order (if x < y then if bias = 0 then -1 else bias
      else if x > y then if bias = 0 then 1 else bias else bias) 0
      = (order bias 0).then (order x y) := by
  by_cases h0 : bias = 0
  · rw [h0, order_self, Ordering.eq_then, if_pos rfl, if_pos rfl]
    rcases lt_trichotomy x y with hlt | rfl | hgt
    · rw [if_pos hlt, order_lt_iff.mpr hlt]
      exact order_neg_one
    · rw [if_neg (lt_irrefl _), if_neg (lt_irrefl _), order_self, order_self]
    · rw [if_neg (not_lt.mpr hgt.le), if_pos hgt, order_gt_iff.mpr hgt]
      exact order_one
  · rw [if_neg h0, if_neg h0, ite_self, ite_self]
    rcases lt_or_gt_of_ne h0 with hneg | hpos
    · rw [order_lt_iff.mpr hneg]
      rfl
    · rw [order_gt_iff.mpr hpos]
      rfl

/-- The left-aligned comparison is that of the digits. -/
theorem nat_cmp_left_order (a : Bytes) : ∀ b : Bytes,
    Compares (nat_cmp_left_ a b) (digits a) (digits b) := by
  induction a with
  | nil =>
      intro b
      rw [nat_cmp_left_]
      cases hb : isdigit (deref b) with
      | true =>
          rw [digits_of_digit hb]
          exact order_neg_one.trans (order_nil_cons _ _).symm
      | false =>
          rw [digits_of_other hb]
          exact rfl
  | cons x a ih =>
      intro b
      rw [nat_cmp_left_]
      cases hx : isdigit x with
      | false =>
          rw [digits_of_other (a := x :: a) hx]
          cases hb : isdigit (deref b) with
          | true =>
              rw [digits_of_digit hb]
              exact order_neg_one.trans (order_nil_cons _ _).symm
          | false =>
              rw [digits_of_other hb]
              exact rfl
      | true =>
          rw [digits_of_digit (a := x :: a) hx]
          cases hb : isdigit (deref b) with
          | false =>
              rw [digits_of_other hb]
              exact order_one.trans (order_cons_nil _ _).symm
          | true =>
              rw [digits_of_digit hb, Compares, order_cons]
              show order (if schar x < schar (deref b) then (-1 : Int)
                else if schar x > schar (deref b) then 1 else nat_cmp_left_ a b.tail) 0
                  = (order (schar x) (schar (deref b))).then (order (digits a) (digits b.tail))
              rcases lt_trichotomy (schar x) (schar (deref b)) with hlt | heq | hgt
              · rw [if_pos hlt, order_lt_iff.mpr hlt]
                exact order_neg_one
              · rw [heq, if_neg (lt_irrefl _), if_neg (lt_irrefl _), order_self, Ordering.eq_then]
                exact ih b.tail
              · rw [if_neg (not_lt.mpr hgt.le), if_pos hgt, order_gt_iff.mpr hgt]
                exact order_one

/-- The right-aligned comparison is that of the lengths, of what is found so far, and of the
    digits. -/
theorem nat_cmp_right_order (a : Bytes) : ∀ (b : Bytes) (bias : Int),
    order (nat_cmp_right_ bias a b) 0
      = (order ((digits a).length : Int) (digits b).length).then
          ((order bias 0).then (order (digits a) (digits b))) := by
  induction a with
  | nil =>
      intro b bias
      rw [nat_cmp_right_]
      cases hb : isdigit (deref b) with
      | true =>
          have hlt : ((digits []).length : Int) < (digits b).length := by
            rw [digits_of_digit hb, List.length_cons]
            exact Int.natCast_pos.mpr (Nat.succ_pos _)
          rw [order_lt_iff.mpr hlt]
          exact order_neg_one
      | false =>
          rw [digits_of_other hb]
          exact (Ordering.then_eq).symm
  | cons x a ih =>
      intro b bias
      rw [nat_cmp_right_]
      cases hx : isdigit x with
      | false =>
          rw [digits_of_other (a := x :: a) hx]
          cases hb : isdigit (deref b) with
          | true =>
              have hlt : (([] : List Int).length : Int) < (digits b).length := by
                rw [digits_of_digit hb, List.length_cons]
                exact Int.natCast_pos.mpr (Nat.succ_pos _)
              rw [order_lt_iff.mpr hlt]
              exact order_neg_one
          | false =>
              rw [digits_of_other hb]
              exact (Ordering.then_eq).symm
      | true =>
          rw [digits_of_digit (a := x :: a) hx]
          cases hb : isdigit (deref b) with
          | false =>
              have hgt : (([] : List Int).length : Int)
                  < (schar (deref (x :: a)) :: digits (x :: a).tail).length :=
                Int.natCast_pos.mpr (Nat.succ_pos _)
              rw [digits_of_other hb, order_gt_iff.mpr hgt]
              exact order_one
          | true =>
              have hlen : order ((schar (deref (x :: a)) :: digits (x :: a).tail).length : Int)
                  (schar (deref b) :: digits b.tail).length
                    = order ((digits a).length : Int) (digits b.tail).length := by
                rw [List.length_cons, List.length_cons, Nat.cast_succ, Nat.cast_succ]
                exact cmp_add_right _ _ _
              rw [digits_of_digit hb, hlen, order_cons, ← Ordering.then_assoc (order bias 0)]
              show order (nat_cmp_right_ _ a b.tail) 0 = _
              rw [ih b.tail, order_bias]
              rfl

variable {fold_case : Bool} {a b : Bytes}

/-- A digit is its own lower case, and no other character has a digit for its own. -/
theorem fold_char_digit_iff (fold_case : Bool) (c : Byte) :
    (48 ≤ fold_char fold_case c ∧ fold_char fold_case c ≤ 57) ↔ isdigit c = true := by
  have hlt := c.toNat_lt
  rw [isdigit_iff]
  unfold fold_char tolower schar
  split_ifs <;> omega

theorem token_of_digit (ha : isdigit (deref a) = true) :
    token fold_case a
      = if deref a = 48 then 48 :: digits a else 49 :: (digits a).length :: digits a := if_pos ha

theorem token_of_other (ha : isdigit (deref a) = false) :
    token fold_case a = [fold_char fold_case (deref a)] := by
  rw [token, ha]
  exact if_neg Bool.false_ne_true

/-- **Two runs of digits compare** as their tokens do. -/
theorem nat_cmp_runs_order (ha : isdigit (deref a) = true) (hb : isdigit (deref b) = true) :
    Compares (nat_cmp_runs a b) (token fold_case a) (token fold_case b) := by
  have hzero : ∀ {s : Bytes}, isdigit (deref s) = true → deref s = 48 → schar (deref s) = 48 := by
    intro s _ h
    rw [h]
    decide
  have hother : ∀ {s : Bytes}, isdigit (deref s) = true → deref s ≠ 48 → 48 < schar (deref s) := by
    intro s hs h
    have hrange := (isdigit_iff _).mp hs
    have hne : (deref s).toNat ≠ 48 := fun heq => h (UInt8.toNat_inj.mp heq)
    unfold schar
    split_ifs <;> omega
  have h48 : (48 : Int) < 49 := by decide
  rw [nat_cmp_runs, if_pos ⟨ha, hb⟩, token_of_digit ha, token_of_digit hb, Compares]
  by_cases ha0 : deref a = 48
  · rw [if_pos (Or.inl ha0), if_pos ha0, nat_cmp_left_order a b]
    by_cases hb0 : deref b = 48
    · rw [if_pos hb0, order_cons 48, order_self, Ordering.eq_then]
    · rw [if_neg hb0, order_cons, digits_of_digit ha, digits_of_digit hb, order_cons,
        order_lt_iff.mpr h48, hzero ha ha0, order_lt_iff.mpr (hother hb hb0)]
      rfl
  · rw [if_neg ha0]
    by_cases hb0 : deref b = 48
    · rw [if_pos (Or.inr hb0), if_pos hb0, nat_cmp_left_order a b, order_cons, digits_of_digit ha,
        digits_of_digit hb, order_cons, order_gt_iff.mpr h48, hzero hb hb0,
        order_gt_iff.mpr (hother ha ha0)]
      rfl
    · rw [if_neg (fun h => h.elim ha0 hb0), if_neg hb0, nat_cmp_right_order, order_self,
        Ordering.eq_then, order_cons 49, order_self, Ordering.eq_then, order_cons]

/-- A run of digits and a character. -/
theorem token_order_run (ha : isdigit (deref a) = true) (hb : isdigit (deref b) = false) :
    order (token fold_case a) (token fold_case b)
      = order (fold_char fold_case (deref a)) (fold_char fold_case (deref b)) := by
  -- the first number of the run lies where the digits are, and the character does not
  obtain ⟨x, xs, htoken, h48, h57⟩ : ∃ x xs, token fold_case a = x :: xs ∧ 48 ≤ x ∧ x ≤ 57 := by
    rw [token_of_digit ha]
    split_ifs
    · exact ⟨48, _, rfl, by decide, by decide⟩
    · exact ⟨49, _, rfl, by decide, by decide⟩
  have hin := (fold_char_digit_iff fold_case (deref a)).mpr ha
  have hout : ¬ (48 ≤ fold_char fold_case (deref b) ∧ fold_char fold_case (deref b) ≤ 57) := by
    rw [fold_char_digit_iff, hb]
    exact Bool.false_ne_true
  rw [htoken, token_of_other hb, order_cons]
  by_cases hlow : fold_char fold_case (deref b) < 48
  · rw [order_gt_iff.mpr (by omega : fold_char fold_case (deref b) < x),
      order_gt_iff.mpr (by omega : fold_char fold_case (deref b) < fold_char fold_case (deref a))]
    rfl
  · rw [order_lt_iff.mpr (by omega : x < fold_char fold_case (deref b)),
      order_lt_iff.mpr (by omega : fold_char fold_case (deref a) < fold_char fold_case (deref b))]
    rfl

/-- **Other tokens compare** as their first characters do. -/
theorem token_order (h : ¬ (isdigit (deref a) = true ∧ isdigit (deref b) = true)) :
    order (token fold_case a) (token fold_case b)
      = order (fold_char fold_case (deref a)) (fold_char fold_case (deref b)) := by
  cases ha : isdigit (deref a) with
  | false =>
      cases hb : isdigit (deref b) with
      | false => rw [token_of_other ha, token_of_other hb, order_cons, order_self, Ordering.then_eq]
      | true =>
          rw [← order_swap, token_order_run hb ha, order_swap]
  | true => exact token_order_run ha (by simpa [ha] using h)

/-- Where the runs do not differ, the tokens compare as their first characters do. -/
theorem token_order_of_runs (h : nat_cmp_runs a b = 0) :
    order (token fold_case a) (token fold_case b)
      = order (fold_char fold_case (deref a)) (fold_char fold_case (deref b)) := by
  by_cases hboth : isdigit (deref a) = true ∧ isdigit (deref b) = true
  · obtain ⟨ha, hb⟩ := hboth
    have horder : Compares (nat_cmp_runs a b) (token fold_case a) (token fold_case b) :=
      nat_cmp_runs_order ha hb
    have heq := horder.eq_iff.mp h
    have hchar : deref a = deref b := by
      rw [token_of_digit ha, token_of_digit hb] at heq
      split_ifs at heq with ha0 hb0
      · rw [ha0, hb0]
      · exact absurd (List.cons.inj heq).1 (by decide)
      · exact absurd (List.cons.inj heq).1 (by decide)
      · have hdigits := (List.cons.inj (List.cons.inj heq).2).2
        rw [digits_of_digit ha, digits_of_digit hb] at hdigits
        exact schar_inj (List.cons.inj hdigits).1
    rw [heq, hchar, order_self, order_self]
  · exact token_order hboth

end Tokens

/-! ## §3. The loop. -/

section Loop

variable {fold_case : Bool} {str_a str_b : Bytes}

/-- What is left of the key behind its first token. -/
def key_tail (fold_case : Bool) : Bytes → List (List Int)
  | [] => []
  | _ :: a => key fold_case a

theorem key_skip (a : Bytes) :
    key fold_case a = token fold_case (a.dropWhile isspace)
      :: key_tail fold_case (a.dropWhile isspace) := by
  induction a with
  | nil =>
      cases fold_case with
      | true => rfl
      | false => rfl
  | cons c a ih =>
      rw [key]
      by_cases hc : isspace c = true
      · rw [if_pos hc, ih, List.dropWhile_cons_of_pos hc]
      · rw [if_neg hc, List.dropWhile_cons_of_neg hc]
        rfl

theorem strnatcmp_loop_step {ai bi ai' bi' : Int} {a b a' b' : Bytes}
    (ha : skip_spaces ai a = some (ai', a')) (hb : skip_spaces bi b = some (bi', b')) :
    strnatcmp_loop fold_case str_a str_b ai bi a b =
      if nat_cmp_runs a' b' ≠ 0 then some (nat_cmp_runs a' b')
      else if deref a' = NUL ∧ deref b' = NUL then
        some (if fold_case then strcmp str_a str_b else strcasecmp str_a str_b)
      else if fold_char fold_case (deref a') < fold_char fold_case (deref b') then some (-1)
      else if fold_char fold_case (deref a') > fold_char fold_case (deref b') then some 1
      else
        (int_add ai' 1).bind fun ai'' => (int_add bi' 1).bind fun bi'' =>
          strnatcmp_loop fold_case str_a str_b ai'' bi'' a'.tail b'.tail := by
  rw [strnatcmp_loop]
  split
  · next p q h h' =>
      obtain ⟨rfl, rfl⟩ := Prod.mk.inj (Option.some.inj (ha.symm.trans h))
      obtain ⟨rfl, rfl⟩ := Prod.mk.inj (Option.some.inj (hb.symm.trans h'))
      rfl
  · next hnot => exact absurd hb (hnot _ _ _ _ ha)

theorem strnatcmp_loop_none {ai bi : Int} {a b : Bytes}
    (h : skip_spaces ai a = none ∨ skip_spaces bi b = none) :
    strnatcmp_loop fold_case str_a str_b ai bi a b = none := by
  rw [strnatcmp_loop]
  split
  · next h' h'' => rcases h with h | h
                   · exact absurd (h.symm.trans h') (by simp)
                   · exact absurd (h.symm.trans h'') (by simp)
  · rfl

theorem fold_char_eq_nul_iff (c : Byte) :
    fold_char fold_case c = fold_char fold_case NUL ↔ c = NUL := by
  cases fold_case with
  | true => exact tolower_nul_iff c
  | false =>
      constructor
      · exact fun h => schar_inj h
      · exact fun h => congrArg _ h

theorem deref_nul_iff {a : Bytes} (h : NUL ∉ a) : deref a = NUL ↔ a = [] := by
  cases a with
  | nil => exact iff_of_true rfl rfl
  | cons c a =>
      refine iff_of_false (fun hc => ?_) (List.cons_ne_nil c a)
      have hc' : c = NUL := hc
      exact h (hc' ▸ List.mem_cons_self)

theorem key_tail_eq {a : Bytes} (h : a ≠ []) : key_tail fold_case a = key fold_case a.tail := by
  cases a with
  | nil => exact absurd rfl h
  | cons c a => rfl

/-- What decides between strings with one key. -/
def tie (fold_case : Bool) (a b : Bytes) : Int :=
  if fold_case then strcmp a b else strcasecmp a b

/-- The texts behind the white space, without a NUL in them. -/
structure Skipped (ai bi ai' bi' : Int) (a b a' b' : Bytes) : Prop where
  skip : skip_spaces ai a = some (ai', a')
  skip' : skip_spaces bi b = some (bi', b')
  free : NUL ∉ a'
  free' : NUL ∉ b'

theorem Skipped.mk' {ai bi ai' bi' : Int} {a b a' b' : Bytes} (hnul : NUL ∉ a) (hnul' : NUL ∉ b)
    (h : skip_spaces ai a = some (ai', a')) (h' : skip_spaces bi b = some (bi', b')) :
    Skipped ai bi ai' bi' a b a' b' where
  skip := h
  skip' := h'
  free hm := hnul ((List.dropWhile_sublist isspace).subset ((skip_spaces_eq h).1 ▸ hm))
  free' hm := hnul' ((List.dropWhile_sublist isspace).subset ((skip_spaces_eq h').1 ▸ hm))

/-- **What a pass of the loop does**: it has found two numbers, two characters or two ends
    that decide, or it goes on with the next bytes. -/
theorem strnatcmp_loop_cases (fold_case : Bool) (str_a str_b : Bytes) {ai bi ai' bi' : Int}
    {a b a' b' : Bytes} (h : Skipped ai bi ai' bi' a b a' b') :
    let loop := strnatcmp_loop fold_case str_a str_b ai bi a b
    let ca := fold_char fold_case (deref a')
    let cb := fold_char fold_case (deref b')
    (nat_cmp_runs a' b' ≠ 0 ∧ loop = some (nat_cmp_runs a' b')) ∨
      (a' = [] ∧ b' = [] ∧ loop = some (tie fold_case str_a str_b)) ∨
      (nat_cmp_runs a' b' = 0 ∧ ca < cb ∧ loop = some (-1)) ∨
      (nat_cmp_runs a' b' = 0 ∧ cb < ca ∧ loop = some 1) ∨
      (nat_cmp_runs a' b' = 0 ∧ ca = cb ∧ a' ≠ [] ∧ b' ≠ [] ∧
        a'.tail.length + b'.tail.length < a.length + b.length ∧
        loop = (int_add ai' 1).bind fun ai'' => (int_add bi' 1).bind fun bi'' =>
          strnatcmp_loop fold_case str_a str_b ai'' bi'' a'.tail b'.tail) := by
  intro loop ca cb
  have hstep : loop = _ := strnatcmp_loop_step h.skip h.skip'
  by_cases hruns : nat_cmp_runs a' b' = 0
  · rw [if_neg (not_not.mpr hruns)] at hstep
    by_cases hend : deref a' = NUL ∧ deref b' = NUL
    · rw [if_pos hend] at hstep
      exact Or.inr (Or.inl
        ⟨(deref_nul_iff h.free).mp hend.1, (deref_nul_iff h.free').mp hend.2, hstep⟩)
    · rw [if_neg hend] at hstep
      rcases lt_trichotomy ca cb with hlt | heq | hgt
      · rw [if_pos hlt] at hstep
        exact Or.inr (Or.inr (Or.inl ⟨hruns, hlt, hstep⟩))
      · rw [if_neg (not_lt.mpr heq.ge), if_neg (not_lt.mpr heq.le)] at hstep
        -- neither string ends here
        have hne : a' ≠ [] := by
          rintro rfl
          exact hend ⟨rfl, (fold_char_eq_nul_iff _).mp heq.symm⟩
        have hne' : b' ≠ [] := by
          rintro rfl
          exact hend ⟨(fold_char_eq_nul_iff _).mp heq, rfl⟩
        have hshort := tails_shorter hend
        have hle := skip_spaces_length h.skip
        have hle' := skip_spaces_length h.skip'
        exact Or.inr (Or.inr (Or.inr (Or.inr ⟨hruns, heq, hne, hne', by omega, hstep⟩)))
      · rw [if_neg (not_lt.mpr hgt.le), if_pos hgt] at hstep
        exact Or.inr (Or.inr (Or.inr (Or.inl ⟨hruns, hgt, hstep⟩)))
  · rw [if_pos hruns] at hstep
    exact Or.inl ⟨hruns, hstep⟩

/-- **The loop compares the keys**, and then what decides between equal ones. -/
theorem strnatcmp_loop_order (n : Nat) : ∀ (ai bi : Int) (a b : Bytes) (r : Int),
    a.length + b.length = n → NUL ∉ a → NUL ∉ b →
    strnatcmp_loop fold_case str_a str_b ai bi a b = some r →
      order r 0 = (order (key fold_case a) (key fold_case b)).then
        (order (tie fold_case str_a str_b) 0) := by
  induction n using Nat.strong_induction_on with
  | _ n ih =>
      intro ai bi a b r hn hnul hnul' h
      cases hskip : skip_spaces ai a with
      | none => exact absurd ((strnatcmp_loop_none (Or.inl hskip)).symm.trans h) (by simp)
      | some p =>
      cases hskip' : skip_spaces bi b with
      | none => exact absurd ((strnatcmp_loop_none (Or.inr hskip')).symm.trans h) (by simp)
      | some q =>
      obtain ⟨ai', a'⟩ := p
      obtain ⟨bi', b'⟩ := q
      have hskipped := Skipped.mk' hnul hnul' hskip hskip'
      rw [key_skip a, key_skip b, ← (skip_spaces_eq hskip).1, ← (skip_spaces_eq hskip').1,
        order_cons]
      rcases strnatcmp_loop_cases fold_case str_a str_b hskipped with ⟨hruns, hloop⟩ | ⟨rfl, rfl, hloop⟩ | ⟨hruns, hlt, hloop⟩ |
        ⟨hruns, hgt, hloop⟩ | ⟨hruns, heq, hne, hne', hshort, hloop⟩
      · -- two different numbers
        obtain rfl := Option.some.inj (hloop.symm.trans h)
        have hboth : isdigit (deref a') = true ∧ isdigit (deref b') = true := by
          by_contra hnot
          exact hruns (if_neg hnot)
        have hcompares : Compares (nat_cmp_runs a' b') (token fold_case a') (token fold_case b') :=
          nat_cmp_runs_order hboth.1 hboth.2
        have hne : order (token fold_case a') (token fold_case b') ≠ .eq := fun heq =>
          hruns (hcompares.eq_iff.mpr (order_eq_iff.mp heq))
        rw [hcompares]
        cases horder : order (token fold_case a') (token fold_case b') with
        | eq => exact absurd horder hne
        | lt => rfl
        | gt => rfl
      · obtain rfl := Option.some.inj (hloop.symm.trans h)
        rw [order_self, Ordering.eq_then, order_self, Ordering.eq_then]
      · obtain rfl := Option.some.inj (hloop.symm.trans h)
        rw [token_order_of_runs hruns, order_lt_iff.mpr hlt]
        exact order_neg_one
      · obtain rfl := Option.some.inj (hloop.symm.trans h)
        rw [token_order_of_runs hruns, order_gt_iff.mpr hgt]
        exact order_one
      · obtain ⟨ai'', -, h⟩ := Option.bind_eq_some_iff.mp (hloop.symm.trans h)
        obtain ⟨bi'', -, h⟩ := Option.bind_eq_some_iff.mp h
        rw [token_order_of_runs hruns, heq, order_self, Ordering.eq_then, key_tail_eq hne,
          key_tail_eq hne']
        exact ih _ (hn ▸ hshort) ai'' bi'' a'.tail b'.tail r rfl
          (fun hm => hskipped.free (List.mem_of_mem_tail hm))
          (fun hm => hskipped.free' (List.mem_of_mem_tail hm)) h

/-! ## §4. Where the comparison returns. -/

theorem int_add_one {i : Int} (h0 : 0 ≤ i) (h1 : i + 1 < 2 ^ 31) : int_add i 1 = some (i + 1) :=
  int_add_eq_some (by omega) h1

theorem skip_spaces_total (a : Bytes) : ∀ ai : Int, 0 ≤ ai → ai + a.length < 2 ^ 31 →
    ∃ ai' a', skip_spaces ai a = some (ai', a') ∧ 0 ≤ ai' := by
  induction a with
  | nil => exact fun ai h0 _ => ⟨ai, [], rfl, h0⟩
  | cons c a ih =>
      intro ai h0 h1
      rw [List.length_cons] at h1
      rw [skip_spaces]
      by_cases hc : isspace c = true
      · rw [if_pos hc, int_add_one h0 (by omega), Option.bind_some]
        exact ih (ai + 1) (by omega) (by omega)
      · rw [if_neg hc]
        exact ⟨ai, c :: a, rfl, h0⟩

/-- **The loop returns** where an `int` counts the bytes. -/
theorem strnatcmp_loop_total (n : Nat) : ∀ (ai bi : Int) (a b : Bytes),
    a.length + b.length = n → NUL ∉ a → NUL ∉ b → 0 ≤ ai → 0 ≤ bi → ai + a.length < 2 ^ 31 →
    bi + b.length < 2 ^ 31 → (strnatcmp_loop fold_case str_a str_b ai bi a b).isSome := by
  induction n using Nat.strong_induction_on with
  | _ n ih =>
      intro ai bi a b hn hnul hnul' h0 h0' h1 h1'
      obtain ⟨ai', a', hskip, hai⟩ := skip_spaces_total a ai h0 h1
      obtain ⟨bi', b', hskip', hbi⟩ := skip_spaces_total b bi h0' h1'
      have hlen := (skip_spaces_eq hskip).2
      have hlen' := (skip_spaces_eq hskip').2
      have hskipped := Skipped.mk' hnul hnul' hskip hskip'
      rcases strnatcmp_loop_cases fold_case str_a str_b hskipped with ⟨-, hloop⟩ | ⟨-, -, hloop⟩ | ⟨-, -, hloop⟩ | ⟨-, -, hloop⟩ |
        ⟨-, -, hne, hne', hshort, hloop⟩
      · rw [hloop]
        rfl
      · rw [hloop]
        rfl
      · rw [hloop]
        rfl
      · rw [hloop]
        rfl
      · have hpos := List.length_pos_iff.mpr hne
        have hpos' := List.length_pos_iff.mpr hne'
        rw [hloop, int_add_one hai (by omega), int_add_one hbi (by omega), Option.bind_some,
          Option.bind_some]
        exact ih _ (hn ▸ hshort) _ _ _ _ rfl (fun hm => hskipped.free (List.mem_of_mem_tail hm))
          (fun hm => hskipped.free' (List.mem_of_mem_tail hm)) (by omega) (by omega)
          (by rw [List.length_tail]; omega) (by rw [List.length_tail]; omega)

theorem skip_spaces_range {a a' : Bytes} : ∀ {ai ai' : Int}, 0 ≤ ai → ai < 2 ^ 31 →
    skip_spaces ai a = some (ai', a') → 0 ≤ ai' ∧ ai' < 2 ^ 31 := by
  induction a with
  | nil =>
      intro ai ai' h0 h1 h
      obtain ⟨rfl, -⟩ := Prod.mk.inj (Option.some.inj h)
      exact ⟨h0, h1⟩
  | cons c a ih =>
      intro ai ai' h0 h1 h
      rw [skip_spaces] at h
      by_cases hc : isspace c = true
      · rw [if_pos hc] at h
        by_cases hlt : ai + 1 < 2 ^ 31
        · rw [int_add_one h0 hlt, Option.bind_some] at h
          exact ih (by omega) hlt h
        · rw [int_add_eq_none (by omega), Option.bind_none] at h
          exact absurd h (by simp)
      · rw [if_neg hc] at h
        obtain ⟨rfl, -⟩ := Prod.mk.inj (Option.some.inj h)
        exact ⟨h0, h1⟩

theorem nat_cmp_runs_self (a : Bytes) : nat_cmp_runs a a = 0 := by
  by_cases hdigit : isdigit (deref a) = true
  · have hcompares : Compares (nat_cmp_runs a a) (token true a) (token true a) :=
      nat_cmp_runs_order hdigit hdigit
    exact hcompares.eq_iff.mpr rfl
  · exact if_neg fun h => hdigit h.1

/-- The comparison of a text with itself goes on to its end. -/
theorem strnatcmp_loop_self_none (n : Nat) : ∀ (ai : Int) (a : Bytes),
    a.length = n → NUL ∉ a → 0 ≤ ai → ai < 2 ^ 31 → 2 ^ 31 ≤ ai + a.length →
    strnatcmp_loop fold_case str_a str_b ai ai a a = none := by
  induction n using Nat.strong_induction_on with
  | _ n ih =>
      intro ai a hn hnul h0 h1 hover
      cases hskip : skip_spaces ai a with
      | none => exact strnatcmp_loop_none (Or.inl hskip)
      | some p =>
          obtain ⟨ai', a'⟩ := p
          have hlen := (skip_spaces_eq hskip).2
          have hle := skip_spaces_length hskip
          obtain ⟨hai, hai'⟩ := skip_spaces_range h0 h1 hskip
          have hskipped := Skipped.mk' hnul hnul hskip hskip
          rcases strnatcmp_loop_cases fold_case str_a str_b hskipped with ⟨hruns, -⟩ |
            ⟨hnil, -, -⟩ | ⟨-, hlt, -⟩ | ⟨-, hgt, -⟩ | ⟨-, -, hne, -, -, hloop⟩
          · exact absurd (nat_cmp_runs_self a') hruns
          · rw [hnil, List.length_nil] at hlen
            omega
          · exact absurd hlt (lt_irrefl _)
          · exact absurd hgt (lt_irrefl _)
          · have hpos := List.length_pos_iff.mpr hne
            rw [hloop]
            by_cases hnext : ai' + 1 < 2 ^ 31
            · rw [int_add_one hai hnext, Option.bind_some, Option.bind_some]
              exact ih _ (by rw [List.length_tail]; omega) _ _ rfl
                (fun hm => hskipped.free (List.mem_of_mem_tail hm)) (by omega) hnext
                (by rw [List.length_tail]; omega)
            · rw [int_add_eq_none (by omega), Option.bind_none]

end Loop

/-! ## §5. The order. -/

/-- The bytes of a string. -/
def bytes (a : Bytes) : List Int := a.map fun c => (c.toNat : Int)

/-- `strcmp` compares byte by byte. -/
theorem strcmp_compares (a : Bytes) : ∀ b : Bytes, NUL ∉ a → NUL ∉ b →
    Compares (strcmp a b) (bytes a) (bytes b) := by
  have hpos : ∀ {c : Byte}, c ≠ NUL → 0 < (c.toNat : Int) := by
    intro c hc
    have hne : c.toNat ≠ 0 := fun h => hc (UInt8.toNat_inj.mp h)
    omega
  induction a with
  | nil =>
      intro b _ hb
      cases b with
      | nil => rfl
      | cons d b =>
          rw [List.mem_cons, not_or] at hb
          have hneg : strcmp [] (d :: b) < 0 := by
            show ((NUL.toNat : Int) - d.toNat) < 0
            have hd := hpos (Ne.symm hb.1)
            have hnul : ((NUL : Byte).toNat : Int) = 0 := rfl
            omega
          rw [Compares, order_lt_iff.mpr hneg]
          exact (order_nil_cons _ _).symm
  | cons c a ih =>
      intro b ha hb
      rw [List.mem_cons, not_or] at ha
      have hc : c ≠ NUL := Ne.symm ha.1
      cases b with
      | nil =>
          have hgt : 0 < strcmp (c :: a) [] := by
            show 0 < if c ≠ NUL then (c.toNat : Int) - NUL.toNat else _
            have hpos' := hpos hc
            have hnul : ((NUL : Byte).toNat : Int) = 0 := rfl
            rw [if_pos hc]
            omega
          rw [Compares, order_gt_iff.mpr hgt]
          exact (order_cons_nil _ _).symm
      | cons d b =>
          rw [List.mem_cons, not_or] at hb
          rw [Compares, strcmp]
          show order (if c ≠ d then (c.toNat : Int) - d.toNat else if c = NUL then 0
            else strcmp a b) 0 = order ((c.toNat : Int) :: bytes a) ((d.toNat : Int) :: bytes b)
          rw [order_cons]
          by_cases hcd : c = d
          · rw [if_neg (not_not.mpr hcd), if_neg hc, hcd, order_self, Ordering.eq_then]
            exact ih b ha.2 hb.2
          · have hne : (c.toNat : Int) ≠ d.toNat := fun h =>
              hcd (UInt8.toNat_inj.mp (Int.natCast_inj.mp h))
            rw [if_pos hcd]
            rcases lt_or_gt_of_ne hne with hlt | hgt
            · rw [order_lt_iff.mpr hlt, order_lt_iff.mpr (by omega)]
              rfl
            · rw [order_gt_iff.mpr hgt, order_gt_iff.mpr (by omega)]
              rfl

theorem bytes_inj {a b : Bytes} (h : bytes a = bytes b) : a = b :=
  List.map_injective_iff.mpr (fun _ _ h => UInt8.toNat_inj.mp (Int.natCast_inj.mp h)) h

/-- Where a string stands in the order: its key, and then its bytes. -/
def natural_rank (a : Bytes) : List (List Int) ×ₗ List Int := toLex (key true a, bytes a)

/-- **The comparison is that of the ranks**, where it returns. -/
theorem strcasenatcmp_compares {a b : Bytes} (ha : NUL ∉ a) (hb : NUL ∉ b) {r : Int}
    (h : strcasenatcmp a b = some r) : Compares r (natural_rank a) (natural_rank b) := by
  have horder := strnatcmp_loop_order _ 0 0 a b r rfl ha hb h
  have htie : order (tie true a b) 0 = order (bytes a) (bytes b) := strcmp_compares a b ha hb
  rw [htie, ← order_pair] at horder
  exact horder

theorem strcasenatcmp_self_none {a : Bytes} (ha : NUL ∉ a) (hlong : 2 ^ 31 ≤ a.length) :
    strcasenatcmp a a = none :=
  strnatcmp_loop_self_none _ 0 a rfl ha le_rfl (by decide) (by omega)

theorem strcasenatcmp_total {a b : Bytes} (ha : NUL ∉ a) (hb : NUL ∉ b) (hla : a.length < 2 ^ 31)
    (hlb : b.length < 2 ^ 31) : (strcasenatcmp a b).isSome :=
  strnatcmp_loop_total _ 0 0 a b rfl ha hb le_rfl le_rfl (by omega) (by omega)

/-- **`strcasenatcmp` orders a set of strings** exactly where an `int` counts the bytes of
    each of them. -/
theorem strcasenatcmp_orders_iff {S : Set Bytes} (hS : ∀ a ∈ S, NUL ∉ a) :
    Orders strcasenatcmp S ↔ ∀ a ∈ S, a.length < 2 ^ 31 := by
  constructor
  · intro horders a ha
    by_contra hlong
    have hsome := horders.total a ha a ha
    rw [strcasenatcmp_self_none (hS a ha) (not_lt.mp hlong)] at hsome
    exact Bool.false_ne_true hsome
  · intro hshort
    exact orders_of_rank natural_rank
      (fun a ha b hb => strcasenatcmp_total (hS a ha) (hS b hb) (hshort a ha) (hshort b hb))
      fun a ha b hb r h => strcasenatcmp_compares (hS a ha) (hS b hb) h

theorem strcasenatcmp_orders_three :
    Orders strcasenatcmp {lit "img2", lit "img10", lit "img 02"} ↔
      ∀ a ∈ ({lit "img2", lit "img10", lit "img 02"} : Set Bytes), a.length < 2 ^ 31 :=
  strcasenatcmp_orders_iff (by
    rintro a (rfl | rfl | rfl)
    · decide
    · decide
    · decide)

/-- A string that an `int` does not count does not compare with itself. -/
theorem strcasenatcmp_long : ¬ Orders strcasenatcmp {a | NUL ∉ a} := by
  intro h
  have hfree : NUL ∉ List.replicate (2 ^ 31) (0x61 : Byte) := fun hm =>
    absurd (List.eq_of_mem_replicate hm) (by decide)
  have hsome := h.total _ hfree _ hfree
  rw [strcasenatcmp_self_none hfree (List.length_replicate ..).ge] at hsome
  exact Bool.false_ne_true hsome

/-! ## §6. Letter case. -/

/-- Equal tokens begin with one character. -/
theorem fold_char_of_token {fold_case : Bool} {a b : Bytes}
    (h : token fold_case a = token fold_case b) :
    fold_char fold_case (deref a) = fold_char fold_case (deref b) := by
  rw [← order_eq_iff]
  by_cases hboth : isdigit (deref a) = true ∧ isdigit (deref b) = true
  · have hcompares : Compares (nat_cmp_runs a b) (token fold_case a) (token fold_case b) :=
      nat_cmp_runs_order hboth.1 hboth.2
    rw [← token_order_of_runs (hcompares.eq_iff.mpr h), h, order_self]
  · rw [← token_order hboth, h, order_self]

theorem eq_of_lower_of_space {c d : Byte} (hc : isspace c = true)
    (h : tolower (schar c) = tolower (schar d)) : c = d := by
  have hrange : c.toNat = 32 ∨ (9 ≤ c.toNat ∧ c.toNat ≤ 13) := by
    rw [isspace, decide_eq_true_iff] at hc
    rcases hc with rfl | ⟨h9, h13⟩
    · exact Or.inl rfl
    · exact Or.inr ⟨UInt8.le_iff_toNat_le.mp h9, UInt8.le_iff_toNat_le.mp h13⟩
  have hlt := d.toNat_lt
  refine UInt8.toNat_inj.mp ?_
  unfold tolower schar at h
  split_ifs at h <;> omega

/-- **Strings with one key that differ in case at most** are the same. -/
theorem eq_of_key_of_lower (a : Bytes) : ∀ b : Bytes, key false a = key false b →
    lower a = lower b → a = b := by
  induction a with
  | nil =>
      intro b _ h
      exact (List.map_eq_nil_iff.mp h.symm).symm
  | cons c a ih =>
      intro b hkey h
      cases b with
      | nil => exact absurd h (List.cons_ne_nil _ _)
      | cons d b =>
          obtain ⟨hchar, htail⟩ := List.cons.inj h
          by_cases hc : isspace c = true
          · obtain rfl := eq_of_lower_of_space hc hchar
            rw [key, key, if_pos hc, if_pos hc] at hkey
            rw [ih b hkey htail]
          · have hd : ¬ isspace d = true := fun hd => by
              rw [eq_of_lower_of_space hd hchar.symm] at hd
              exact hc hd
            rw [key, key, if_neg hc, if_neg hd] at hkey
            obtain ⟨htoken, hkeys⟩ := List.cons.inj hkey
            have hcd : c = d := schar_inj (fold_char_of_token htoken)
            rw [hcd, ih b hkeys htail]

/-- `strnatcmp` tells all strings apart. -/
theorem eq_of_strnatcmp {a b : Bytes} (ha : NUL ∉ a) (hb : NUL ∉ b)
    (h : strnatcmp a b = some 0) : a = b := by
  have horder := strnatcmp_loop_order _ 0 0 a b 0 rfl ha hb h
  rw [order_self] at horder
  obtain ⟨hkey, htie⟩ := Ordering.then_eq_eq.mp horder.symm
  exact eq_of_key_of_lower a b (order_eq_iff.mp hkey)
    (lower_of_strcasecmp a b ha hb (order_eq_iff.mp htie))

theorem eq_of_strcasenatcmp {a b : Bytes} (ha : NUL ∉ a) (hb : NUL ∉ b)
    (h : strcasenatcmp a b = some 0) : a = b := by
  have hrank := (strcasenatcmp_compares ha hb h).eq_iff.mp rfl
  exact bytes_inj (congrArg (fun p => (ofLex p).2) hrank)

/-- **Letter case.**  `strcasenatcmp` takes strings that differ in case at most for the same,
    and `strnatcmp` only those that are the same, exactly where the strings do not differ at
    all and an `int` counts their bytes: what decides between equal keys is `strcmp` for the
    first one and `stricmp` for the other. -/
theorem strnatcmp_case_iff {a b : Bytes} (ha : NUL ∉ a) (hb : NUL ∉ b) :
    ((lower a = lower b → strcasenatcmp a b = some 0) ∧ (strnatcmp a b = some 0 → a = b)) ↔
      (lower a = lower b → a = b ∧ a.length < 2 ^ 31) := by
  constructor
  · rintro ⟨hfold, -⟩ hlower
    have hzero := hfold hlower
    obtain rfl := eq_of_strcasenatcmp ha hb hzero
    refine ⟨rfl, ?_⟩
    by_contra hlong
    rw [strcasenatcmp_self_none ha (not_lt.mp hlong)] at hzero
    exact absurd hzero (by simp)
  · intro hsame
    refine ⟨fun hlower => ?_, eq_of_strnatcmp ha hb⟩
    obtain ⟨rfl, hlt⟩ := hsame hlower
    obtain ⟨r, hr⟩ := Option.isSome_iff_exists.mp (strcasenatcmp_total ha ha hlt hlt)
    rw [hr, (strcasenatcmp_compares ha ha hr).eq_iff.mpr rfl]

theorem strnatcmp_case_same :
    ((lower (lit "a1") = lower (lit "a1") → strcasenatcmp (lit "a1") (lit "a1") = some 0) ∧
        (strnatcmp (lit "a1") (lit "a1") = some 0 → lit "a1" = lit "a1")) ↔
      (lower (lit "a1") = lower (lit "a1") →
        lit "a1" = lit "a1" ∧ (lit "a1").length < 2 ^ 31) :=
  strnatcmp_case_iff (by decide) (by decide)

/-- One letter in both cases. -/
theorem strcasenatcmp_letter :
    ¬ ∀ a b : Bytes, NUL ∉ a → NUL ∉ b →
      (lower a = lower b → strcasenatcmp a b = some 0) ∧ (strnatcmp a b = some 0 → a = b) := by
  intro h
  have hzero := (h (lit "A") (lit "a") (by decide) (by decide)).1 (by decide)
  exact absurd (eq_of_strcasenatcmp (by decide) (by decide) hzero) (by decide)

end Aos
