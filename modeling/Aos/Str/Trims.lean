/-
  Aos.Str.Trims — `ltrim`, `rtrim` and `trim` of C strings and of `std::string`.

  The overloads for a `Char_Map` count the bytes of a `std::string` in an `int`;
  those for a set and for a character search it.  A C string is cut by moving its
  pointer and by writing a NUL behind the last byte to keep, which `rtrim` does
  where it has found one; the overload for a character looks for that character
  where it should look for another one.

  Main results:
    • `ltrim_counted_eq`, `rtrim_counted_eq` — the counting overloads are those of
      `Tokenizer` where the count is an `int`;
    • `trims_agree_iff` — when the overloads for C strings and for `std::string`
      agree.
-/
import Aos.Str.Tokenizer

namespace Aos

/-! ## §1. The overloads. -/

section Std

/-- The loop that counts the bytes to trim. -/
def count_trim (cm : Char_Map) (n_trim : Int) : Bytes → Option Int
  | [] => some n_trim
  | c :: str => if ¬ cm.has c then some n_trim
      else (int_add n_trim 1).bind fun n => count_trim cm n str

/-- `ltrim(std::string&, cm)`; there is no result where `n_trim` overflows. -/
def ltrim_counted (cm : Char_Map) (str : Bytes) : Option Bytes :=
  (count_trim cm 0 str).map fun n => if n ≠ 0 then str.drop n.toNat else str

/-- `rtrim(std::string&, cm)` -/
def rtrim_counted (cm : Char_Map) (str : Bytes) : Option Bytes :=
  (count_trim cm 0 str.reverse).map fun n =>
    if n ≠ 0 then str.take (str.length - n.toNat) else str

/-- `trim(std::string&, cm)` -/
def trim_counted (cm : Char_Map) (str : Bytes) : Option Bytes :=
  (rtrim_counted cm str).bind (ltrim_counted cm)

end Std

section CString

/-- `while( *cstr && ... ) ++cstr` -/
def ltrim_loop (skip : Byte → Bool) : Bytes → Bytes
  | [] => []
  | c :: cstr => if c ≠ NUL ∧ skip c = true then ltrim_loop skip cstr else c :: cstr

/-- `while( cstr < ptr )`, with `ptr` the byte number `k`; a NUL is written behind the byte
    that stops the loop. -/
def rtrim_loop (stop : Byte → Bool) (cstr : Bytes) : Nat → Bytes
  | 0 => cstr
  | k + 1 => if stop (cstr[k]?.getD NUL) = true then cstr.take (k + 1) else rtrim_loop stop cstr k

/-- `ltrim(char*, cm)` -/
def ltrim_cstr (cm : Char_Map) (cstr : Bytes) : Bytes := ltrim_loop cm.has cstr

/-- `rtrim(char*, cm)` -/
def rtrim_cstr (cm : Char_Map) (cstr : Bytes) : Bytes :=
  rtrim_loop (fun c => ! cm.has c) cstr cstr.length

/-- `trim(char*, cm)` -/
def trim_cstr (cm : Char_Map) (cstr : Bytes) : Bytes := rtrim_cstr cm (ltrim_cstr cm cstr)

/-- `ltrim(char*, trim)` with a set -/
def ltrim_cstr_set (trim cstr : Bytes) : Bytes := ltrim_cstr (Char_Map.set (c_str trim)) cstr

/-- `rtrim(char*, trim)` with a set -/
def rtrim_cstr_set (trim cstr : Bytes) : Bytes := rtrim_cstr (Char_Map.set (c_str trim)) cstr

/-- `trim(char*, trim)` with a set -/
def trim_cstr_set (trim cstr : Bytes) : Bytes := rtrim_cstr_set trim (ltrim_cstr_set trim cstr)

/-- `ltrim(char*, trim)` with a character -/
def ltrim_cstr_char (trim : Byte) (cstr : Bytes) : Bytes := ltrim_loop (fun c => c = trim) cstr

/-- `rtrim(char*, trim)` with a character -/
def rtrim_cstr_char (trim : Byte) (cstr : Bytes) : Bytes :=
  rtrim_loop (fun c => c = trim) cstr cstr.length

/-- `trim(char*, trim)` with a character -/
def trim_cstr_char (trim : Byte) (cstr : Bytes) : Bytes :=
  rtrim_cstr_char trim (ltrim_cstr_char trim cstr)

end CString

/-! ## §2. What they leave. -/

/-- A text without the bytes at its end. -/
def drop_end (p : Byte → Bool) (s : Bytes) : Bytes := (s.reverse.dropWhile p).reverse

section Loops

variable {p : Byte → Bool} {s : Bytes}

theorem dropWhile_stop {c : Byte} (hc : p c = false) (x y : Bytes) :
    (x ++ c :: y).dropWhile p = x.dropWhile p ++ c :: y := by
  have hc' : ¬ p c = true := by
    rw [hc]
    exact Bool.false_ne_true
  induction x with
  | nil => rw [List.nil_append, List.dropWhile_cons_of_neg hc', List.dropWhile_nil, List.nil_append]
  | cons d x ih =>
      rw [List.cons_append]
      by_cases hd : p d = true
      · rw [List.dropWhile_cons_of_pos hd, List.dropWhile_cons_of_pos hd, ih]
      · rw [List.dropWhile_cons_of_neg hd, List.dropWhile_cons_of_neg hd, List.cons_append]

/-- The text around its first byte to keep. -/
theorem first_kept (h : ∃ c ∈ s, p c = false) :
    ∃ a c t, s = a ++ c :: t ∧ (∀ b ∈ a, p b = true) ∧ p c = false := by
  induction s with
  | nil =>
      obtain ⟨c, hc, -⟩ := h
      exact absurd hc List.not_mem_nil
  | cons d s ih =>
      cases hd : p d with
      | false => exact ⟨[], d, s, rfl, fun b hb => absurd hb List.not_mem_nil, hd⟩
      | true =>
          obtain ⟨c, hc, hno⟩ := h
          have hmem : c ∈ s := by
            rcases List.mem_cons.mp hc with rfl | hmem
            · rw [hd] at hno
              exact absurd hno (by decide)
            · exact hmem
          obtain ⟨a, b, t, rfl, ha, hb⟩ := ih ⟨c, hmem, hno⟩
          refine ⟨d :: a, b, t, rfl, fun e he => ?_, hb⟩
          rcases List.mem_cons.mp he with rfl | he
          · exact hd
          · exact ha e he

theorem dropWhile_first {a t : Bytes} {c : Byte} (ha : ∀ b ∈ a, p b = true) (hc : p c = false) :
    (a ++ c :: t).dropWhile p = c :: t := by
  rw [List.dropWhile_append_of_pos ha, List.dropWhile_cons_of_neg (by rw [hc]; decide)]

/-- **Both ends can be trimmed in any order.** -/
theorem drop_end_dropWhile (p : Byte → Bool) (s : Bytes) :
    (drop_end p s).dropWhile p = drop_end p (s.dropWhile p) := by
  by_cases h : ∃ c ∈ s, p c = false
  · obtain ⟨a, c, t, rfl, ha, hc⟩ := first_kept h
    have hreverse : (a ++ c :: t).reverse = t.reverse ++ c :: a.reverse := by simp
    have hreverse' : (c :: t).reverse = t.reverse ++ c :: [] := by simp
    rw [dropWhile_first ha hc, drop_end, drop_end, hreverse, hreverse', dropWhile_stop hc,
      dropWhile_stop hc]
    simp only [List.reverse_append, List.reverse_cons, List.reverse_reverse, List.append_assoc,
      List.reverse_nil, List.nil_append, List.singleton_append]
    exact dropWhile_first ha hc
  · have hall : ∀ c ∈ s, p c = true := fun c hc => by
      by_contra hno
      exact h ⟨c, hc, by simpa using hno⟩
    rw [drop_end, List.dropWhile_eq_nil_iff.mpr fun c hc => hall c (List.mem_reverse.mp hc),
      List.dropWhile_eq_nil_iff.mpr hall]
    rfl

theorem drop_end_eq_nil_iff : drop_end p s = [] ↔ ∀ c ∈ s, p c = true := by
  rw [drop_end, List.reverse_eq_nil_iff, List.dropWhile_eq_nil_iff]
  exact forall_congr' fun c => by rw [List.mem_reverse]

theorem ltrim_loop_eq (hs : NUL ∉ s) : ltrim_loop p s = s.dropWhile p := by
  induction s with
  | nil => rfl
  | cons c s ih =>
      rw [List.mem_cons, not_or] at hs
      rw [ltrim_loop]
      by_cases hc : p c = true
      · rw [if_pos ⟨Ne.symm hs.1, hc⟩, List.dropWhile_cons_of_pos hc, ih hs.2]
      · rw [if_neg fun h => hc h.2, List.dropWhile_cons_of_neg hc]

theorem rtrim_loop_take (s : Bytes) (k : Nat) : k ≤ s.length →
    rtrim_loop p s k =
      if ∃ c ∈ s.take k, p c = true then drop_end (fun c => ! p c) (s.take k) else s := by
  induction k with
  | zero =>
      intro _
      rw [if_neg fun ⟨c, hc, _⟩ => absurd hc (by simp)]
      rfl
  | succ k ih =>
      intro hk
      have hget : s[k]? = some s[k] := List.getElem?_eq_getElem hk
      have htake : s.take (k + 1) = s.take k ++ [s[k]] := (List.take_concat_get' s k hk).symm
      have hreverse : (s.take (k + 1)).reverse = s[k] :: (s.take k).reverse := by
        rw [htake, List.reverse_append]
        rfl
      have hmem : s[k] ∈ s.take (k + 1) := by
        rw [htake]
        exact List.mem_append_right _ (List.mem_singleton.mpr rfl)
      rw [rtrim_loop, hget, Option.getD_some]
      by_cases hstop : p s[k] = true
      · rw [if_pos hstop, if_pos ⟨s[k], hmem, hstop⟩, drop_end, hreverse,
          List.dropWhile_cons_of_neg (by rw [hstop]; decide), ← hreverse, List.reverse_reverse]
      · have hiff : (∃ c ∈ s.take k, p c = true) ↔ ∃ c ∈ s.take (k + 1), p c = true := by
          constructor
          · rintro ⟨c, hc, hp⟩
            exact ⟨c, by rw [htake]; exact List.mem_append_left _ hc, hp⟩
          · rintro ⟨c, hc, hp⟩
            rw [htake, List.mem_append, List.mem_singleton] at hc
            rcases hc with hc | rfl
            · exact ⟨c, hc, hp⟩
            · exact absurd hp hstop
        rw [if_neg hstop, ih (Nat.le_of_succ_le hk)]
        refine if_congr hiff ?_ rfl
        rw [drop_end, drop_end, hreverse, List.dropWhile_cons_of_pos (by simpa using hstop)]

/-- **What the loop of `rtrim` leaves of a C string**: the text without the bytes behind the
    one that stops the loop, or all of it. -/
theorem rtrim_loop_eq (p : Byte → Bool) (s : Bytes) :
    rtrim_loop p s s.length =
      if ∃ c ∈ s, p c = true then drop_end (fun c => ! p c) s else s := by
  have htake := rtrim_loop_take (p := p) s s.length le_rfl
  rwa [List.take_length] at htake

end Loops

/-! ## §3. The overloads that count. -/

section Counted

variable (cm : Char_Map)

theorem count_trim_eq (str : Bytes) : ∀ n : Int, 0 ≤ n → n < 2 ^ 31 →
    count_trim cm n str = if n + (str.takeWhile cm.has).length < 2 ^ 31 then
      some (n + (str.takeWhile cm.has).length) else none := by
  induction str with
  | nil =>
      intro n h0 h1
      rw [count_trim, List.takeWhile_nil, List.length_nil, Nat.cast_zero, Int.add_zero, if_pos h1]
  | cons c str ih =>
      intro n h0 h1
      rw [count_trim]
      by_cases hc : cm.has c = true
      · rw [if_neg (not_not.mpr hc), List.takeWhile_cons_of_pos hc, List.length_cons]
        have hsum : n + ((str.takeWhile cm.has).length + 1 : Nat)
            = n + 1 + (str.takeWhile cm.has).length := by omega
        by_cases hlt : n + 1 < 2 ^ 31
        · rw [int_add_eq_some (by omega) hlt, Option.bind_some, ih (n + 1) (by omega) hlt, hsum]
        · rw [int_add_eq_none (by omega), Option.bind_none, if_neg (by omega)]
      · rw [if_pos hc, List.takeWhile_cons_of_neg hc, List.length_nil, Nat.cast_zero, Int.add_zero,
          if_pos h1]

theorem drop_takeWhile (p : Byte → Bool) (s : Bytes) :
    s.drop (s.takeWhile p).length = s.dropWhile p := by
  calc s.drop (s.takeWhile p).length
      = (s.takeWhile p ++ s.dropWhile p).drop (s.takeWhile p).length := by
        rw [List.takeWhile_append_dropWhile]
    _ = s.dropWhile p := List.drop_left

/-- **`ltrim` with a counter** is `ltrim` where the count is an `int`. -/
theorem ltrim_counted_eq (str : Bytes) :
    ltrim_counted cm str
      = if (str.takeWhile cm.has).length < 2 ^ 31 then some (ltrim cm str) else none := by
  rw [ltrim_counted, count_trim_eq cm str 0 le_rfl (by decide), Int.zero_add, ltrim_eq]
  by_cases hlt : (str.takeWhile cm.has).length < 2 ^ 31
  · have hlt' : ((str.takeWhile cm.has).length : Int) < 2 ^ 31 := by omega
    rw [if_pos hlt, if_pos hlt', Option.map_some, Int.toNat_natCast, drop_takeWhile]
    by_cases h0 : ((str.takeWhile cm.has).length : Int) = 0
    · rw [if_neg (not_not.mpr h0), ← drop_takeWhile, Int.natCast_eq_zero.mp h0, List.drop_zero]
    · rw [if_pos h0]
  · rw [if_neg hlt, if_neg (by omega), Option.map_none]

/-- **`rtrim` with a counter** is `rtrim` where the count is an `int`. -/
theorem rtrim_counted_eq (str : Bytes) :
    rtrim_counted cm str
      = if (str.reverse.takeWhile cm.has).length < 2 ^ 31 then some (rtrim cm str) else none := by
  have hcut : str.take (str.length - (str.reverse.takeWhile cm.has).length)
      = drop_end cm.has str := by
    rw [drop_end, ← drop_takeWhile, List.drop_reverse, List.reverse_reverse]
  rw [rtrim_counted, count_trim_eq cm str.reverse 0 le_rfl (by decide), Int.zero_add, rtrim,
    ltrim_eq]
  by_cases hlt : (str.reverse.takeWhile cm.has).length < 2 ^ 31
  · have hlt' : ((str.reverse.takeWhile cm.has).length : Int) < 2 ^ 31 := by omega
    rw [if_pos hlt, if_pos hlt', Option.map_some, Int.toNat_natCast, hcut]
    by_cases h0 : ((str.reverse.takeWhile cm.has).length : Int) = 0
    · rw [if_neg (not_not.mpr h0), ← drop_takeWhile, Int.natCast_eq_zero.mp h0, List.drop_zero,
        List.reverse_reverse]
    · rw [if_pos h0]
      rfl
  · rw [if_neg hlt, if_neg (by omega), Option.map_none]

/-- What is trimmed at the begin of a text without its end is trimmed at its begin. -/
theorem takeWhile_drop_end_le (p : Byte → Bool) (s : Bytes) :
    ((drop_end p s).takeWhile p).length ≤ (s.takeWhile p).length := by
  have hpre : drop_end p s <+: s := by
    have hsuffix := List.dropWhile_suffix (l := s.reverse) p
    rw [drop_end, ← List.reverse_suffix, List.reverse_reverse]
    exact hsuffix
  obtain ⟨u, hu⟩ := hpre
  conv_rhs => rw [← hu]
  rw [List.takeWhile_append]
  split_ifs with hall
  · rw [hall, List.length_append]
    exact Nat.le_add_right _ _
  · exact le_rfl

end Counted

/-! ## §4. Where they agree. -/

section Agree

/-- The overloads for C strings leave what those for `std::string` leave, with a map. -/
structure Agree (cm : Char_Map) (s : Bytes) : Prop where
  ltrim : ltrim_counted cm s = some (ltrim_cstr cm s)
  rtrim : rtrim_counted cm s = some (rtrim_cstr cm s)
  trim : trim_counted cm s = some (trim_cstr cm s)

/-- The same with a set. -/
structure Agree_Set (trim s : Bytes) : Prop where
  ltrim : ltrim_set trim s = ltrim_cstr_set trim s
  rtrim : rtrim_set trim s = rtrim_cstr_set trim s
  trim : trim_set trim s = trim_cstr_set trim s

/-- The same with a character. -/
structure Agree_Char (trim : Byte) (s : Bytes) : Prop where
  ltrim : ltrim_char trim s = ltrim_cstr_char trim s
  rtrim : rtrim_char trim s = rtrim_cstr_char trim s
  trim : trim_char trim s = trim_cstr_char trim s

variable {p : Byte → Bool} {s : Bytes}

/-- The end of a C string is trimmed where something else is in it. -/
theorem rtrim_loop_agrees_iff :
    drop_end p s = rtrim_loop (fun c => ! p c) s s.length ↔ s = [] ∨ ∃ c ∈ s, p c = false := by
  have hiff : (∃ c ∈ s, (! p c) = true) ↔ ∃ c ∈ s, p c = false :=
    exists_congr fun c => and_congr_right fun _ => by rw [Bool.not_eq_true']
  rw [rtrim_loop_eq]
  by_cases h : ∃ c ∈ s, p c = false
  · rw [if_pos (hiff.mpr h)]
    refine iff_of_true ?_ (Or.inr h)
    congr 1
    funext c
    rw [Bool.not_not]
  · rw [if_neg fun hex => h (hiff.mp hex), or_iff_left h]
    have hnil : drop_end p s = [] := drop_end_eq_nil_iff.mpr fun c hc => by
      by_contra hno
      exact h ⟨c, hc, by simpa using hno⟩
    rw [hnil, eq_comm]

/-- Both ends of a C string are trimmed always: nothing is left of a text with nothing else
    in it. -/
theorem trim_loop_agrees (p : Byte → Bool) (s : Bytes) :
    (drop_end p s).dropWhile p
      = rtrim_loop (fun c => ! p c) (s.dropWhile p) (s.dropWhile p).length := by
  rw [drop_end_dropWhile, rtrim_loop_agrees_iff]
  cases hrest : s.dropWhile p with
  | nil => exact Or.inl rfl
  | cons c t =>
      refine Or.inr ⟨c, List.mem_cons_self, ?_⟩
      have hhead := List.head_dropWhile_not p (l := s) (by simp [hrest])
      simpa [hrest] using hhead

/-- **With a map** they agree on the empty text, and where some byte is kept and an `int`
    counts the bytes around. -/
theorem agree_iff (hs : NUL ∉ s) (cm : Char_Map) :
    Agree cm s ↔ s = [] ∨ ((∃ c ∈ s, cm.has c = false) ∧
      (s.takeWhile cm.has).length < 2 ^ 31 ∧ (s.reverse.takeWhile cm.has).length < 2 ^ 31) := by
  have hl : ltrim_cstr cm s = ltrim cm s := (ltrim_loop_eq hs).trans (ltrim_eq cm s).symm
  have hr : rtrim cm s = drop_end cm.has s := by rw [rtrim, ltrim_eq, drop_end]
  have hagree : drop_end cm.has s = rtrim_cstr cm s ↔ s = [] ∨ ∃ c ∈ s, cm.has c = false :=
    rtrim_loop_agrees_iff
  constructor
  · rintro ⟨hltrim, hrtrim, -⟩
    rw [ltrim_counted_eq] at hltrim
    rw [rtrim_counted_eq] at hrtrim
    split_ifs at hltrim with hlt
    split_ifs at hrtrim with hlt'
    rw [Option.some_inj, hr, hagree] at hrtrim
    exact hrtrim.imp_right fun hex => ⟨hex, hlt, hlt'⟩
  · intro h
    have hlt : (s.takeWhile cm.has).length < 2 ^ 31 := by
      rcases h with rfl | h
      · exact Nat.two_pow_pos 31
      · exact h.2.1
    have hlt' : (s.reverse.takeWhile cm.has).length < 2 ^ 31 := by
      rcases h with rfl | h
      · exact Nat.two_pow_pos 31
      · exact h.2.2
    have hltend := (takeWhile_drop_end_le cm.has s).trans_lt hlt
    constructor
    · rw [ltrim_counted_eq, if_pos hlt, hl]
    · rw [rtrim_counted_eq, if_pos hlt', hr, hagree.mpr (h.imp_right And.left)]
    · rw [trim_counted, rtrim_counted_eq, if_pos hlt', Option.bind_some, hr, ltrim_counted_eq,
        if_pos hltend, ltrim_eq, trim_loop_agrees, trim_cstr, hl, ltrim_eq]
      rfl

/-- **With a set** they agree on the empty text, and where some byte is kept. -/
theorem agree_set_iff (hs : NUL ∉ s) (trim : Bytes) :
    Agree_Set trim s ↔ s = [] ∨ ∃ c ∈ s, c ∉ c_str trim := by
  have hhas : (Char_Map.set (c_str trim)).has = fun c => decide (c ∈ c_str trim) :=
    funext fun c => Char_Map.has_set _ c
  have hl : ltrim_cstr_set trim s = ltrim_set trim s := by
    rw [ltrim_cstr_set, ltrim_cstr, hhas]
    exact ltrim_loop_eq hs
  have hr : rtrim_set trim s = rtrim_cstr_set trim s ↔ s = [] ∨ ∃ c ∈ s, c ∉ c_str trim := by
    have hiff : (∃ c ∈ s, decide (c ∈ c_str trim) = false) ↔ ∃ c ∈ s, c ∉ c_str trim :=
      exists_congr fun c => and_congr_right fun _ => decide_eq_false_iff_not
    rw [rtrim_cstr_set, rtrim_cstr, hhas, ← hiff]
    exact rtrim_loop_agrees_iff
  constructor
  · exact fun h => hr.mp h.rtrim
  · intro h
    refine ⟨hl.symm, hr.mpr h, ?_⟩
    rw [trim_cstr_set, hl, rtrim_cstr_set, rtrim_cstr, hhas]
    exact trim_loop_agrees _ s

theorem rtrim_char_free {trim : Byte} (h : trim ∉ s) : rtrim_char trim s = s := by
  have hkeep : s.reverse.dropWhile (fun c => decide (c = trim)) = s.reverse := by
    rw [List.dropWhile_eq_self_iff]
    exact fun hpos htrim =>
      h (of_decide_eq_true htrim ▸ List.mem_reverse.mp (List.getElem_mem hpos))
  rw [rtrim_char, hkeep, List.reverse_reverse]

/-- The end of a C string is trimmed of a character where the character is not in it. -/
theorem rtrim_char_agrees_iff (trim : Byte) (s : Bytes) :
    rtrim_char trim s = rtrim_cstr_char trim s ↔ trim ∉ s := by
  have hdrop : rtrim_char trim s = drop_end (fun c => decide (c = trim)) s := rfl
  have hloop := rtrim_loop_eq (fun c => decide (c = trim)) s
  rw [rtrim_cstr_char, hloop]
  by_cases hmem : trim ∈ s
  · -- the C string ends with the character, the other one does not
    rw [if_pos ⟨trim, hmem, decide_eq_true rfl⟩]
    refine iff_of_false ?_ (not_not.mpr hmem)
    intro heq
    have hrev : s.reverse.dropWhile (fun c => decide (c = trim))
        = s.reverse.dropWhile fun c => ! decide (c = trim) := List.reverse_injective heq
    have hne : s.reverse.dropWhile (fun c => ! decide (c = trim)) ≠ [] := by
      rw [Ne, List.dropWhile_eq_nil_iff]
      intro hall
      have hno := hall trim (List.mem_reverse.mpr hmem)
      rw [decide_eq_true rfl] at hno
      exact Bool.false_ne_true hno
    have hhead := List.head_dropWhile_not (fun c => ! decide (c = trim)) hne
    have hhead' := List.head_dropWhile_not (fun c => decide (c = trim)) (hrev ▸ hne)
    simp only [hrev] at hhead'
    rw [hhead'] at hhead
    exact absurd hhead (by decide)
  · rw [if_neg fun ⟨c, hc, htrim⟩ => hmem (of_decide_eq_true htrim ▸ hc)]
    exact iff_of_true (rtrim_char_free hmem) hmem

/-- **With a character** they agree where the character is not in the text. -/
theorem agree_char_iff (hs : NUL ∉ s) (trim : Byte) : Agree_Char trim s ↔ trim ∉ s := by
  have hl : ltrim_cstr_char trim s = ltrim_char trim s := ltrim_loop_eq hs
  constructor
  · exact fun h => (rtrim_char_agrees_iff trim s).mp h.rtrim
  · intro hmem
    have hkeep : ltrim_char trim s = s := by
      rw [ltrim_char, List.dropWhile_eq_self_iff]
      exact fun hpos htrim => hmem (of_decide_eq_true htrim ▸ List.getElem_mem hpos)
    have hr := (rtrim_char_agrees_iff trim s).mpr hmem
    refine ⟨hl.symm, hr, ?_⟩
    rw [trim_char, trim_cstr_char, hl, hkeep, ← hr, rtrim_char_free hmem, hkeep]

/-- **Where the overloads agree.**  With a map or a set, on the empty text and where some byte
    is kept, and with a map an `int` has to count the bytes around; with a character, where it
    is not in the text. -/
theorem trims_agree_iff (hs : NUL ∉ s) :
    (∀ cm : Char_Map, Agree cm s ↔ s = [] ∨ ((∃ c ∈ s, cm.has c = false) ∧
        (s.takeWhile cm.has).length < 2 ^ 31 ∧ (s.reverse.takeWhile cm.has).length < 2 ^ 31)) ∧
      (∀ trim : Bytes, Agree_Set trim s ↔ s = [] ∨ ∃ c ∈ s, c ∉ c_str trim) ∧
      ∀ trim : Byte, Agree_Char trim s ↔ trim ∉ s :=
  ⟨agree_iff hs, agree_set_iff hs, agree_char_iff hs⟩

theorem trims_agree_word : Agree_Set (lit " ") (lit " a ") ↔
    lit " a " = [] ∨ ∃ c ∈ lit " a ", c ∉ c_str (lit " ") :=
  (trims_agree_iff (by decide)).2.1 (lit " ")

/-- A space in front of a letter: the C string is cut behind it. -/
theorem trims_disagree_char :
    rtrim_cstr_char SP (lit " a") = lit " " ∧ rtrim_char SP (lit " a") = lit " a" ∧
      ¬ Agree_Char SP (lit " a") := by
  refine ⟨by decide, by decide, fun h => ?_⟩
  exact absurd h.rtrim (by decide)

end Agree

end Aos
