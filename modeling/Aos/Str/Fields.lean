/-
  Aos.Str.Fields — the fields of a text, empty ones too.

  `next(0)` does not skip separators.  A field with bytes in it ends before its
  separator, and the call gives that byte as an `unsigned char`; an empty one ends
  behind it, and the call gives the byte as a `char`.

  Main results:
    • `next_field` — what the call does where a field begins;
    • `next_fields` — the calls give the fields and their separators exactly where
      no empty field is ended by a byte from 0x80 on;
    • `next_fields_of_low` — with separators below 0x80 they always do.
-/
import Aos.Str.TokenizerWalk

namespace Aos.Char_Tokenizer

open Lib.Spans

/-! ## §1. The fields. -/

/-- What stands between the separators, each with the separator behind it, and `Last`
    behind the last one; that one is left out where it is empty. -/
def fields (cm : Char_Map) (str : Bytes) : List (Bytes × Int) :=
  ((str.splitOnP cm.has).zip ((str.filter cm.has).map (fun c => (c.toNat : Int)) ++ [Last])).filter
    fun field => decide (field ≠ ([], Last))

section Fields

variable {cm : Char_Map}

/-- A text is a field, or a field, its separator and a text. -/
theorem field_induction (cm : Char_Map) {motive : Bytes → Prop}
    (last : ∀ w, (∀ c ∈ w, cm.has c = false) → motive w)
    (field : ∀ w c s, (∀ c ∈ w, cm.has c = false) → cm.has c = true → motive s →
      motive (w ++ c :: s)) (s : Bytes) : motive s := by
  induction hn : s.length using Nat.strong_induction_on generalizing s with
  | _ n ih =>
      have hfree : ∀ c ∈ s.takeWhile (fun c => ! cm.has c), cm.has c = false := fun c hc => by
        simpa using List.mem_takeWhile_imp hc
      cases hrest : s.dropWhile (fun c => ! cm.has c) with
      | nil =>
          refine last s fun c hc => ?_
          rw [← List.takeWhile_append_dropWhile (p := fun c => ! cm.has c) (l := s), hrest,
            List.append_nil] at hc
          exact hfree c hc
      | cons c v =>
          have hs : s = s.takeWhile (fun c => ! cm.has c) ++ c :: v := by
            rw [← hrest, List.takeWhile_append_dropWhile]
          have hsep : cm.has c = true := by
            have hhead := List.head_dropWhile_not (fun c => ! cm.has c) (l := s) (by simp [hrest])
            simpa [hrest] using hhead
          have hlt : v.length < n := by
            rw [← hn, hs, List.length_append, List.length_cons]
            omega
          rw [hs]
          exact field _ c v hfree hsep (ih v.length hlt v rfl)

theorem filter_free {w : Bytes} (hw : ∀ c ∈ w, cm.has c = false) : w.filter cm.has = [] := by
  rw [List.filter_eq_nil_iff]
  intro c hc
  rw [hw c hc]
  decide

/-- The last field. -/
theorem fields_last {w : Bytes} (hw : ∀ c ∈ w, cm.has c = false) :
    fields cm w = if w = [] then [] else [(w, Last)] := by
  have hzip : fields cm w = [(w, Last)].filter fun field => decide (field ≠ ([], Last)) := by
    rw [fields, List.splitOnP_eq_singleton hw, filter_free hw]
    rfl
  rw [hzip]
  by_cases h : w = []
  · rw [if_pos h, h]
    decide
  · rw [if_neg h, List.filter_cons_of_pos (by simpa using h), List.filter_nil]

/-- A field, and those behind its separator. -/
theorem fields_cons {w s : Bytes} {c : Byte} (hw : ∀ c ∈ w, cm.has c = false)
    (hc : cm.has c = true) : fields cm (w ++ c :: s) = (w, (c.toNat : Int)) :: fields cm s := by
  have hkeep : decide ((w, (c.toNat : Int)) ≠ ([], Last)) = true := by
    refine decide_eq_true fun h => ?_
    have hcode : (c.toNat : Int) = -1 := congrArg Prod.snd h
    omega
  have hfilter : (w ++ c :: s).filter cm.has = c :: s.filter cm.has := by
    rw [List.filter_append, filter_free hw, List.nil_append, List.filter_cons_of_pos hc]
  unfold fields
  rw [List.splitOnP_append_cons_of_forall_mem hw c hc, hfilter, List.map_cons, List.cons_append,
    List.zip_cons_cons]
  exact List.filter_cons_of_pos (p := fun field => decide (field ≠ ([], Last))) hkeep

end Fields

/-! ## §2. A call. -/

/-- The place where `next` and `prev` go on. -/
def starts (t : Pointers) : Int := if t.beg_ < t.end_ then t.end_ + 1 else t.beg_

/-- `token()` and `size()`. -/
def token_at (str : Bytes) (t : Pointers) : Bytes :=
  (str.drop t.beg_.toNat).take (t.end_ - t.beg_).toNat

/-- A call has given this field, or said that there are no more. -/
def Reports_Field (str : Bytes) (r : Pointers × Int) : Option (Bytes × Int) → Prop
  | some (text, code) => token_at str r.1 = text ∧ r.2 = code
  | none => r.2 = End

section Calls

variable {cm : Char_Map} {str : Bytes} (around : Int → Byte)

/-- The byte as the call returns it. -/
def separator_code (w : Bytes) (c : Byte) : Int := if w = [] then schar c else c.toNat

/-- It is the byte's value, except from 0x80 on behind an empty field. -/
theorem separator_code_eq_iff (w : Bytes) (c : Byte) :
    separator_code w c = c.toNat ↔ (w = [] → c.toNat < 128) := by
  have hlt := c.toNat_lt
  unfold separator_code
  split_ifs with hw
  · rw [forall_prop_of_true hw, schar]
    split_ifs <;> omega
  · exact ⟨fun _ h => absurd h hw, fun _ => rfl⟩

theorem takeWhile_free {w s : Bytes} {c : Byte} (hw : ∀ c ∈ w, cm.has c = false)
    (hc : cm.has c = true) : (w ++ c :: s).takeWhile (fun c => ! cm.has c) = w := by
  rw [List.takeWhile_append_of_pos (fun b hb => by rw [hw b hb]; rfl),
    List.takeWhile_cons_of_neg (by rw [hc]; decide), List.append_nil]

/-- **A call where a field begins** that has a separator behind it. -/
theorem next_field {w s : Bytes} {c : Byte} {k : Nat} {t : Pointers} (ht : starts t = k)
    (hk : str.drop k = w ++ c :: s) (hw : ∀ c ∈ w, cm.has c = false) (hc : cm.has c = true) :
    let r := next_with cm str around false none t
    token_at str r.1 = w ∧ r.2 = separator_code w c ∧ starts r.1 = (k + w.length + 1 : Nat) := by
  intro r
  have hstart : (if t.beg_ < t.end_ then t.end_ + 1 else t.beg_) = (k : Int) := ht
  cases w with
  | nil =>
      -- an empty field: both pointers go behind the separator
      obtain ⟨hat, hlt, -⟩ := byte_at_cons around k hk
      have hlt' : (k : Int) < str.length := by omega
      have hsep : on_separator cm str around k = true := by
        rw [on_separator, hat]
        exact hc
      have hr : r = (⟨k + 1, k + 1⟩, schar c) := by
        show next_with cm str around false none t = _
        unfold next_with
        dsimp only
        rw [hstart, if_pos (And.intro rfl (And.intro hsep hlt')), hat]
      rw [hr]
      refine ⟨?_, (if_pos rfl).symm, ?_⟩
      · rw [token_at, Int.sub_self]
        rfl
      · rw [starts, if_neg (lt_irrefl _), List.length_nil]
        rfl
  | cons a w =>
      obtain ⟨hat, -, -⟩ := byte_at_cons around k (hk.trans (List.cons_append ..))
      have hsplit : str.drop (k + (a :: w).length) = c :: s := by
        rw [← List.drop_drop, hk, List.drop_left]
      obtain ⟨hat', hlt', -⟩ := byte_at_cons around (k + (a :: w).length) hsplit
      have hstop : up (fun p => ! on_separator cm str around p) str.length k
          = (k + (a :: w).length : Nat) := by
        rw [← takeWhile_free (s := s) hw hc]
        exact up_bytes around (fun c => ! cm.has c) _ k hk
      have hr : r = ((⟨k, (k + (a :: w).length : Nat)⟩ : Pointers), (c.toNat : Int)) := by
        show next_with cm str around false none t = _
        unfold next_with
        dsimp only
        rw [hstart, if_neg, if_neg Bool.false_ne_true, hstop, if_pos (by omega), hat']
        rw [on_separator, hat, hw a List.mem_cons_self]
        exact fun h => Bool.false_ne_true h.2.1
      have hlen : 0 < (a :: w).length := Nat.succ_pos _
      rw [hr]
      refine ⟨?_, (if_neg (List.cons_ne_nil a w)).symm, ?_⟩
      · have hsize : ((k + (a :: w).length : Nat) - (k : Int)).toNat = (a :: w).length := by omega
        rw [token_at, Int.toNat_natCast, hk, hsize, List.take_left]
      · rw [starts, if_pos (by show (k : Int) < (k + (a :: w).length : Nat); omega)]
        rfl

/-- **A call where the last field begins.** -/
theorem next_last_field {w : Bytes} {k : Nat} {t : Pointers} (ht : starts t = k)
    (hk : str.drop k = w) (hw : ∀ c ∈ w, cm.has c = false) :
    let r := next_with cm str around false none t
    Reports_Field str r (fields cm w)[0]? ∧
      ∃ j : Nat, starts r.1 = j ∧ str.drop j = [] := by
  intro r
  have hstart : (if t.beg_ < t.end_ then t.end_ + 1 else t.beg_) = (k : Int) := ht
  have hwhile : w.takeWhile (fun c => ! cm.has c) = w :=
    List.takeWhile_eq_self_iff.mpr fun c hc => by rw [hw c hc]; rfl
  have hstop : up (fun p => ! on_separator cm str around p) str.length k
      = (k + w.length : Nat) := by
    have hup := up_bytes around (fun c => ! cm.has c) w k hk
    rwa [hwhile] at hup
  have hno : ¬ (on_separator cm str around k = true ∧ (k : Int) < str.length) := by
    rintro ⟨hsep, hlt⟩
    cases w with
    | nil =>
        have hle := List.drop_eq_nil_iff.mp hk
        omega
    | cons a w =>
        rw [on_separator, (byte_at_cons around k hk).1, hw a List.mem_cons_self] at hsep
        exact Bool.false_ne_true hsep
  have hlen : w.length = str.length - k := by rw [← hk, List.length_drop]
  have hr : r = ((⟨k, (k + w.length : Nat)⟩ : Pointers), if w = [] then End else Last) := by
    show next_with cm str around false none t = _
    unfold next_with
    dsimp only
    rw [hstart, if_neg (fun h => hno h.2), if_neg Bool.false_ne_true, hstop, if_neg (by omega)]
    by_cases h : w = []
    · rw [if_pos h, if_neg]
      rw [h]
      exact fun hlast => hlast.2 rfl
    · have hpos := List.length_pos_iff.mpr h
      rw [if_neg h, if_pos ⟨by omega, by omega⟩]
  rw [hr, fields_last hw]
  by_cases h : w = []
  · refine ⟨?_, k, ?_, hk.trans h⟩
    · rw [if_pos h, if_pos h]
      rfl
    · rw [h]
      exact if_neg (lt_irrefl _)
  · have hpos := List.length_pos_iff.mpr h
    refine ⟨?_, k + w.length + 1, ?_, List.drop_eq_nil_of_le (by omega)⟩
    · have hsize : ((k + w.length : Nat) - (k : Int)).toNat = w.length := by omega
      rw [if_neg h, if_neg h]
      refine ⟨?_, rfl⟩
      rw [token_at, Int.toNat_natCast, hk, hsize, List.take_length]
    · rw [starts, if_pos (by show (k : Int) < (k + w.length : Nat); omega)]
      rfl

/-! ## §3. All the calls. -/

/-- Behind the last field every call says that there are no more. -/
theorem next_no_field (i : Nat) : ∀ (t : Pointers) (k : Nat), starts t = k → str.drop k = [] →
    Reports_Field str (calls (next_with cm str around false none) i t) none := by
  induction i with
  | zero =>
      intro t k ht hk
      exact (next_last_field around ht hk (fun c hc => absurd hc List.not_mem_nil)).1
  | succ i ih =>
      intro t k ht hk
      have hfree : ∀ c ∈ ([] : Bytes), cm.has c = false := fun c hc => absurd hc List.not_mem_nil
      obtain ⟨-, j, hj, hnil⟩ := next_last_field around ht hk hfree
      exact ih _ j hj hnil

/-- No byte from 0x80 on ends an empty field: no separator with such a value stands at
    the start or directly behind another separator. -/
def Low_Behind_Separators (cm : Char_Map) (str : Bytes) : Prop :=
  ∀ (k : Nat) (c : Byte), str[k]? = some c → cm.has c = true →
    (k = 0 ∨ (str[k - 1]?.map cm.has) = some true) → c.toNat < 128

theorem low_free {w : Bytes} (hw : ∀ c ∈ w, cm.has c = false) : Low_Behind_Separators cm w := by
  intro k c hk hc _
  rw [hw c (List.mem_of_getElem? hk)] at hc
  exact absurd hc Bool.false_ne_true

theorem low_cons {w s : Bytes} {c : Byte} (hw : ∀ c ∈ w, cm.has c = false) (hc : cm.has c = true) :
    Low_Behind_Separators cm (w ++ c :: s) ↔
      (w = [] → c.toNat < 128) ∧ Low_Behind_Separators cm s := by
  have hat : (w ++ c :: s)[w.length]? = some c := by
    rw [List.getElem?_append_right le_rfl, Nat.sub_self]
    rfl
  have hbehind : ∀ j, (w ++ c :: s)[w.length + 1 + j]? = s[j]? := by
    intro j
    rw [List.getElem?_append_right (by omega),
      show w.length + 1 + j - w.length = j + 1 from by omega, List.getElem?_cons_succ]
  constructor
  · intro hlow
    refine ⟨fun hnil => hlow w.length c hat hc (Or.inl (by rw [hnil]; rfl)), ?_⟩
    intro j d hj hd hfront
    refine hlow (w.length + 1 + j) d ((hbehind j).trans hj) hd (Or.inr ?_)
    by_cases h0 : j = 0
    · rw [h0, Nat.add_zero, Nat.add_sub_cancel, hat, Option.map_some, hc]
    · rw [show w.length + 1 + j - 1 = w.length + 1 + (j - 1) from by omega, hbehind]
      exact hfront.resolve_left h0
  · rintro ⟨hfirst, hlow⟩ k d hk hd hfront
    rcases lt_trichotomy k w.length with hlt | rfl | hgt
    · -- no separator in the field
      rw [List.getElem?_append_left hlt] at hk
      rw [hw d (List.mem_of_getElem? hk)] at hd
      exact absurd hd Bool.false_ne_true
    · obtain rfl := Option.some.inj (hat.symm.trans hk)
      refine hfirst (List.length_eq_zero_iff.mp ?_)
      rcases hfront with h0 | hsep
      · exact h0
      · by_contra hpos
        have hlt : w.length - 1 < w.length := by omega
        have hmem : (w ++ c :: s)[w.length - 1]? = some w[w.length - 1] := by
          rw [List.getElem?_append_left hlt, List.getElem?_eq_getElem]
        rw [hmem, Option.map_some, hw _ (List.getElem_mem _)] at hsep
        exact absurd hsep (by decide)
    · obtain ⟨j, rfl⟩ : ∃ j, k = w.length + 1 + j := ⟨k - (w.length + 1), by omega⟩
      refine hlow j d ((hbehind j).symm.trans hk) hd ?_
      by_cases h0 : j = 0
      · exact Or.inl h0
      · refine Or.inr ?_
        rw [← hbehind, show w.length + 1 + (j - 1) = w.length + 1 + j - 1 from by omega]
        exact hfront.resolve_left (by omega)

/-- The calls from where a field begins. -/
theorem next_fields_from (s : Bytes) : ∀ (t : Pointers) (k : Nat), starts t = k →
    str.drop k = s →
    ((∀ i, Reports_Field str (calls (next_with cm str around false none) i t) (fields cm s)[i]?)
      ↔ Low_Behind_Separators cm s) := by
  induction s using field_induction cm with
  | last w hw =>
      intro t k ht hk
      obtain ⟨hreport, j, hj, hnil⟩ := next_last_field around ht hk hw
      refine iff_of_true (fun i => ?_) (low_free hw)
      cases i with
      | zero => exact hreport
      | succ i =>
          have hnone : (fields cm w)[i + 1]? = none := by
            rw [List.getElem?_eq_none]
            rw [fields_last hw]
            split_ifs
            · exact Nat.zero_le _
            · exact Nat.succ_le_succ (Nat.zero_le i)
          rw [hnone]
          exact next_no_field around i _ j hj hnil
  | field w c s hw hc ih =>
      intro t k ht hk
      obtain ⟨htext, hcode, hnext⟩ := next_field around ht hk hw hc
      have hrest : str.drop (k + w.length + 1) = s := by
        rw [Nat.add_assoc, ← List.drop_drop, hk, ← List.drop_drop, List.drop_left]
        rfl
      rw [fields_cons hw hc, low_cons hw hc, ← ih _ _ hnext hrest, ← separator_code_eq_iff]
      constructor
      · intro h
        exact ⟨hcode.symm.trans (h 0).2, fun i => h (i + 1)⟩
      · rintro ⟨hfirst, hothers⟩ i
        cases i with
        | zero => exact ⟨htext, hcode.trans hfirst⟩
        | succ i => exact hothers i

/-- **The calls of `next(0)`** give the fields of the text, each with its separator's
    value, and then say that there are no more, exactly where no byte from 0x80 on ends an
    empty field. -/
theorem next_fields (cm : Char_Map) (str : Bytes) (around : Int → Byte) :
    (∀ i, Reports_Field str (calls (next_with cm str around false none) i ⟨0, 0⟩)
        (fields cm str)[i]?) ↔ Low_Behind_Separators cm str :=
  next_fields_from around str ⟨0, 0⟩ 0 rfl rfl

/-- An empty field that 0xFE ends, in front of another one: the first call says that there
    are no fields. -/
theorem next_fields_high : ¬ ∀ (cm : Char_Map) (str : Bytes) (around : Int → Byte) (i : Nat),
    Reports_Field str (calls (next_with cm str around false none) i ⟨0, 0⟩)
      (fields cm str)[i]? := by
  intro h
  have hhas : (Char_Map.set [0xFE]).has 0xFE = true := by
    rw [Char_Map.has_set]
    decide
  have hlow := (next_fields_from (fun _ => NUL) _ ⟨0, 0⟩ 0 rfl
    (rfl : ([0xFE, 0x61] : Bytes).drop 0 = [0xFE, 0x61])).mp
    (h (Char_Map.set [0xFE]) [0xFE, 0x61] fun _ => NUL)
  exact absurd (hlow 0 0xFE rfl hhas (Or.inl rfl)) (by decide)

/-- With separators below 0x80 the calls always give the fields. -/
theorem next_fields_of_low (h : ∀ c, cm.has c = true → c.toNat < 128) (i : Nat) :
    Reports_Field str (calls (next_with cm str around false none) i ⟨0, 0⟩)
      (fields cm str)[i]? :=
  (next_fields_from around str ⟨0, 0⟩ 0 rfl rfl).mpr (fun _ c _ hc _ => h c hc) i

end Calls

end Aos.Char_Tokenizer
