/-
  Aos.Str.CharMap — `Char_Map`, the 256-bit byte set behind the tokenizers,
  the trims and the hex test of the quoted-printable decoder.

  **`has_set`**: after `set(buf, len)` the map holds exactly the bytes of the
  buffer, so callers reason about membership in a list and never about bits.
  **`has_and_map`**, **`has_or_map`**, **`has_invert`**: the operators on maps are
  those of sets; **`has_and_char`** says what the one with a byte leaves.
-/
import Aos.Byte
import Mathlib.Data.FinEnum
import Mathlib.Data.Nat.Bitwise

namespace Aos

structure Char_Map where
  map_ : Vector Byte 32
  deriving DecidableEq

namespace Char_Map

theorem slot_lt (ch : Byte) : ch.toNat >>> 3 < 32 := by
  have := ch.toNat_lt
  rw [Nat.shiftRight_eq_div_pow]
  omega

/-- `ch >> 3`. -/
def slot (ch : Byte) : Fin 32 := ⟨ch.toNat >>> 3, slot_lt ch⟩

/-- `1 << (ch & 7)`. -/
def bit (ch : Byte) : Byte := 1 <<< (ch &&& 7)

def clear : Char_Map := ⟨Vector.replicate 32 0⟩

def has (m : Char_Map) (ch : Byte) : Bool := m.map_[slot ch] &&& bit ch ≠ 0

/-- `operator|=(const unsigned char)`. -/
def or_char (m : Char_Map) (rhs : Byte) : Char_Map :=
  ⟨m.map_.set (slot rhs) (m.map_[slot rhs] ||| bit rhs)⟩

/-- `set(buf, len)`; `set(cstr)` is the same over the bytes before the NUL. -/
def set (buf : Bytes) : Char_Map := buf.foldl or_char clear

/-- `set(ch)`. -/
def set_char (ch : Byte) : Char_Map := ⟨clear.map_.set (slot ch) (bit ch)⟩

/-- `invert()`: every bit of the map is turned. -/
def invert (m : Char_Map) : Char_Map := ⟨m.map_.map (· ^^^ (255 : Byte))⟩

/-- `operator==`. -/
def eq_map (m rhs : Char_Map) : Bool := m.map_ = rhs.map_

/-- `operator&=(const Char_Map&)`. -/
def and_map (m rhs : Char_Map) : Char_Map := ⟨m.map_.zipWith (· &&& ·) rhs.map_⟩

/-- `operator|=(const Char_Map&)`. -/
def or_map (m rhs : Char_Map) : Char_Map := ⟨m.map_.zipWith (· ||| ·) rhs.map_⟩

/-- `operator&=(const unsigned char)`. -/
def and_char (m : Char_Map) (rhs : Byte) : Char_Map :=
  ⟨m.map_.set (slot rhs) (m.map_[slot rhs] &&& bit rhs)⟩

/-! ## Bits of one slot. -/

theorem bit_ne_zero : ∀ c : Byte, bit c ≠ 0 := by decide +kernel

/-- Two bits of one slot overlap only when they are the same bit. -/
theorem bit_and_bit (c r : Byte) : bit r &&& bit c = if c &&& 7 = r &&& 7 then bit c else 0 := by
  have key : ∀ k < (8 : Nat), ∀ l < (8 : Nat),
      ((1 : Byte) <<< (UInt8.ofNat l)) &&& (1 <<< (UInt8.ofNat k))
        = if (UInt8.ofNat k) = UInt8.ofNat l then 1 <<< (UInt8.ofNat k) else 0 := by
    decide
  have low (b : Byte) : (b &&& 7).toNat < 8 := by
    simp only [UInt8.toNat_and, UInt8.reduceToNat]
    exact Nat.lt_of_le_of_lt Nat.and_le_right (by decide)
  have := key (c &&& 7).toNat (low c) (r &&& 7).toNat (low r)
  simp only [UInt8.ofNat_toNat] at this
  exact this

/-- Slot and bit together name the byte. -/
theorem eq_of_slot_bit {c r : Byte} (hs : slot c = slot r) (hb : c &&& 7 = r &&& 7) : c = r := by
  have h1 : c.toNat / 8 = r.toNat / 8 := by
    have := congrArg Fin.val hs
    simpa only [slot, Nat.shiftRight_eq_div_pow] using this
  have h2 : c.toNat % 8 = r.toNat % 8 := by
    have := congrArg UInt8.toNat hb
    have h7 : (7 : Nat) = 2 ^ 3 - 1 := rfl
    simpa only [UInt8.toNat_and, UInt8.reduceToNat, h7, Nat.and_two_pow_sub_one_eq_mod]
      using this
  rw [← UInt8.toNat_inj]
  omega

@[simp] theorem has_clear (c : Byte) : clear.has c = false := by
  simp [has, clear]

/-- **Adding a byte adds that byte and no other.** -/
@[simp] theorem has_or_char (m : Char_Map) (r c : Byte) :
    (m.or_char r).has c = (m.has c || decide (c = r)) := by
  by_cases hs : slot c = slot r
  · have hdist : (m.map_[slot c] ||| bit r) &&& bit c
        = (m.map_[slot c] &&& bit c) ||| (bit r &&& bit c) := by
      rw [← UInt8.toNat_inj]
      simp only [UInt8.toNat_and, UInt8.toNat_or, Nat.and_or_distrib_right]
    have hget : (m.or_char r).map_[slot c] = m.map_[slot c] ||| bit r := by
      simp [or_char, hs]
    unfold has
    rw [hget, hdist, bit_and_bit]
    by_cases hb : c &&& 7 = r &&& 7
    · have hcr := eq_of_slot_bit hs hb
      simp [hcr, bit_ne_zero]
    · have hcr : c ≠ r := fun h => hb (by rw [h])
      simp [hb, hcr]
  · have hcr : c ≠ r := fun h => hs (by rw [h])
    have hne : (slot r : Nat) ≠ (slot c : Nat) := fun h => hs (Fin.ext h.symm)
    have hget : (m.or_char r).map_[slot c] = m.map_[slot c] := by
      simp [or_char, hne]
    unfold has
    rw [hget]
    simp [hcr]

/-- **`set` builds the set of the bytes it is given.** -/
@[simp] theorem has_set (buf : Bytes) (c : Byte) : (set buf).has c = decide (c ∈ buf) := by
  have fold : ∀ (buf : Bytes) (m : Char_Map),
      (buf.foldl or_char m).has c = (m.has c || decide (c ∈ buf)) := by
    intro buf
    induction buf with
    | nil => intro m; simp
    | cons b rest ih =>
        intro m
        rw [List.foldl_cons, ih, has_or_char]
        by_cases hb : c = b
        · simp [hb]
        · simp [hb]
  rw [set, fold, has_clear, Bool.false_or]

/-! ## The operators. -/

theorem toNat_bit : ∀ c : Byte, (bit c).toNat = 2 ^ (c.toNat % 8) := by decide +kernel

/-- A byte is held where its bit of its slot is set. -/
theorem has_eq_testBit (m : Char_Map) (c : Byte) :
    m.has c = m.map_[slot c].toNat.testBit (c.toNat % 8) := by
  have hpos := Nat.two_pow_pos (c.toNat % 8)
  have hnone : m.map_[slot c] &&& bit c = 0
      ↔ m.map_[slot c].toNat.testBit (c.toNat % 8) = false := by
    rw [← UInt8.toNat_inj, UInt8.toNat_and, toNat_bit, Nat.and_two_pow]
    cases m.map_[slot c].toNat.testBit (c.toNat % 8) with
    | false => simp
    | true => simp
  unfold has
  rw [Bool.eq_iff_iff, decide_eq_true_iff, ne_eq, hnone, Bool.not_eq_false]

theorem set_char_eq (ch : Byte) : set_char ch = clear.or_char ch := by
  have hzero : clear.map_[slot ch] = 0 := Vector.getElem_replicate _
  unfold set_char or_char
  rw [hzero, UInt8.zero_or]

@[simp] theorem has_set_char (ch c : Byte) : (set_char ch).has c = decide (c = ch) := by
  rw [set_char_eq, has_or_char, has_clear, Bool.false_or]

/-- The map that is inverted holds the bytes the map does not hold. -/
@[simp] theorem has_invert (m : Char_Map) (c : Byte) : m.invert.has c = ! m.has c := by
  have key : ∀ b : Byte, ∀ k < (8 : Nat),
      decide ((b ^^^ (255 : Byte)) &&& ((1 : Byte) <<< UInt8.ofNat k) ≠ (0 : Byte))
        = ! decide (b &&& ((1 : Byte) <<< UInt8.ofNat k) ≠ (0 : Byte)) := by
    decide +kernel
  have hlow : (c &&& 7).toNat < 8 := by
    rw [UInt8.toNat_and]
    exact Nat.lt_of_le_of_lt Nat.and_le_right (by decide)
  have hbit := key m.map_[slot c] (c &&& 7).toNat hlow
  rw [UInt8.ofNat_toNat] at hbit
  unfold has invert
  rw [Fin.getElem_fin, Vector.getElem_map]
  exact hbit

@[simp] theorem has_and_map (m rhs : Char_Map) (c : Byte) :
    (m.and_map rhs).has c = (m.has c && rhs.has c) := by
  have hget : (m.and_map rhs).map_[slot c] = m.map_[slot c] &&& rhs.map_[slot c] :=
    Vector.getElem_zipWith ..
  rw [has_eq_testBit, has_eq_testBit, has_eq_testBit, hget, UInt8.toNat_and, Nat.testBit_and]

@[simp] theorem has_or_map (m rhs : Char_Map) (c : Byte) :
    (m.or_map rhs).has c = (m.has c || rhs.has c) := by
  have hget : (m.or_map rhs).map_[slot c] = m.map_[slot c] ||| rhs.map_[slot c] :=
    Vector.getElem_zipWith ..
  rw [has_eq_testBit, has_eq_testBit, has_eq_testBit, hget, UInt8.toNat_or, Nat.testBit_or]

/-- **The operator with a byte** clears the other bits of the byte's slot, and leaves the
    other slots alone. -/
theorem has_and_char (m : Char_Map) (r c : Byte) :
    (m.and_char r).has c = (m.has c && (decide (c = r) || decide (slot c ≠ slot r))) := by
  by_cases hs : slot c = slot r
  · have hget : (m.and_char r).map_[slot c] = m.map_[slot c] &&& bit r := by
      simp [and_char, hs]
    have hassoc : m.map_[slot c] &&& bit r &&& bit c = m.map_[slot c] &&& (bit r &&& bit c) :=
      UInt8.and_assoc ..
    unfold has
    rw [hget, hassoc, bit_and_bit]
    by_cases hb : c &&& 7 = r &&& 7
    · rw [if_pos hb, decide_eq_true (eq_of_slot_bit hs hb), Bool.true_or, Bool.and_true]
    · have hcr : c ≠ r := fun h => hb (by rw [h])
      simp [hb, hcr, hs]
  · have hcr : c ≠ r := fun h => hs (by rw [h])
    have hne : (slot r : Nat) ≠ (slot c : Nat) := fun h => hs (Fin.ext h.symm)
    have hget : (m.and_char r).map_[slot c] = m.map_[slot c] := by
      simp [and_char, hne]
    unfold has
    rw [hget, decide_eq_true hs, Bool.or_true, Bool.and_true]

/-- **Maps that hold the same bytes are the same.** -/
theorem ext_has {m rhs : Char_Map} (h : ∀ c, m.has c = rhs.has c) : m = rhs := by
  obtain ⟨v⟩ := m
  obtain ⟨w⟩ := rhs
  congr 1
  refine Vector.ext fun k hk => ?_
  rw [← UInt8.toNat_inj]
  refine Nat.eq_of_testBit_eq fun j => ?_
  by_cases hj : j < 8
  · -- the byte that has this bit of this slot
    have hval : (UInt8.ofNat (8 * k + j)).toNat = 8 * k + j :=
      UInt8.toNat_ofNat_of_lt' (by show 8 * k + j < 256; omega)
    have hslot : slot (UInt8.ofNat (8 * k + j)) = ⟨k, hk⟩ := by
      apply Fin.ext
      show (UInt8.ofNat (8 * k + j)).toNat >>> 3 = k
      rw [hval, Nat.shiftRight_eq_div_pow]
      omega
    have hmod : (8 * k + j) % 8 = j := by omega
    have hbyte := h (UInt8.ofNat (8 * k + j))
    rw [has_eq_testBit, has_eq_testBit, hval, hmod] at hbyte
    simp only [hslot] at hbyte
    exact hbyte
  · have hle : 2 ^ 8 ≤ 2 ^ j := Nat.pow_le_pow_right (by decide) (by omega)
    rw [Nat.testBit_lt_two_pow ((v[k]).toNat_lt.trans_le hle),
      Nat.testBit_lt_two_pow ((w[k]).toNat_lt.trans_le hle)]

theorem eq_map_iff (m rhs : Char_Map) : m.eq_map rhs = true ↔ ∀ c, m.has c = rhs.has c := by
  unfold eq_map
  rw [decide_eq_true_iff]
  constructor
  · intro h c
    unfold has
    rw [h]
  · intro h
    rw [ext_has h]

end Char_Map

end Aos
