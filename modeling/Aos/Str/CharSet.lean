/-
  Aos.Str.CharSet — `Char_Map` as the algebra of byte sets.

  Operations on any number of maps are run beside the operations on sets that
  they stand for.  The operator `&` with a byte touches the slot of that byte
  alone, where the set it stands for has no other byte at all.

  Main results:
    • `bytes_step` — what an operation makes of the sets;
    • `maps_agree_iff` — a run of operations keeps to the sets exactly when every
      `&` with a byte is applied to bytes of its own slot.
-/
import Aos.Lib.Runs
import Aos.Str.CharMap

namespace Aos

namespace Char_Map

/-! ## §1. Operations on maps. -/

/-- What stands on the right of an operator: a byte or a map. -/
inductive Operand (ι : Type)
  | byte (c : Byte)
  | map (k : ι)

/-- An operation on the map `i`; `and_` and `or_` are the operators that make a new map. -/
inductive Op (ι : Type)
  | clear (i : ι)
  | set_char (i : ι) (ch : Byte)
  | set_cstr (i : ι) (cstr : Bytes)
  | set_buf (i : ι) (buf : Bytes)
  | invert (i : ι)
  | and_assign (i : ι) (rhs : Operand ι)
  | or_assign (i : ι) (rhs : Operand ι)
  | and_ (i j : ι) (rhs : Operand ι)
  | or_ (i j : ι) (rhs : Operand ι)

section Maps

variable {ι : Type} [DecidableEq ι] (maps : ι → Char_Map)

def and_operand (m : Char_Map) : Operand ι → Char_Map
  | .byte c => m.and_char c
  | .map k => m.and_map (maps k)

def or_operand (m : Char_Map) : Operand ι → Char_Map
  | .byte c => m.or_char c
  | .map k => m.or_map (maps k)

/-- The maps behind an operation. -/
def step : Op ι → ι → Char_Map
  | .clear i => Function.update maps i clear
  | .set_char i ch => Function.update maps i (set_char ch)
  | .set_cstr i cstr => Function.update maps i (set (c_str cstr))
  | .set_buf i buf => Function.update maps i (set buf)
  | .invert i => Function.update maps i (maps i).invert
  | .and_assign i rhs => Function.update maps i (and_operand maps (maps i) rhs)
  | .or_assign i rhs => Function.update maps i (or_operand maps (maps i) rhs)
  | .and_ i j rhs => Function.update maps i (and_operand maps (maps j) rhs)
  | .or_ i j rhs => Function.update maps i (or_operand maps (maps j) rhs)

end Maps

/-! ## §2. Operations on sets. -/

section Sets

variable {ι : Type} [DecidableEq ι] (sets : ι → Set Byte)

def operand_set : Operand ι → Set Byte
  | .byte c => {c}
  | .map k => sets k

/-- The sets behind the operation on sets. -/
def set_step : Op ι → ι → Set Byte
  | .clear i => Function.update sets i ∅
  | .set_char i ch => Function.update sets i {ch}
  | .set_cstr i cstr => Function.update sets i {c | c ∈ c_str cstr}
  | .set_buf i buf => Function.update sets i {c | c ∈ buf}
  | .invert i => Function.update sets i (sets i)ᶜ
  | .and_assign i rhs => Function.update sets i (sets i ∩ operand_set sets rhs)
  | .or_assign i rhs => Function.update sets i (sets i ∪ operand_set sets rhs)
  | .and_ i j rhs => Function.update sets i (sets j ∩ operand_set sets rhs)
  | .or_ i j rhs => Function.update sets i (sets j ∪ operand_set sets rhs)

end Sets

/-! ## §3. Maps beside sets. -/

/-- The bytes that a map holds. -/
def bytes (m : Char_Map) : Set Byte := {c | m.has c = true}

section Agree

variable {ι : Type}

/-- `has` is membership, and `operator==` is equality of the sets. -/
structure Agree (maps : ι → Char_Map) (sets : ι → Set Byte) : Prop where
  has : ∀ i c, (maps i).has c = true ↔ c ∈ sets i
  eq : ∀ i j, (maps i).eq_map (maps j) = true ↔ sets i = sets j

theorem bytes_eq_iff (m rhs : Char_Map) : m.bytes = rhs.bytes ↔ m.eq_map rhs = true := by
  rw [eq_map_iff, Set.ext_iff]
  exact forall_congr' fun c => Bool.eq_iff_iff.symm

/-- The maps agree with the sets of their bytes, and with no others. -/
theorem agree_iff (maps : ι → Char_Map) (sets : ι → Set Byte) :
    Agree maps sets ↔ ∀ i, (maps i).bytes = sets i := by
  constructor
  · intro h i
    exact Set.ext (h.has i)
  · intro h
    refine ⟨fun i c => ?_, fun i j => ?_⟩
    · rw [← h i]
      rfl
    · rw [← h i, ← h j, bytes_eq_iff]

/-- The bytes of the map all share the slot of `r`, its block of eight. -/
def In_Slot (m : Char_Map) (r : Byte) : Prop := ∀ c, m.has c = true → c.toNat / 8 = r.toNat / 8

theorem slot_eq_iff (c r : Byte) : slot c = slot r ↔ c.toNat / 8 = r.toNat / 8 := by
  rw [Fin.ext_iff]
  show c.toNat >>> 3 = r.toNat >>> 3 ↔ _
  rw [Nat.shiftRight_eq_div_pow, Nat.shiftRight_eq_div_pow]

theorem bytes_and_char_iff (m : Char_Map) (r : Byte) :
    (m.and_char r).bytes = m.bytes ∩ {r} ↔ m.In_Slot r := by
  constructor
  · intro h c hc
    rw [← slot_eq_iff]
    by_contra hslot
    have hboth : c ∈ (m.and_char r).bytes := by
      show (m.and_char r).has c = true
      rw [has_and_char, hc, decide_eq_true hslot, Bool.or_true, Bool.and_true]
    rw [h] at hboth
    exact hslot (congrArg slot hboth.2)
  · intro h
    ext c
    show (m.and_char r).has c = true ↔ m.has c = true ∧ c = r
    rw [has_and_char, Bool.and_eq_true, Bool.or_eq_true, decide_eq_true_iff, decide_eq_true_iff]
    refine and_congr_right fun hc => or_iff_left ?_
    rw [not_not, slot_eq_iff]
    exact h c hc

/-- The operand is a map, or the byte that the bytes of `m` share their slot with. -/
def Operand.Fits (m : Char_Map) : Operand ι → Prop
  | .byte r => m.In_Slot r
  | .map _ => True

/-- An operator `&` with a byte is applied to bytes of that byte's slot. -/
def Op.Fits (maps : ι → Char_Map) : Op ι → Prop
  | .and_assign i rhs => rhs.Fits (maps i)
  | .and_ _ j rhs => rhs.Fits (maps j)
  | _ => True

theorem bytes_and_operand_iff {maps : ι → Char_Map} {sets : ι → Set Byte}
    (h : ∀ k, (maps k).bytes = sets k) (j : ι) (rhs : Operand ι) :
    (and_operand maps (maps j) rhs).bytes = sets j ∩ operand_set sets rhs ↔ rhs.Fits (maps j) := by
  cases rhs with
  | byte r =>
      rw [← h j]
      exact bytes_and_char_iff (maps j) r
  | map k =>
      refine iff_of_true ?_ trivial
      rw [← h j]
      show _ = (maps j).bytes ∩ sets k
      rw [← h k]
      ext c
      show ((maps j).and_map (maps k)).has c = true ↔ (maps j).has c = true ∧ (maps k).has c = true
      rw [has_and_map, Bool.and_eq_true]

theorem bytes_or_operand {maps : ι → Char_Map} {sets : ι → Set Byte}
    (h : ∀ k, (maps k).bytes = sets k) (j : ι) (rhs : Operand ι) :
    (or_operand maps (maps j) rhs).bytes = sets j ∪ operand_set sets rhs := by
  rw [← h j]
  cases rhs with
  | byte r =>
      ext c
      show ((maps j).or_char r).has c = true ↔ (maps j).has c = true ∨ c = r
      rw [has_or_char, Bool.or_eq_true, decide_eq_true_iff]
  | map k =>
      show _ = (maps j).bytes ∪ sets k
      rw [← h k]
      ext c
      show ((maps j).or_map (maps k)).has c = true ↔ (maps j).has c = true ∨ (maps k).has c = true
      rw [has_or_map, Bool.or_eq_true]

theorem bytes_clear : clear.bytes = ∅ := by
  ext c
  show clear.has c = true ↔ False
  rw [has_clear]
  exact iff_false_intro Bool.false_ne_true

theorem bytes_set (buf : Bytes) : (set buf).bytes = {c | c ∈ buf} := by
  ext c
  show (set buf).has c = true ↔ c ∈ buf
  rw [has_set, decide_eq_true_iff]

theorem bytes_set_char (ch : Byte) : (set_char ch).bytes = {ch} := by
  ext c
  show (set_char ch).has c = true ↔ c = ch
  rw [has_set_char, decide_eq_true_iff]

theorem bytes_invert (m : Char_Map) : m.invert.bytes = m.bytesᶜ := by
  ext c
  show m.invert.has c = true ↔ ¬ m.has c = true
  rw [has_invert, Bool.not_eq_true', Bool.not_eq_true]

variable [DecidableEq ι]

/-- One map and one set are changed, and the others agree as before. -/
theorem bytes_update_iff {maps : ι → Char_Map} {sets : ι → Set Byte}
    (h : ∀ k, (maps k).bytes = sets k) (i : ι) (m : Char_Map) (s : Set Byte) :
    (∀ k, (Function.update maps i m k).bytes = Function.update sets i s k) ↔ m.bytes = s := by
  constructor
  · intro hall
    have hi := hall i
    rw [Function.update_self, Function.update_self] at hi
    exact hi
  · intro hm k
    by_cases hk : k = i
    · rw [hk, Function.update_self, Function.update_self, hm]
    · rw [Function.update_of_ne hk, Function.update_of_ne hk, h k]

/-- **One operation** on maps that agree with their sets. -/
theorem bytes_step {maps : ι → Char_Map} {sets : ι → Set Byte}
    (h : ∀ k, (maps k).bytes = sets k) (op : Op ι) :
    (∀ k, (step maps op k).bytes = set_step sets op k) ↔ op.Fits maps := by
  cases op with
  | clear i => exact iff_of_true ((bytes_update_iff h i _ _).mpr bytes_clear) trivial
  | set_char i ch => exact iff_of_true ((bytes_update_iff h i _ _).mpr (bytes_set_char ch)) trivial
  | set_cstr i cstr => exact iff_of_true ((bytes_update_iff h i _ _).mpr (bytes_set _)) trivial
  | set_buf i buf => exact iff_of_true ((bytes_update_iff h i _ _).mpr (bytes_set buf)) trivial
  | invert i =>
      refine iff_of_true ((bytes_update_iff h i _ _).mpr ?_) trivial
      rw [bytes_invert, h i]
  | and_assign i rhs => exact (bytes_update_iff h i _ _).trans (bytes_and_operand_iff h i rhs)
  | or_assign i rhs =>
      exact iff_of_true ((bytes_update_iff h i _ _).mpr (bytes_or_operand h i rhs)) trivial
  | and_ i j rhs => exact (bytes_update_iff h i _ _).trans (bytes_and_operand_iff h j rhs)
  | or_ i j rhs =>
      exact iff_of_true ((bytes_update_iff h i _ _).mpr (bytes_or_operand h j rhs)) trivial

/-- **Runs of operations**: the maps agree with the sets all along exactly when each `&` with
    a byte is applied to bytes of its slot. -/
theorem maps_agree_iff (maps : ι → Char_Map) (ops : List (Op ι)) :
    (∀ pre, pre <+: ops →
        Agree (pre.foldl step maps) (pre.foldl set_step fun i => (maps i).bytes)) ↔
      ∀ pre op, pre ++ [op] <+: ops → op.Fits (pre.foldl step maps) := by
  have hiff := Lib.Runs.foldl_iff_meets (maps, fun i => (maps i).bytes)
    (fun (p : (ι → Char_Map) × (ι → Set Byte)) (op : Op ι) => (step p.1 op, set_step p.2 op))
    (fun p => Agree p.1 p.2) (fun p => ∀ k, (p.1 k).bytes = p.2 k) (fun p op => op.Fits p.1)
    (fun _ => rfl) (fun p h => (agree_iff p.1 p.2).mpr h)
    (fun p op h hfits => (bytes_step h op).mpr hfits)
    (fun p op h hnot hagree => hnot ((bytes_step h op).mp ((agree_iff _ _).mp hagree))) ops
  simp only [Lib.Runs.foldl_pair] at hiff
  exact hiff

/-- The letters 'a' and 'A' of a map, and the operator with 'a': both letters stay. -/
theorem maps_agree_two_letters :
    ¬ ∀ ops : List (Op Unit),
      Agree (ops.foldl step fun _ => clear) (ops.foldl set_step fun _ => clear.bytes) := by
  intro h
  have hagree := h [.set_buf () (lit "aA"), .and_assign () (.byte 97)]
  have hA := (hagree.has () 65).mp (by decide +kernel)
  have hsame : (65 : Byte) = 97 := hA.2
  exact absurd hsame (by decide)

end Agree

end Char_Map

end Aos
