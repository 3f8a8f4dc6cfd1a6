/-
  Aos.Str.MultiString — `Multi_String`, a list of strings in one buffer.

  `offs_` holds the offset of every entry and `strs_` the entries themselves,
  each with a NUL behind it.  Every mutator edits the buffer and then repairs
  the offsets of the later entries by a signed delta.

  The component is for one thing, a list of byte strings; `ref` says what each
  operation does to that list.  **`multi_string_refines`**: from the empty
  container, any sequence of operations keeps `offs_` and `strs_` the packed
  form of the reference list, as long as the strings take less than 2³¹ bytes.
-/
import Aos.Byte
import Aos.Lib.Packed

namespace Aos

open Lib.Packed

/-! ## §1. The container. -/

structure Multi_String where
  offs_ : List Nat
  strs_ : Bytes
  deriving DecidableEq

/-- `size_t` arithmetic. -/
def size_add (n : Nat) (d : Int) : Nat := ((n + d) % 2 ^ 64).toNat

/-- `std::string::erase(pos, n)`; `none` is `std::out_of_range`. -/
def str_erase (s : Bytes) (pos n : Nat) : Option Bytes :=
  if pos ≤ s.length then some (s.take pos ++ s.drop (pos + n)) else none

/-- `std::string::insert(pos, str)`. -/
def str_insert (s : Bytes) (pos : Nat) (str : Bytes) : Option Bytes :=
  if pos ≤ s.length then some (s.take pos ++ str ++ s.drop pos) else none

/-- `std::string::replace(pos, n, str)`. -/
def str_replace (s : Bytes) (pos n : Nat) (str : Bytes) : Option Bytes :=
  if pos ≤ s.length then some (s.take pos ++ str ++ s.drop (pos + n)) else none

namespace Multi_String

def new : Multi_String := ⟨[], []⟩

def empty (m : Multi_String) : Bool := m.offs_.isEmpty

def count (m : Multi_String) : Nat := m.offs_.length

/-- `capacity(idx)`: the entry with its NUL, `0` when there is none. -/
def capacity (m : Multi_String) (idx : Nat) : Nat :=
  if idx < m.offs_.length then
    let off1 := m.offs_.getD idx 0
    let off2 := if idx + 1 < m.offs_.length then m.offs_.getD (idx + 1) 0 else m.strs_.length
    size_add off2 (-off1)
  else 0

/-- `size(idx)`. -/
def size (m : Multi_String) (idx : Nat) : Nat :=
  if m.capacity idx ≠ 0 then m.capacity idx - 1 else 0

/-- `operator[](idx)`: the memory at the pointer, the buffer's own NUL included. -/
def at_ (m : Multi_String) (idx : Nat) : Option Bytes :=
  if idx < m.offs_.length then some ((m.strs_ ++ [NUL]).drop (m.offs_.getD idx 0)) else none

/-- `adjust_offsets(pos, offset)`. -/
def adjust_offsets (offs : List Nat) (pos : Nat) (offset : Int) : List Nat :=
  offs.take (pos + 1) ++ (offs.drop (pos + 1)).map (size_add · offset)

/-- `push_back(buf, len)`. -/
def push_back (m : Multi_String) (buf : Bytes) : Multi_String :=
  ⟨m.offs_ ++ [m.strs_.length], m.strs_ ++ buf ++ [NUL]⟩

/-- `append_to_last(buf, len)`. -/
def append_to_last (m : Multi_String) (buf : Bytes) : Multi_String :=
  if ¬ m.empty then
    ⟨m.offs_, m.strs_.take (m.strs_.length - 1) ++ buf ++ [NUL]⟩ -- take off the last '\0'
  else m.push_back buf

/-- `erase(pos)`. -/
def erase (m : Multi_String) (pos : Nat) : Option Multi_String :=
  let clen := m.capacity pos
  if clen ≠ 0 then -- if pos exists
    let start := m.offs_.getD pos 0
    let offset := 0 - toInt clen
    (str_erase m.strs_ start clen).map
      (fun strs => ⟨(adjust_offsets m.offs_ pos offset).eraseIdx pos, strs⟩)
  else some m

/-- `pop_back()`: on an empty container the position is the largest `size_t`. -/
def pop_back (m : Multi_String) : Option Multi_String := m.erase (size_add m.offs_.length (-1))

/-- `insert(pos, buf, len)`. -/
def insert (m : Multi_String) (pos : Nat) (buf : Bytes) : Option Multi_String :=
  let clen := m.capacity pos
  if clen ≠ 0 then
    let str := buf ++ [NUL]
    let start := m.offs_.getD pos 0
    (str_insert m.strs_ start str).map
      (fun strs => ⟨adjust_offsets (m.offs_.insertIdx pos start) pos (toInt str.length), strs⟩)
  else some m

/-- `replace(pos, buf, len)`. -/
def replace (m : Multi_String) (pos : Nat) (buf : Bytes) : Option Multi_String :=
  let clen := m.capacity pos
  if clen ≠ 0 then
    let str := buf ++ [NUL]
    let start := m.offs_.getD pos 0
    let offset := toInt (toInt str.length - toInt clen)
    (str_replace m.strs_ start clen str).map
      (fun strs => ⟨adjust_offsets m.offs_ pos offset, strs⟩)
  else some m

/-- `clear(resize_only)`: both ways leave nothing. -/
def clear (_m : Multi_String) (_resize_only : Bool) : Multi_String := ⟨[], []⟩

end Multi_String

/-! ## §2. The operations, and the list they are meant to edit. -/

/-- What a caller hands over: a C string or a sized buffer. -/
inductive StrArg where
  | cstr (mem : Bytes)
  | buf (b : Bytes)

/-- The bytes the container stores for an argument. -/
def StrArg.bytes : StrArg → Bytes
  | .cstr mem => c_str mem
  | .buf b => b

inductive MsOp where
  | push_back (s : StrArg)
  | append_to_last (s : StrArg)
  | insert (pos : Nat) (s : StrArg)
  | erase (pos : Nat)
  | replace (pos : Nat) (s : StrArg)
  | pop_back
  | clear (resize_only : Bool)

/-- One call on the container. -/
def Multi_String.apply (m : Multi_String) : MsOp → Option Multi_String
  | .push_back s => some (m.push_back s.bytes)
  | .append_to_last s => some (m.append_to_last s.bytes)
  | .insert pos s => m.insert pos s.bytes
  | .erase pos => m.erase pos
  | .replace pos s => m.replace pos s.bytes
  | .pop_back => m.pop_back
  | .clear resize_only => some (m.clear resize_only)

/-- A sequence of calls. -/
def Multi_String.run (m : Multi_String) : List MsOp → Option Multi_String
  | [] => some m
  | op :: ops => (m.apply op).bind (·.run ops)

/-- The same call on a list of byte strings. -/
def ref (L : List Bytes) : MsOp → List Bytes
  | .push_back s => L ++ [s.bytes]
  | .append_to_last s =>
      match L.getLast? with
      | none => [s.bytes]
      | some l => L.dropLast ++ [l ++ s.bytes]
  | .insert pos s => if pos < L.length then L.insertIdx pos s.bytes else L
  | .erase pos => L.eraseIdx pos
  | .replace pos s => L.set pos s.bytes
  | .pop_back => L.dropLast
  | .clear _ => []

/-- The container is the packed form of the list. -/
structure Represents (m : Multi_String) (L : List Bytes) : Prop where
  offs : m.offs_ = offsets 0 L
  strs : m.strs_ = pack NUL L

/-! ## §3. What a representation gives the accessors. -/

theorem size_add_eq {n k : Nat} {d : Int} (h : (k : Int) = n + d) (hk : k < 2 ^ 64) :
    size_add n d = k := by
  unfold size_add
  omega

theorem getD_offsets (A B : List Bytes) (s : Bytes) (a b : Nat) :
    (offsets a A ++ b :: offsets (b + (s.length + 1)) B).getD A.length 0 = b := by
  have := getD_at (offsets a A) (offsets (b + (s.length + 1)) B) b 0
  rwa [offsets_length] at this

/-- The container's fields around one entry. -/
theorem Represents.around {m : Multi_String} {A B : List Bytes} {s : Bytes}
    (h : Represents m (A ++ s :: B)) :
    m.offs_ = offsets 0 A ++ total A :: offsets (total A + (s.length + 1)) B
      ∧ m.strs_ = pack NUL A ++ (s ++ [NUL]) ++ pack NUL B := by
  refine ⟨?_, ?_⟩
  · rw [h.offs, offsets_append, Nat.zero_add, offsets_cons]
  · rw [h.strs, pack_append, pack_cons]
    simp

/-- **The capacity of an entry is its length and its NUL.** -/
theorem Represents.capacity {m : Multi_String} {A B : List Bytes} {s : Bytes}
    (h : Represents m (A ++ s :: B)) (hsize : total (A ++ s :: B) < 2 ^ 31) :
    m.capacity A.length = s.length + 1 := by
  obtain ⟨hoffs, hstrs⟩ := h.around
  simp only [total_append, total_cons] at hsize
  have hlen : m.offs_.length = A.length + (B.length + 1) := by rw [hoffs]; simp
  unfold Multi_String.capacity
  rw [if_pos (by omega)]
  have hoff1 : m.offs_.getD A.length 0 = total A := by rw [hoffs, getD_offsets]
  -- the end of the entry: the next offset, or the end of the string
  have hoff2 : (if A.length + 1 < m.offs_.length then m.offs_.getD (A.length + 1) 0
      else m.strs_.length) = total A + (s.length + 1) := by
    cases B with
    | nil =>
        rw [if_neg (by rw [hlen]; simp), hstrs]
        simp
    | cons t B =>
        rw [if_pos (by rw [hlen]; simp), hoffs]
        simp
  simp only [hoff1, hoff2]
  exact size_add_eq (by omega) (by omega)

theorem Represents.capacity_none {m : Multi_String} {L : List Bytes} (h : Represents m L)
    {pos : Nat} (hpos : L.length ≤ pos) : m.capacity pos = 0 := by
  unfold Multi_String.capacity
  rw [if_neg]
  rw [h.offs, offsets_length]
  omega

/-- Repairing the offsets behind an entry moves exactly the later entries. -/
theorem adjust_offsets_around (A B : List Bytes) (a b b' : Nat) (d : Int)
    (hd : (b' : Int) = b + d) (hb : b' + total B < 2 ^ 64) :
    Multi_String.adjust_offsets (offsets 0 A ++ a :: offsets b B) A.length d
      = offsets 0 A ++ a :: offsets b' B := by
  have hsplit : offsets 0 A ++ a :: offsets b B = (offsets 0 A ++ [a]) ++ offsets b B := by simp
  have hlen : (offsets 0 A ++ [a]).length = A.length + 1 := by simp
  unfold Multi_String.adjust_offsets
  rw [hsplit, List.take_left' hlen, List.drop_left' hlen,
    offsets_shift (size_add · d) B b b' (fun n hn => size_add_eq (by omega) (by omega))]
  simp

/-! ## §4. Each operation keeps the representation. -/

theorem push_back_represents {m : Multi_String} {L : List Bytes} (h : Represents m L)
    (buf : Bytes) : Represents (m.push_back buf) (L ++ [buf]) := by
  refine ⟨?_, ?_⟩
  · simp [Multi_String.push_back, h.offs, h.strs]
  · simp [Multi_String.push_back, h.strs]

theorem append_to_last_represents {m : Multi_String} {L : List Bytes} (h : Represents m L)
    (s : StrArg) : Represents (m.append_to_last s.bytes) (ref L (.append_to_last s)) := by
  unfold Multi_String.append_to_last Multi_String.empty
  rcases List.eq_nil_or_concat L with rfl | ⟨A, l, rfl⟩
  · rw [if_neg (by simp [h.offs])]
    exact push_back_represents h s.bytes
  · rw [List.concat_eq_append] at h ⊢
    rw [if_pos (by simp [h.offs])]
    refine ⟨?_, ?_⟩
    · -- the last entry grows, no offset moves
      simp [h.offs, ref]
    · have hstrs : m.strs_ = (pack NUL A ++ l) ++ [NUL] := by rw [h.strs]; simp
      have hlen : ((pack NUL A ++ l) ++ [NUL]).length - 1 = (pack NUL A ++ l).length := by
        rw [List.length_append, List.length_singleton, Nat.add_sub_cancel]
      simp only [hstrs, hlen, List.take_left, ref, List.getLast?_append, List.getLast?_singleton,
        Option.some_or, List.dropLast_concat, pack_append, pack_cons, pack_nil]
      simp

theorem erase_represents {m : Multi_String} {A B : List Bytes} {s : Bytes}
    (h : Represents m (A ++ s :: B)) (hsize : total (A ++ s :: B) < 2 ^ 31) :
    ∃ m', m.erase A.length = some m' ∧ Represents m' (A ++ B) := by
  have hcap := h.capacity hsize
  obtain ⟨hoffs, hstrs⟩ := h.around
  simp only [total_append, total_cons] at hsize
  have hstart : m.offs_.getD A.length 0 = total A := by rw [hoffs, getD_offsets]
  have hint : toInt ((s.length + 1 : Nat) : Int) = (s.length + 1 : Nat) :=
    toInt_of_lt (by omega) (by omega)
  -- the string loses the entry and its NUL
  have hcut : str_erase m.strs_ (total A) (s.length + 1) = some (pack NUL A ++ pack NUL B) := by
    have hA : (pack NUL A).length = total A := pack_length NUL A
    have hAs : (pack NUL A ++ (s ++ [NUL])).length = total A + (s.length + 1) := by simp
    unfold str_erase
    rw [if_pos (by rw [hstrs]; simp), hstrs, List.drop_left' hAs, List.append_assoc,
      List.take_left' hA]
  -- the later offsets move down, and the entry's own is taken out
  have hadj := adjust_offsets_around A B (total A) (total A + (s.length + 1)) (total A)
    (0 - ((s.length + 1 : Nat) : Int)) (by omega) (by omega)
  have herase := eraseIdx_at (offsets 0 A) (offsets (total A) B) (total A)
  rw [offsets_length] at herase
  refine ⟨⟨offsets 0 A ++ offsets (total A) B, pack NUL A ++ pack NUL B⟩, ?_, by simp, by simp⟩
  unfold Multi_String.erase
  simp only [hcap, hstart, hint, hcut, Option.map_some]
  rw [if_pos (by omega), hoffs, hadj, herase]

theorem insert_represents {m : Multi_String} {A B : List Bytes} {s : Bytes}
    (h : Represents m (A ++ s :: B)) (hsize : total (A ++ s :: B) < 2 ^ 31) (buf : Bytes)
    (hnew : total (A ++ buf :: s :: B) < 2 ^ 31) :
    ∃ m', m.insert A.length buf = some m' ∧ Represents m' (A ++ buf :: s :: B) := by
  have hcap := h.capacity hsize
  obtain ⟨hoffs, hstrs⟩ := h.around
  simp only [total_append, total_cons] at hsize hnew
  have hstart : m.offs_.getD A.length 0 = total A := by rw [hoffs, getD_offsets]
  have hstr : (buf ++ [NUL]).length = buf.length + 1 := by simp
  have hint : toInt ((buf.length + 1 : Nat) : Int) = (buf.length + 1 : Nat) :=
    toInt_of_lt (by omega) (by omega)
  -- the string takes the new entry in front of this one
  have hput : str_insert m.strs_ (total A) (buf ++ [NUL])
      = some (pack NUL A ++ (buf ++ [NUL]) ++ (s ++ [NUL] ++ pack NUL B)) := by
    have hA : (pack NUL A).length = total A := pack_length NUL A
    unfold str_insert
    rw [if_pos (by rw [hstrs]; simp), hstrs, List.append_assoc (pack NUL A), List.take_left' hA,
      List.drop_left' hA]
  -- the new offset is the old one, and the later ones move up
  have hadj := adjust_offsets_around A (s :: B) (total A) (total A) (total A + (buf.length + 1))
    ((buf.length + 1 : Nat) : Int) (by omega) (by simp only [total_cons]; omega)
  have hins := insertIdx_at (offsets 0 A) (offsets (total A) (s :: B)) (total A)
  rw [offsets_length] at hins
  refine ⟨⟨offsets 0 A ++ total A :: offsets (total A + (buf.length + 1)) (s :: B),
    pack NUL A ++ (buf ++ [NUL]) ++ (s ++ [NUL] ++ pack NUL B)⟩, ?_, by simp, by simp⟩
  unfold Multi_String.insert
  simp only [hcap, hstart, hstr, hint, hput, Option.map_some]
  rw [if_pos (by omega), hoffs, ← offsets_cons, hins, hadj]

theorem replace_represents {m : Multi_String} {A B : List Bytes} {s : Bytes}
    (h : Represents m (A ++ s :: B)) (hsize : total (A ++ s :: B) < 2 ^ 31) (buf : Bytes)
    (hnew : total (A ++ buf :: B) < 2 ^ 31) :
    ∃ m', m.replace A.length buf = some m' ∧ Represents m' (A ++ buf :: B) := by
  have hcap := h.capacity hsize
  obtain ⟨hoffs, hstrs⟩ := h.around
  simp only [total_append, total_cons] at hsize hnew
  have hstart : m.offs_.getD A.length 0 = total A := by rw [hoffs, getD_offsets]
  have hstr : (buf ++ [NUL]).length = buf.length + 1 := by simp
  -- the difference of two `int` lengths
  have hint : toInt (toInt ((buf.length + 1 : Nat) : Int) - toInt ((s.length + 1 : Nat) : Int))
      = (buf.length + 1 : Nat) - (s.length + 1 : Nat) := by
    have hbuf : toInt ((buf.length + 1 : Nat) : Int) = (buf.length + 1 : Nat) :=
      toInt_of_lt (by omega) (by omega)
    have hs : toInt ((s.length + 1 : Nat) : Int) = (s.length + 1 : Nat) :=
      toInt_of_lt (by omega) (by omega)
    rw [hbuf, hs, toInt_of_lt (by omega) (by omega)]
  have hput : str_replace m.strs_ (total A) (s.length + 1) (buf ++ [NUL])
      = some (pack NUL A ++ (buf ++ [NUL]) ++ pack NUL B) := by
    have hA : (pack NUL A).length = total A := pack_length NUL A
    have hAs : (pack NUL A ++ (s ++ [NUL])).length = total A + (s.length + 1) := by simp
    unfold str_replace
    rw [if_pos (by rw [hstrs]; simp), hstrs, List.drop_left' hAs,
      List.append_assoc (pack NUL A) (s ++ [NUL]), List.take_left' hA]
  have hadj := adjust_offsets_around A B (total A) (total A + (s.length + 1))
    (total A + (buf.length + 1)) ((buf.length + 1 : Nat) - (s.length + 1 : Nat)) (by omega)
    (by omega)
  refine ⟨⟨offsets 0 A ++ total A :: offsets (total A + (buf.length + 1)) B,
    pack NUL A ++ (buf ++ [NUL]) ++ pack NUL B⟩, ?_, by simp, by simp⟩
  unfold Multi_String.replace
  simp only [hcap, hstart, hstr, hint, hput, Option.map_some]
  rw [if_pos (by omega), hoffs, hadj]

/-- **One call keeps the container the packed form of the reference list.** -/
theorem apply_represents {m : Multi_String} {L : List Bytes} (h : Represents m L)
    (hsize : total L < 2 ^ 31) (op : MsOp) (hnew : total (ref L op) < 2 ^ 31) :
    ∃ m', m.apply op = some m' ∧ Represents m' (ref L op) := by
  -- a position behind the last entry: `capacity` is 0 and nothing happens
  have noop : ∀ {pos : Nat}, L.length ≤ pos → m.capacity pos = 0 := fun hpos =>
    h.capacity_none hpos
  have herase : ∀ pos, ∃ m', m.erase pos = some m' ∧ Represents m' (L.eraseIdx pos) := by
    intro pos
    rcases Nat.lt_or_ge pos L.length with hpos | hpos
    · obtain ⟨A, s, B, rfl, rfl⟩ := split_at hpos
      rw [eraseIdx_at]
      exact erase_represents h hsize
    · rw [List.eraseIdx_of_length_le hpos]
      exact ⟨m, by simp [Multi_String.erase, noop hpos], h⟩
  cases op with
  | push_back s => exact ⟨_, rfl, push_back_represents h s.bytes⟩
  | append_to_last s => exact ⟨_, rfl, append_to_last_represents h s⟩
  | clear resize_only => exact ⟨_, rfl, rfl, rfl⟩
  | erase pos => exact herase pos
  | insert pos s =>
      simp only [ref] at hnew ⊢
      rcases Nat.lt_or_ge pos L.length with hpos | hpos
      · rw [if_pos hpos] at hnew ⊢
        obtain ⟨A, t, B, rfl, rfl⟩ := split_at hpos
        rw [insertIdx_at] at hnew ⊢
        exact insert_represents h hsize s.bytes hnew
      · rw [if_neg (by omega)]
        exact ⟨m, by simp [Multi_String.apply, Multi_String.insert, noop hpos], h⟩
  | replace pos s =>
      simp only [ref] at hnew ⊢
      rcases Nat.lt_or_ge pos L.length with hpos | hpos
      · obtain ⟨A, t, B, rfl, rfl⟩ := split_at hpos
        rw [set_at] at hnew ⊢
        exact replace_represents h hsize s.bytes hnew
      · rw [List.set_eq_of_length_le hpos]
        exact ⟨m, by simp [Multi_String.apply, Multi_String.replace, noop hpos], h⟩
  | pop_back =>
      simp only [ref, Multi_String.apply, Multi_String.pop_back, h.offs, offsets_length]
      cases L with
      | nil =>
          -- the position wraps to the largest `size_t`, where there is no entry
          have := herase (size_add 0 (-1))
          simpa using this
      | cons s L =>
          have hfits := length_le_total (s :: L)
          have hlen : size_add (s :: L).length (-1) = L.length :=
            size_add_eq (by simp) (by simp only [List.length_cons] at hfits; omega)
          have hlast : (s :: L).eraseIdx L.length = (s :: L).dropLast :=
            List.eraseIdx_eq_dropLast rfl
          rw [hlen, ← hlast]
          exact herase L.length

/-! ## §5. Whole runs. -/

/-- The list after a sequence of operations. -/
def ref_run (ops : List MsOp) : List Bytes := ops.foldl ref []

theorem run_represents :
    ∀ (ops : List MsOp) (m : Multi_String) (L : List Bytes), Represents m L →
      (∀ k, total ((ops.take k).foldl ref L) < 2 ^ 31) →
      ∃ m', m.run ops = some m' ∧ Represents m' (ops.foldl ref L) := by
  intro ops
  induction ops with
  | nil => intro m L h _; exact ⟨m, rfl, h⟩
  | cons op ops ih =>
      intro m L h hsize
      have h0 : total L < 2 ^ 31 := hsize 0
      have h1 : total (ref L op) < 2 ^ 31 := by simpa using hsize 1
      obtain ⟨m₁, hm₁, hrep₁⟩ := apply_represents h h0 op h1
      obtain ⟨m', hm', hrep'⟩ := ih m₁ (ref L op) hrep₁ (fun k => hsize (k + 1))
      exact ⟨m', by rw [Multi_String.run, hm₁, Option.bind_some, hm'], hrep'⟩

/-- **`operator[](i)` of a represented list.** -/
theorem Represents.at_ {m : Multi_String} {L : List Bytes} (h : Represents m L) (i : Nat)
    (hi : i < L.length) : ∃ tail, m.at_ i = some (L[i] ++ NUL :: tail) := by
  obtain ⟨A, s, B, rfl, rfl⟩ := split_at hi
  have hentry : (A ++ s :: B)[A.length] = s := by simp
  obtain ⟨hoffs, hstrs⟩ := h.around
  have hA : (pack NUL A).length = total A := pack_length NUL A
  refine ⟨pack NUL B ++ [NUL], ?_⟩
  unfold Multi_String.at_
  rw [hentry, if_pos (by rw [h.offs, offsets_length]; exact hi), hoffs, getD_offsets, hstrs,
    List.append_assoc (pack NUL A), List.append_assoc (pack NUL A), List.drop_left' hA]
  simp

/-- `size(i)` and `operator[](i)` of a represented list. -/
theorem Represents.entry {m : Multi_String} {L : List Bytes} (h : Represents m L)
    (hsize : total L < 2 ^ 31) (i : Nat) (hi : i < L.length) :
    m.size i = L[i].length ∧ ∃ tail, m.at_ i = some (L[i] ++ NUL :: tail) := by
  refine ⟨?_, h.at_ i hi⟩
  obtain ⟨A, s, B, rfl, rfl⟩ := split_at hi
  have hentry : (A ++ s :: B)[A.length] = s := by simp
  unfold Multi_String.size
  rw [hentry, h.capacity hsize, if_pos (by omega), Nat.add_sub_cancel]

/-- The container of a list. -/
def packed (L : List Bytes) : Multi_String := ⟨offsets 0 L, pack NUL L⟩

theorem represents_packed (L : List Bytes) : Represents (packed L) L := ⟨rfl, rfl⟩

theorem Represents.eq_packed {m : Multi_String} {L : List Bytes} (h : Represents m L) :
    m = packed L := by
  obtain ⟨hoffs, hstrs⟩ := h
  cases m
  cases hoffs
  cases hstrs
  rfl

theorem packed_inj {L L' : List Bytes} (h : packed L = packed L') : L = L' :=
  packed_injective NUL L 0 L' (congrArg Multi_String.offs_ h) (congrArg Multi_String.strs_ h)

theorem length_packed (L : List Bytes) : (packed L).strs_.length = total L := pack_length NUL L

theorem push_back_packed (L : List Bytes) (buf : Bytes) :
    (packed L).push_back buf = packed (L ++ [buf]) :=
  (push_back_represents (represents_packed L) buf).eq_packed

theorem append_to_last_packed (L : List Bytes) (s buf : Bytes) :
    (packed (L ++ [s])).append_to_last buf = packed (L ++ [s ++ buf]) := by
  have h := append_to_last_represents (represents_packed (L ++ [s])) (.buf buf)
  unfold ref at h
  rw [List.getLast?_concat, List.dropLast_concat] at h
  exact h.eq_packed

theorem append_to_last_new (buf : Bytes) : (packed []).append_to_last buf = packed [buf] :=
  (append_to_last_represents (represents_packed []) (.buf buf)).eq_packed

/-- **`Multi_String` refines a list of byte strings.**  From the empty
container no sequence of operations throws, and it leaves the packed form of
the reference list; `size` and `operator[]` read its entries back. -/
theorem multi_string_refines (ops : List MsOp)
    (hsize : ∀ k, total (ref_run (ops.take k)) < 2 ^ 31) :
    ∃ m, Multi_String.new.run ops = some m
      ∧ m.count = (ref_run ops).length
      ∧ m.offs_ = offsets 0 (ref_run ops)
      ∧ m.strs_ = pack NUL (ref_run ops)
      ∧ ∀ (i : Nat) (hi : i < (ref_run ops).length),
          m.size i = (ref_run ops)[i].length
            ∧ ∃ tail, m.at_ i = some ((ref_run ops)[i] ++ NUL :: tail) := by
  -- the bound for the whole run is the last of the given ones
  have hfinal : total (ref_run ops) < 2 ^ 31 := by
    simpa using hsize ops.length
  obtain ⟨m, hrun, hrep⟩ := run_represents ops .new [] ⟨rfl, rfl⟩ hsize
  refine ⟨m, hrun, ?_, hrep.offs, hrep.strs, hrep.entry hfinal⟩
  unfold Multi_String.count
  rw [hrep.offs, offsets_length]
  rfl

/-- Appending to an empty container, inserting in front and popping. -/
theorem multi_string_refines_three_calls :
    ∃ m, Multi_String.new.run
        [.append_to_last (.cstr [97, 0, 98]), .insert 0 (.buf [0]), .pop_back] = some m
      ∧ m.count = 1 ∧ m.offs_ = [0] ∧ m.strs_ = [0, 0] ∧ m.size 0 = 1 := by
  obtain ⟨m, hrun, hcount, hoffs, hstrs, hget⟩ := multi_string_refines
    [.append_to_last (.cstr [97, 0, 98]), .insert 0 (.buf [0]), .pop_back]
    (by intro k; rcases k with - | - | - | k <;> simp [ref_run, ref, StrArg.bytes, c_str, NUL])
  exact ⟨m, hrun, hcount, hoffs, hstrs, (hget 0 (by decide)).1⟩

end Aos
