/-
  Aos.Net.RawBlock — a message block as the pointers see it.

  `wr_ptr(n)` moves the pointer without a test and `space()` is the difference of
  the end and the write pointer as a `size_t`: behind the end it is nearly 2^64.
  `snprintf` writes no more than the space it is told, a NUL included, and returns
  the length of the whole text.

  Main results:
    • `raw_block`      — such a block is what the protocol code relies on;
    • `print_all_wr`   — where the write pointer stands;
    • `print_full`     — a text that takes all the space loses its last byte.
-/
import Aos.Lib.Memory
import Aos.Net.MessageBlock

namespace Aos

open Lib.Memory

/-- The memory from the start of the buffer on, and the offsets of its end and of the two
    pointers. -/
structure Raw_Block where
  size_ : Nat
  rd_ : Nat
  wr_ : Nat
  rd_le : rd_ ≤ wr_
  mem : Nat → Byte

namespace Raw_Block

/-- From `rd_ptr()` to `wr_ptr()`. -/
def text (b : Raw_Block) : Bytes := load b.mem b.rd_ (b.wr_ - b.rd_)

/-- `end() - wr_ptr()` as a `size_t`. -/
def space (b : Raw_Block) : Nat :=
  if b.wr_ ≤ b.size_ then b.size_ - b.wr_
  else (2 ^ 64 - (b.wr_ - b.size_) % 2 ^ 64) % 2 ^ 64

/-- `reset()` -/
def reset (b : Raw_Block) : Raw_Block := ⟨b.size_, 0, 0, le_rfl, b.mem⟩

/-- `wr_ptr(n)`, with what has been stored. -/
def advance (b : Raw_Block) (mem : Nat → Byte) (n : Nat) : Raw_Block :=
  ⟨b.size_, b.rd_, b.wr_ + n, Nat.le_add_right_of_le b.rd_le, mem⟩

/-- What `snprintf(wr_ptr(), space(), ..)` writes of a text. -/
def snprintf (b : Raw_Block) (s : Bytes) : Nat → Byte :=
  if b.space = 0 then b.mem else store b.mem b.wr_ (s.take (b.space - 1) ++ [NUL])

/-- `wr_ptr(snprintf(wr_ptr(), space(), ..))` -/
def print (b : Raw_Block) (s : Bytes) : Raw_Block := b.advance (b.snprintf s) s.length

/-- `copy` takes what fits. -/
def copy (b : Raw_Block) (s : Bytes) : Raw_Block :=
  if s.length ≤ b.space then b.advance (store b.mem b.wr_ s) s.length else b

/-- `rd_ptr(n)`, which nobody moves behind the write pointer. -/
def rd_ptr (b : Raw_Block) (n : Nat) : Raw_Block :=
  ⟨b.size_, min (b.rd_ + n) b.wr_, b.wr_, Nat.min_le_right _ _, b.mem⟩

/-- The space that is left behind a text that fits. -/
theorem space_advance (b : Raw_Block) (mem : Nat → Byte) {n : Nat} (h : n ≤ b.space) :
    (b.advance mem n).space = b.space - n := by
  unfold space at h ⊢
  show (if b.wr_ + n ≤ b.size_ then b.size_ - (b.wr_ + n)
    else (2 ^ 64 - (b.wr_ + n - b.size_) % 2 ^ 64) % 2 ^ 64) = _
  split_ifs at h ⊢ <;> omega

/-- What is stored at the write pointer is text behind it. -/
theorem text_advance (b : Raw_Block) (s rest : Bytes) :
    (b.advance (store b.mem b.wr_ (s ++ rest)) s.length).text = b.text ++ s := by
  have hle := b.rd_le
  have hsplit : b.wr_ + s.length - b.rd_ = (b.wr_ - b.rd_) + s.length := by omega
  show load (store b.mem b.wr_ (s ++ rest)) b.rd_ (b.wr_ + s.length - b.rd_)
    = load b.mem b.rd_ (b.wr_ - b.rd_) ++ s
  rw [hsplit, load_append, load_store_before _ _ _ (by omega), Nat.add_sub_cancel' hle, load_store]

end Raw_Block

open Raw_Block in
/-- **A raw block does what the protocol code relies on.** -/
def raw_block : Message_Block Raw_Block where
  new n := ⟨n, 0, 0, le_rfl, fun _ => NUL⟩
  size b := b.size_
  text := text
  space := space
  reset := reset
  copy := copy
  print := print
  rd_ptr := rd_ptr
  size_new _ := rfl
  size_reset _ := rfl
  text_reset _ := rfl
  space_reset _ := rfl
  copy_fits b s h := by
    have htext := text_advance b s []
    rw [List.append_nil] at htext
    unfold copy
    rw [if_pos h]
    exact ⟨rfl, htext, space_advance b _ h⟩
  copy_lacks b s h := if_neg (Nat.not_le.mpr h)
  size_print _ _ := rfl
  print_fits b s h := by
    have htake : s.take (b.space - 1) = s := List.take_of_length_le (by omega)
    unfold print snprintf
    rw [if_neg (by omega), htake]
    exact ⟨text_advance b s [NUL], space_advance b _ h.le⟩
  size_rd_ptr _ _ := rfl
  text_rd_ptr b n := by
    have hle := b.rd_le
    show load b.mem (min (b.rd_ + n) b.wr_) (b.wr_ - min (b.rd_ + n) b.wr_)
      = (load b.mem b.rd_ (b.wr_ - b.rd_)).drop n
    rw [load_drop]
    by_cases hn : b.rd_ + n ≤ b.wr_
    · rw [Nat.min_eq_left hn, Nat.sub_add_eq]
    · have hall : b.wr_ - b.rd_ - n = 0 := by omega
      rw [Nat.min_eq_right (by omega), Nat.sub_self, hall]
      rfl

namespace Raw_Block

/-! ## One text behind the other. -/

/-- The write pointer stands behind all the texts, whether they were written or not. -/
theorem print_all_wr (texts : List Bytes) :
    ∀ b : Raw_Block, (texts.foldl print b).wr_ = b.wr_ + texts.flatten.length := by
  induction texts with
  | nil => intro b; rfl
  | cons s texts ih =>
      intro b
      rw [List.foldl_cons, ih, List.flatten_cons, List.length_append]
      show b.wr_ + s.length + texts.flatten.length = _
      omega

theorem print_all_size (texts : List Bytes) :
    ∀ b : Raw_Block, (texts.foldl print b).size_ = b.size_ := by
  induction texts with
  | nil => intro b; rfl
  | cons s texts ih =>
      intro b
      rw [List.foldl_cons, ih]
      rfl

/-- A text that takes all the space has a NUL for its last byte. -/
theorem print_full (b : Raw_Block) (s : Bytes) (hs : s ≠ []) (h : s.length = b.space) :
    ∃ t, (b.print s).text = b.text ++ t ++ [NUL] := by
  have hpos := List.length_pos_iff.mpr hs
  have hlen : (s.take (b.space - 1) ++ [NUL]).length = s.length := by
    rw [List.length_append, List.length_take, List.length_singleton]
    omega
  have htext := text_advance b (s.take (b.space - 1) ++ [NUL]) []
  rw [List.append_nil, hlen] at htext
  unfold print snprintf
  rw [if_neg (by omega)]
  exact ⟨s.take (b.space - 1), by rw [htext, List.append_assoc]⟩

end Raw_Block

end Aos
