/-
  Aos.Net.MessageBlock — what the protocol code relies on in `ACE_Message_Block`.

  A block is a buffer of fixed size with a read and a write position.  The
  readers of this development see only the bytes between the two, and take
  them as a list; the writers use the operations below.
-/
import Aos.Byte

namespace Aos

structure Message_Block (B : Type) where
  /-- `ACE_Message_Block(size)` -/
  new : Nat → B
  size : B → Nat
  /-- the bytes from `rd_ptr()` to `wr_ptr()` -/
  text : B → Bytes
  space : B → Nat
  reset : B → B
  copy : B → Bytes → B
  /-- `wr_ptr(snprintf(wr_ptr(), space(), ..))` with a format that gives these bytes -/
  print : B → Bytes → B
  /-- `rd_ptr(n)` -/
  rd_ptr : B → Nat → B
  size_new : ∀ n, size (new n) = n
  size_reset : ∀ b, size (reset b) = size b
  text_reset : ∀ b, text (reset b) = []
  space_reset : ∀ b, space (reset b) = size b
  /-- `copy` takes what fits -/
  copy_fits : ∀ b s, s.length ≤ space b →
    size (copy b s) = size b ∧ text (copy b s) = text b ++ s ∧ space (copy b s) = space b - s.length
  /-- and fails, changing nothing, on what does not -/
  copy_lacks : ∀ b s, space b < s.length → copy b s = b
  size_print : ∀ b s, size (print b s) = size b
  /-- `snprintf` wants one more byte, for its NUL -/
  print_fits : ∀ b s, s.length < space b →
    text (print b s) = text b ++ s ∧ space (print b s) = space b - s.length
  size_rd_ptr : ∀ b n, size (rd_ptr b n) = size b
  text_rd_ptr : ∀ b n, text (rd_ptr b n) = (text b).drop n

namespace Message_Block

variable {B : Type} (MB : Message_Block B)

theorem size_copy (b : B) (s : Bytes) : MB.size (MB.copy b s) = MB.size b := by
  by_cases h : s.length ≤ MB.space b
  · exact (MB.copy_fits b s h).1
  · rw [MB.copy_lacks b s (by omega)]

end Message_Block

/-- A block with its bytes as a list, and the write position counted from the
    start of the buffer. -/
structure List_Block where
  size_ : Nat
  wr_ : Nat
  text_ : Bytes
  deriving DecidableEq

/-- The operations on it; a text that does not fit is cut off by `snprintf`. -/
def list_block : Message_Block List_Block where
  new n := ⟨n, 0, []⟩
  size b := b.size_
  text b := b.text_
  space b := b.size_ - b.wr_
  reset b := ⟨b.size_, 0, []⟩
  copy b s :=
    if s.length ≤ b.size_ - b.wr_ then ⟨b.size_, b.wr_ + s.length, b.text_ ++ s⟩ else b
  print b s :=
    ⟨b.size_, b.wr_ + s.length,
      if s.length < b.size_ - b.wr_ then b.text_ ++ s
      else b.text_ ++ s.take (b.size_ - b.wr_ - 1)⟩
  rd_ptr b n := { b with text_ := b.text_.drop n }
  size_new _ := rfl
  size_reset _ := rfl
  text_reset _ := rfl
  space_reset _ := rfl
  copy_fits b s h := by
    rw [if_pos h]
    refine ⟨rfl, rfl, ?_⟩
    show b.size_ - (b.wr_ + s.length) = b.size_ - b.wr_ - s.length
    omega
  copy_lacks b s h := if_neg (Nat.not_le.mpr h)
  size_print _ _ := rfl
  print_fits b s h := by
    rw [if_pos h]
    refine ⟨rfl, ?_⟩
    show b.size_ - (b.wr_ + s.length) = b.size_ - b.wr_ - s.length
    omega
  size_rd_ptr _ _ := rfl
  text_rd_ptr _ _ := rfl

/-! ## Blocks that are read into. -/

/-- A block whose write position is set by the code: `length()` is the difference of two
    pointers, and `wr_ptr(n)` adds a `size_t`, whatever it is. -/
structure Input_Block (B : Type) extends Message_Block B where
  /-- `wr_ptr() - rd_ptr()` -/
  length : B → UInt64
  /-- these bytes are stored from `wr_ptr()` on -/
  store : B → Bytes → B
  wr_ptr : B → UInt64 → B
  length_reset : ∀ b, length (reset b) = 0
  length_store : ∀ b s, length (store b s) = length b
  length_wr_ptr : ∀ b n, length (wr_ptr b n) = length b + n
  length_rd_ptr : ∀ b n, length (rd_ptr b n) = length b - UInt64.ofNat n
  size_wr_ptr : ∀ b n, size (wr_ptr b n) = size b
  size_store : ∀ b s, size (store b s) = size b
  text_wr_ptr : ∀ b s, s.length ≤ space b →
    text (wr_ptr (store b s) (UInt64.ofNat s.length)) = text b ++ s

/-- A list block with the distance of its pointers, and what is stored behind them. -/
structure Offset_Block where
  block : List_Block
  length_ : UInt64
  stored_ : Bytes

/-- Its operations. -/
def offset_block : Input_Block Offset_Block where
  new n := ⟨list_block.new n, 0, []⟩
  size b := list_block.size b.block
  text b := list_block.text b.block
  space b := list_block.space b.block
  reset b := ⟨list_block.reset b.block, 0, []⟩
  copy b s := { b with block := list_block.copy b.block s }
  print b s := { b with block := list_block.print b.block s }
  rd_ptr b n := ⟨list_block.rd_ptr b.block n, b.length_ - UInt64.ofNat n, b.stored_⟩
  size_new n := list_block.size_new n
  size_reset b := list_block.size_reset b.block
  text_reset b := list_block.text_reset b.block
  space_reset b := list_block.space_reset b.block
  copy_fits b s h := list_block.copy_fits b.block s h
  copy_lacks b s h := congrArg (fun c => { b with block := c }) (list_block.copy_lacks b.block s h)
  size_print b s := list_block.size_print b.block s
  print_fits b s h := list_block.print_fits b.block s h
  size_rd_ptr b n := list_block.size_rd_ptr b.block n
  text_rd_ptr b n := list_block.text_rd_ptr b.block n
  length b := b.length_
  store b s := { b with stored_ := s }
  wr_ptr b n :=
    ⟨{ b.block with wr_ := b.block.wr_ + n.toNat, text_ := b.block.text_ ++ b.stored_ },
      b.length_ + n, []⟩
  length_reset _ := rfl
  length_store _ _ := rfl
  length_wr_ptr _ _ := rfl
  length_rd_ptr _ _ := rfl
  size_wr_ptr _ _ := rfl
  size_store _ _ := rfl
  text_wr_ptr _ _ _ := rfl

end Aos
