/-
  Aos.Hash.FNV — `hash::FNV_1a`, a hash object that is fed in pieces.

  The object holds the value so far.  It is fed a buffer, a string or a vector
  of buffers, and the multiplication by the prime is written as a sum of shifts.
  The vector is walked with an `unsigned int`, and counted by a `size_t`.

  Main results:
    • `octet_32_spec`, `octet_64_spec` — the sum of shifts is the product with
      the prime;
    • `calls_spec` — pieces fed one by one give the hash of the concatenation;
    • `call_vector_iff` — so does a vector, when the counter can reach its end.
-/
import Aos.Byte
import Aos.Lib.Digest

namespace Aos.hash

open Lib.Loop Lib.Digest

/-- `FNV_1a<N>`, where `σ` is the unsigned type of `N` bits. -/
structure FNV_1a (σ : Type) where
  _M_offset : σ

namespace FNV_1a

/-! ## §1. The operators. -/

section Operators

variable {σ : Type} (octet : σ → Byte → σ)

/-- `operator()(const char *_buf, size_t _len)`: the object, and the value returned. -/
def call_buf (self : FNV_1a σ) (_buf : Bytes) : FNV_1a σ × σ :=
  let hval := _buf.foldl octet self._M_offset
  (⟨hval⟩, hval)

/-- `operator()(const std::string &_buf)`. -/
def call_str (self : FNV_1a σ) (_buf : Bytes) : FNV_1a σ × σ := call_buf octet self _buf

/-- One pass of `for (unsigned int lcount = 0; lcount < _count; lcount++)`. -/
def vector_pass (_vector : List Bytes) (s : BitVec 32 × σ) : (BitVec 32 × σ) ⊕ σ :=
  pieces_pass octet _vector s

/-- `operator()(const struct iovec * _vector, size_t _count)` returns with `r`. -/
def Call_Vector (self : FNV_1a σ) (_vector : List Bytes) (r : FNV_1a σ × σ) : Prop :=
  Ends (vector_pass octet _vector) (0#32, self._M_offset) r.2 ∧ r.1 = ⟨r.2⟩

/-- One call for each piece; the value is that of the last call. -/
def calls (self : FNV_1a σ) (pieces : List Bytes) : FNV_1a σ × σ :=
  pieces.foldl (fun r piece => call_buf octet r.1 piece) (self, self._M_offset)

end Operators

/-! ## §2. The two widths. -/

def FNV_32_PRIME : Nat := 0x01000193

def FNV_64_PRIME : Nat := 0x100000001b3

/-- `FNV_1a<32>::INIT`. -/
def INIT_32 : UInt32 := 0x811c9dc5

/-- `FNV_1a<64>::INIT`. -/
def INIT_64 : UInt64 := 0xcbf29ce484222325

/-- The body of the loops of `FNV_1a<32>`. -/
def octet_32 (hval : UInt32) (bp : Byte) : UInt32 :=
  let hval := hval ^^^ bp.toUInt32
  hval + ((hval <<< 1) + (hval <<< 4) + (hval <<< 7) + (hval <<< 8) + (hval <<< 24))

/-- The body of those of `FNV_1a<64>`. -/
def octet_64 (hval : UInt64) (bp : Byte) : UInt64 :=
  let hval := hval ^^^ bp.toUInt64
  hval + ((hval <<< 1) + (hval <<< 4) + (hval <<< 5) + (hval <<< 7) + (hval <<< 8) +
    (hval <<< 40))

/-- **1 + 2 + 2⁴ + 2⁷ + 2⁸ + 2²⁴ is the prime.** -/
theorem octet_32_spec (hval : UInt32) (bp : Byte) :
    (octet_32 hval bp).toNat = (hval.toNat ^^^ bp.toNat) * FNV_32_PRIME % 2 ^ 32 := by
  have hxor : (hval ^^^ bp.toUInt32).toNat = hval.toNat ^^^ bp.toNat := by
    rw [UInt32.toNat_xor, UInt8.toNat_toUInt32]
  unfold octet_32
  simp only [UInt32.toNat_add, UInt32.toNat_shiftLeft, hxor, Nat.shiftLeft_eq]
  unfold FNV_32_PRIME
  generalize hval.toNat ^^^ bp.toNat = n
  simp only [UInt32.reduceToNat, Nat.reduceMod, Nat.reducePow]
  omega

/-- **1 + 2 + 2⁴ + 2⁵ + 2⁷ + 2⁸ + 2⁴⁰ is the prime.** -/
theorem octet_64_spec (hval : UInt64) (bp : Byte) :
    (octet_64 hval bp).toNat = (hval.toNat ^^^ bp.toNat) * FNV_64_PRIME % 2 ^ 64 := by
  have hxor : (hval ^^^ bp.toUInt64).toNat = hval.toNat ^^^ bp.toNat := by
    rw [UInt64.toNat_xor, UInt8.toNat_toUInt64]
  unfold octet_64
  simp only [UInt64.toNat_add, UInt64.toNat_shiftLeft, hxor, Nat.shiftLeft_eq]
  unfold FNV_64_PRIME
  generalize hval.toNat ^^^ bp.toNat = n
  simp only [UInt64.reduceToNat, Nat.reduceMod, Nat.reducePow]
  omega

/-! ## §3. What is computed. -/

section Computes

variable {σ : Type} {octet : σ → Byte → σ} {toNat : σ → Nat} {w prime : Nat}

theorem calls_eq (self : FNV_1a σ) (pieces : List Bytes) :
    calls octet self pieces =
      (⟨pieces.flatten.foldl octet self._M_offset⟩, pieces.flatten.foldl octet self._M_offset) := by
  unfold calls
  induction pieces generalizing self with
  | nil => rfl
  | cons piece pieces ih =>
      rw [List.foldl_cons, List.flatten_cons, List.foldl_append]
      exact ih ⟨piece.foldl octet self._M_offset⟩

/-- **Any cut into pieces** gives the hash of the concatenation, continued from the value of
    the object. -/
theorem calls_spec
    (hoctet : ∀ h bp, toNat (octet h bp) = (toNat h ^^^ bp.toNat) * prime % 2 ^ w)
    (self : FNV_1a σ) (pieces : List Bytes) :
    (calls octet self pieces).1._M_offset = (calls octet self pieces).2 ∧
      toNat (calls octet self pieces).2 =
        fnv_1a w prime (toNat self._M_offset) pieces.flatten := by
  rw [calls_eq]
  exact ⟨rfl, fnv_1a_of_step toNat octet hoctet _ _⟩

/-- **A vector** gives the hash of the concatenation exactly when its length is an
    `unsigned int`. -/
theorem call_vector_iff
    (hoctet : ∀ h bp, toNat (octet h bp) = (toNat h ^^^ bp.toNat) * prime % 2 ^ w)
    (self : FNV_1a σ) (_vector : List Bytes) :
    (∃ r, Call_Vector octet self _vector r ∧ r.1._M_offset = r.2 ∧
      toNat r.2 = fnv_1a w prime (toNat self._M_offset) _vector.flatten) ↔
      _vector.length < 2 ^ 32 := by
  constructor
  · rintro ⟨r, ⟨hends, _⟩, _⟩
    by_contra hlong
    exact pieces_never octet _vector (not_lt.mp hlong) _ _ hends
  · intro hshort
    exact ⟨(⟨_vector.flatten.foldl octet self._M_offset⟩, _vector.flatten.foldl octet self._M_offset),
      ⟨pieces_ends octet _vector self._M_offset hshort, rfl⟩, rfl,
      fnv_1a_of_step toNat octet hoctet _ _⟩

end Computes

end FNV_1a

end Aos.hash
