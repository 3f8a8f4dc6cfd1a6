/-
  Aos.Byte — the characters the library computes with.

  A `char` is a `Byte`; `std::string` and a sized buffer are `Bytes`.  Plain
  `char` is signed on every platform the library is built for, so a byte that
  the code widens to `int` goes through `schar`.
-/
import Mathlib.Tactic
import Mathlib.Data.List.TakeWhile

namespace Aos

abbrev Byte := UInt8
abbrev Bytes := List UInt8

/-! ## §1. The characters the code names. -/

def NUL : Byte := 0
def TAB : Byte := 9
def LF : Byte := 10
def CR : Byte := 13
def SP : Byte := 32

/-- The bytes of a string literal. -/
def lit (s : String) : Bytes := s.toList.map Char.toUInt8

/-! ## §2. `char` seen as a number. -/

/-- The value of a plain (signed) `char`. -/
def schar (b : Byte) : Int := if b.toNat < 128 then b.toNat else b.toNat - 256

/-- A narrowing conversion to 32-bit `int`. -/
def toInt (n : Int) : Int := n.bmod (2 ^ 32)

theorem toInt_of_lt {n : Int} (h0 : -2 ^ 31 ≤ n) (h1 : n < 2 ^ 31) : toInt n = n := by
  unfold toInt
  rw [Int.bmod_def]
  omega

/-- `a + b` on `int`; an overflow is undefined, and there is no sum. -/
def int_add (a b : Int) : Option Int :=
  if -2 ^ 31 ≤ a + b ∧ a + b < 2 ^ 31 then some (a + b) else none

theorem int_add_eq_some {a b : Int} (h0 : -2 ^ 31 ≤ a + b) (h1 : a + b < 2 ^ 31) :
    int_add a b = some (a + b) := if_pos ⟨h0, h1⟩

theorem int_add_eq_none {a b : Int} (h : 2 ^ 31 ≤ a + b) : int_add a b = none :=
  if_neg fun hin => absurd hin.2 (by omega)

/-- `::tolower` of the C locale. -/
def tolower (c : Int) : Int := if 65 ≤ c ∧ c ≤ 90 then c + 32 else c

/-- `::toupper` of the C locale. -/
def toupper (c : Int) : Int := if 97 ≤ c ∧ c ≤ 122 then c - 32 else c

/-- `::tolower` on one `char`, and `tolower(str)`. -/
def tolower_char (c : Byte) : Byte := UInt8.ofInt (tolower (schar c))

def tolower_str (str : Bytes) : Bytes := str.map tolower_char

/-- `::toupper` on one `char`. -/
def toupper_char (c : Byte) : Byte := UInt8.ofInt (toupper (schar c))

/-! ## §3. NUL-terminated views. -/

/-- What a `const char*` consumer sees of the bytes at a pointer. -/
def c_str (s : Bytes) : Bytes := s.takeWhile (· ≠ NUL)

theorem c_str_no_nul (s : Bytes) : NUL ∉ c_str s := by
  intro h
  have := List.mem_takeWhile_imp h
  simp at this

theorem c_str_of_no_nul {s : Bytes} (h : NUL ∉ s) : c_str s = s := by
  unfold c_str
  rw [List.takeWhile_eq_self_iff]
  intro b hb
  simp only [ne_eq, decide_not, Bool.not_eq_true', decide_eq_false_iff_not]
  intro heq
  subst heq
  exact h hb

theorem c_str_nul (s : Bytes) : c_str (NUL :: s) = [] := List.takeWhile_cons_of_neg (by simp)

theorem c_str_cons {c : Byte} (hc : c ≠ NUL) (s : Bytes) : c_str (c :: s) = c :: c_str s :=
  List.takeWhile_cons_of_pos (by simpa using hc)

end Aos
