/-
  Aos.Lib.Digest — a digest that is computed unit by unit.

  The digest of a list is the fold of one step over it, and it can be continued
  from where it has stopped.  Pieces are fed by a loop whose counter has `w`
  bits: it never reaches a number of pieces that is not a `w`-bit number.

  Main results:
    • `pieces_ends`, `pieces_never` — the loop over the pieces ends exactly when
      their number is one of the counter;
    • `fnv_1a_of_step` — a step on words that computes the step of the hash.
-/
import Aos.Lib.Loop

namespace Lib.Digest

open Lib.Loop

/-! ## §1. Pieces. -/

section Pieces

variable {α σ : Type} (step : σ → α → σ)

/-- One pass over the loop `for( i = 0; i < n; i++ )`, with the digest so far. -/
def pieces_pass {w : Nat} (pieces : List (List α)) (s : BitVec w × σ) : (BitVec w × σ) ⊕ σ :=
  match pieces[s.1.toNat]? with
  | some piece => .inl (s.1 + 1, piece.foldl step s.2)
  | none => .inr s.2

theorem pieces_ends_from {w : Nat} (done pieces : List (List α)) (h : σ)
    (hw : (done ++ pieces).length < 2 ^ w) :
    Ends (pieces_pass step (done ++ pieces)) (BitVec.ofNat w done.length, h)
      (pieces.flatten.foldl step h) := by
  induction pieces generalizing done h with
  | nil =>
      rw [List.append_nil] at hw
      refine (ends_exit _ (r := h) ?_).mpr rfl
      unfold pieces_pass
      rw [BitVec.toNat_ofNat, Nat.mod_eq_of_lt hw, List.append_nil,
        List.getElem?_eq_none (le_refl _)]
  | cons piece pieces ih =>
      have hsplit : done ++ piece :: pieces = (done ++ [piece]) ++ pieces := by simp
      have hlt : done.length < 2 ^ w := by
        rw [List.length_append] at hw
        omega
      have hpass : pieces_pass step (done ++ piece :: pieces) (BitVec.ofNat w done.length, h)
          = .inl (BitVec.ofNat w (done ++ [piece]).length, piece.foldl step h) := by
        unfold pieces_pass
        rw [BitVec.toNat_ofNat, Nat.mod_eq_of_lt hlt, List.getElem?_append_right (le_refl _),
          Nat.sub_self, List.getElem?_cons_zero, List.length_append, List.length_singleton,
          BitVec.ofNat_add]
        rfl
      rw [ends_next _ hpass, List.flatten_cons, List.foldl_append, hsplit]
      rw [hsplit] at hw
      exact ih (done ++ [piece]) (piece.foldl step h) hw

/-- **The loop ends** with the digest of the concatenation, as long as the counter can reach
    the number of pieces. -/
theorem pieces_ends {w : Nat} (pieces : List (List α)) (h : σ) (hw : pieces.length < 2 ^ w) :
    Ends (pieces_pass step pieces) (0#w, h) (pieces.flatten.foldl step h) :=
  pieces_ends_from step [] pieces h hw

/-- **It never ends** with as many pieces as the counter has values, or more. -/
theorem pieces_never {w : Nat} (pieces : List (List α)) (hw : 2 ^ w ≤ pieces.length)
    (s : BitVec w × σ) (r : σ) : ¬ Ends (pieces_pass step pieces) s r := by
  rintro ⟨fuel, hfuel⟩
  refine loop_invariant (pieces_pass step pieces) (fun _ => True) (fun _ => False)
    (fun _ _ _ _ => trivial) ?_ fuel s r trivial hfuel
  intro s r _ hpass
  -- every value of the counter is the place of a piece
  have hin : s.1.toNat < pieces.length := lt_of_lt_of_le s.1.isLt hw
  unfold pieces_pass at hpass
  rw [List.getElem?_eq_getElem hin] at hpass
  exact absurd hpass (by simp)

end Pieces

/-! ## §2. The hash of Fowler, Noll and Vo, of `w` bits. -/

/-- FNV-1a: exclusive or with the byte, times the prime. -/
def fnv_1a (w prime hval : Nat) (bytes : List UInt8) : Nat :=
  bytes.foldl (fun hval octet => (hval ^^^ octet.toNat) * prime % 2 ^ w) hval

/-- A step on numbers of some type that computes the step of the hash computes the hash. -/
theorem fnv_1a_of_step {σ : Type} {w prime : Nat} (toNat : σ → Nat) (step : σ → UInt8 → σ)
    (hstep : ∀ h octet, toNat (step h octet) = (toNat h ^^^ octet.toNat) * prime % 2 ^ w)
    (h : σ) (bytes : List UInt8) :
    toNat (bytes.foldl step h) = fnv_1a w prime (toNat h) bytes := by
  induction bytes generalizing h with
  | nil => rfl
  | cons octet bytes ih =>
      rw [List.foldl_cons, ih, hstep]
      rfl

end Lib.Digest
