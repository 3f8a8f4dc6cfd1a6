/-
  Aos.Lib.Packed — a list of strings packed into one string.

  Each entry is followed by a terminator; beside the packed string stands the
  list of the entries' offsets.  The lemmas say what appending, inserting,
  removing or replacing an entry means for both, so a container that stores
  the pair only has to show that it performs these edits.
-/
import Mathlib.Tactic

namespace Lib.Packed

variable {α : Type}

/-- The packed string: every entry with the terminator `z` behind it. -/
def pack (z : α) : List (List α) → List α
  | [] => []
  | s :: L => s ++ z :: pack z L

/-- The offset of each entry when the first one lies at `b`. -/
def offsets : Nat → List (List α) → List Nat
  | _, [] => []
  | b, s :: L => b :: offsets (b + (s.length + 1)) L

/-- The room all entries take. -/
def total : List (List α) → Nat
  | [] => 0
  | s :: L => s.length + 1 + total L

@[simp] theorem pack_nil (z : α) : pack z [] = [] := rfl

@[simp] theorem pack_cons (z : α) (s : List α) (L : List (List α)) :
    pack z (s :: L) = s ++ z :: pack z L := rfl

@[simp] theorem offsets_nil (b : Nat) : offsets b ([] : List (List α)) = [] := rfl

@[simp] theorem offsets_cons (b : Nat) (s : List α) (L : List (List α)) :
    offsets b (s :: L) = b :: offsets (b + (s.length + 1)) L := rfl

@[simp] theorem total_nil : total ([] : List (List α)) = 0 := rfl

@[simp] theorem total_cons (s : List α) (L : List (List α)) :
    total (s :: L) = s.length + 1 + total L := rfl

@[simp] theorem pack_length (z : α) (L : List (List α)) : (pack z L).length = total L := by
  induction L with
  | nil => rfl
  | cons s L ih =>
      simp only [pack_cons, List.length_append, List.length_cons, ih, total_cons]
      omega

@[simp] theorem offsets_length (L : List (List α)) : ∀ b, (offsets b L).length = L.length := by
  induction L with
  | nil => intro b; rfl
  | cons s L ih => intro b; simp [ih]

@[simp] theorem pack_append (z : α) (A B : List (List α)) :
    pack z (A ++ B) = pack z A ++ pack z B := by
  induction A with
  | nil => rfl
  | cons s A ih => simp [ih]

@[simp] theorem total_append (A B : List (List α)) : total (A ++ B) = total A + total B := by
  induction A with
  | nil => simp
  | cons s A ih =>
      simp only [List.cons_append, total_cons, ih]
      omega

theorem length_le_total (L : List (List α)) : L.length ≤ total L := by
  induction L with
  | nil => exact le_rfl
  | cons s L ih =>
      simp only [List.length_cons, total_cons]
      omega

@[simp] theorem offsets_append (A B : List (List α)) :
    ∀ b, offsets b (A ++ B) = offsets b A ++ offsets (b + total A) B := by
  induction A with
  | nil => intro b; rfl
  | cons s A ih =>
      intro b
      simp only [List.cons_append, offsets_cons, ih, total_cons]
      rw [Nat.add_assoc]

/-- Moving the first entry moves every offset by as much. -/
theorem offsets_shift (f : Nat → Nat) (L : List (List α)) :
    ∀ b b', (∀ n ≤ total L, f (b + n) = b' + n) → (offsets b L).map f = offsets b' L := by
  induction L with
  | nil => intro b b' _; rfl
  | cons s L ih =>
      intro b b' hf
      have h0 := hf 0 (Nat.zero_le _)
      have hrest := ih (b + (s.length + 1)) (b' + (s.length + 1)) (fun n hn => by
        have := hf (s.length + 1 + n) (by simp only [total_cons]; omega)
        simpa only [Nat.add_assoc] using this)
      simp only [offsets_cons, List.map_cons, hrest]
      simpa using h0

/-- Offsets and packed string give the entries back. -/
theorem packed_injective (z : α) (L : List (List α)) :
    ∀ (b : Nat) (L' : List (List α)), offsets b L = offsets b L' → pack z L = pack z L' →
      L = L' := by
  induction L with
  | nil =>
      intro b L' hoffs _
      have hlen := congrArg List.length hoffs
      rw [offsets_length, offsets_length] at hlen
      exact (List.length_eq_zero_iff.mp hlen.symm).symm
  | cons s L ih =>
      intro b L' hoffs hpack
      cases L' with
      | nil => exact absurd hoffs (by simp)
      | cons s' L' =>
          rw [offsets_cons, offsets_cons, List.cons.injEq] at hoffs
          have hrest := hoffs.2
          rw [pack_cons, pack_cons] at hpack
          -- the next offset, or the end of the string, says how long the entry is
          have hlen : s.length = s'.length := by
            have hcount := congrArg List.length hrest
            rw [offsets_length, offsets_length] at hcount
            cases L with
            | nil =>
                obtain rfl := List.length_eq_zero_iff.mp hcount.symm
                have htotal := congrArg List.length hpack
                simpa using htotal
            | cons t L =>
                cases L' with
                | nil => exact absurd hcount (by simp)
                | cons t' L' =>
                    rw [offsets_cons, offsets_cons, List.cons.injEq] at hrest
                    omega
          obtain ⟨rfl, htail⟩ := List.append_inj hpack hlen
          rw [ih _ L' hrest (List.cons.inj htail).2]

/-! ## Edits at the position behind a prefix. -/

variable {β : Type}

/-- The list around position `pos`. -/
theorem split_at {L : List β} {pos : Nat} (h : pos < L.length) :
    ∃ A s B, L = A ++ s :: B ∧ A.length = pos :=
  ⟨L.take pos, L[pos], L.drop (pos + 1),
    by rw [List.getElem_cons_drop, List.take_append_drop], by
      rw [List.length_take]
      omega⟩

theorem getD_at (A B : List β) (x d : β) : (A ++ x :: B).getD A.length d = x := by
  simp [List.getD]

theorem insertIdx_at (A B : List β) (x : β) : (A ++ B).insertIdx A.length x = A ++ x :: B := by
  induction A with
  | nil => simp
  | cons a A ih => simp [ih]

theorem eraseIdx_at (A B : List β) (x : β) : (A ++ x :: B).eraseIdx A.length = A ++ B := by
  induction A with
  | nil => rfl
  | cons a A ih => simp [ih]

theorem set_at (A B : List β) (x y : β) : (A ++ x :: B).set A.length y = A ++ y :: B := by
  induction A with
  | nil => rfl
  | cons a A ih => simp [ih]

end Lib.Packed
