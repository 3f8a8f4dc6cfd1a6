/-
  Aos.Lib.Cursor — a `for(; ptr < ptr_end; ++ptr)` loop that reads through one
  cursor and writes through another.

  The loop is given by its body: what one pass does at `*ptr`.  Two meanings
  are attached to the same body:

    • `run`        — the output goes to fresh memory,
    • `runInPlace` — the output overwrites the buffer being read.

  **`runInPlace_spec`**: when the bytes a state still owes (`owed`) never let
  the writing cursor pass the reading one, both meanings agree; and
  **`runInPlace_behind`**: then no pass writes over a cell that is still to be read.
-/
import Mathlib.Tactic

namespace Lib.Cursor

variable {σ α : Type}

/-- One pass through a loop body at `*ptr = a`, with `rest` unread behind it:
`none` is a `break`; `some (s', w, k)` goes on in state `s'` after writing `w`
and moving `ptr` over `k` cells besides the current one. -/
abbrev Body (σ α : Type) := σ → α → List α → Option (σ × List α × Nat)

/-! ## §1. The loop with the output in fresh memory. -/

/-- The final state and everything written; the second argument counts the
cells the previous pass has already moved over. -/
def run (body : Body σ α) : σ → Nat → List α → σ × List α
  | s, _, [] => (s, [])
  | s, k + 1, _ :: rest => run body s k rest
  | s, 0, a :: rest =>
      match body s a rest with
      | none => (s, [])
      | some (s', w, k) => ((run body s' k rest).1, w ++ (run body s' k rest).2)

@[simp] theorem run_nil (body : Body σ α) (s : σ) (k : Nat) : run body s k [] = (s, []) := by
  cases k <;> rfl

theorem run_break {body : Body σ α} {s : σ} {a : α} {rest : List α}
    (h : body s a rest = none) : run body s 0 (a :: rest) = (s, []) := by
  simp only [run, h]

theorem run_step {body : Body σ α} {s s' : σ} {a : α} {rest w : List α} {k : Nat}
    (h : body s a rest = some (s', w, k)) :
    run body s 0 (a :: rest) = ((run body s' k rest).1, w ++ (run body s' k rest).2) := by
  simp only [run, h]

@[simp] theorem run_skip (body : Body σ α) (s : σ) (k : Nat) (a : α) (rest : List α) :
    run body s (k + 1) (a :: rest) = run body s k rest := rfl

/-! ## §2. The loop writing over its own input. -/

/-- Store `w` at positions `o, o + 1, …`. -/
def write (cells : List α) (o : Nat) (w : List α) : List α :=
  cells.take o ++ w ++ cells.drop (o + w.length)

theorem write_length (cells w : List α) (o : Nat) (h : o + w.length ≤ cells.length) :
    (write cells o w).length = cells.length := by
  simp only [write, List.length_append, List.length_take, List.length_drop]
  omega

theorem write_take (cells w : List α) (o : Nat) (h : o ≤ cells.length) :
    (write cells o w).take (o + w.length) = cells.take o ++ w := by
  unfold write
  rw [List.take_left']
  simp only [List.length_append, List.length_take]
  omega

theorem write_drop (cells w : List α) (o i : Nat) (ho : o ≤ cells.length)
    (h : o + w.length ≤ i) : (write cells o w).drop i = cells.drop i := by
  have hlen : (cells.take o ++ w).length = o + w.length := by
    simp only [List.length_append, List.length_take]
    omega
  unfold write
  rw [List.drop_append, List.drop_eq_nil_of_le (by omega), List.nil_append, List.drop_drop, hlen]
  congr 1
  omega

/-- The same loop over one buffer: `left` passes remain, the reading cursor
stands `left` cells before the end of `cells`, the writing cursor at `o`. -/
def runInPlace (body : Body σ α) : Nat → σ → Nat → List α → Nat → σ × List α × Nat
  | 0, s, _, cells, o => (s, cells, o)
  | left + 1, s, k + 1, cells, o => runInPlace body left s k cells o
  | left + 1, s, 0, cells, o =>
      match cells.drop (cells.length - (left + 1)) with
      | [] => (s, cells, o)
      | a :: rest =>
          match body s a rest with
          | none => (s, cells, o)
          | some (s', w, k) => runInPlace body left s' k (write cells o w) (o + w.length)

/-- **The loop over one buffer writes what the loop over two buffers writes.**
`owed s` bounds what a state may write beyond one cell per cell read, so the
unread cells are still the original ones at every pass. -/
theorem runInPlace_spec (body : Body σ α) (owed : σ → Nat)
    (hbody : ∀ s a rest s' w k, body s a rest = some (s', w, k) →
      w.length + owed s' ≤ owed s + 1) :
    ∀ (left : Nat) (s : σ) (k : Nat) (cells : List α) (o : Nat),
      left ≤ cells.length → o + owed s ≤ cells.length - left →
      let r := run body s k (cells.drop (cells.length - left))
      let m := runInPlace body left s k cells o
      m.1 = r.1 ∧ m.2.2 = o + r.2.length
        ∧ m.2.1.take m.2.2 = cells.take o ++ r.2
        ∧ m.2.1.length = cells.length
        ∧ m.2.2 + owed r.1 ≤ cells.length := by
  intro left
  induction left with
  | zero =>
      intro s k cells o _ ho
      simp only [Nat.sub_zero, List.drop_length, run_nil, runInPlace]
      refine ⟨trivial, by simp, by simp, trivial, by omega⟩
  | succ left ih =>
      intro s k cells o hleft ho
      cases k with
      | succ k =>
          -- a cell that is skipped: nothing is read and nothing written
          have htail : cells.drop (cells.length - left)
              = (cells.drop (cells.length - (left + 1))).tail := by
            rw [List.tail_drop]
            congr 1
            omega
          cases hd : cells.drop (cells.length - (left + 1)) with
          | nil =>
              have := List.drop_eq_nil_iff.mp hd
              omega
          | cons a rest =>
              have hrest : cells.drop (cells.length - left) = rest := by rw [htail, hd]; rfl
              simp only [run_skip, runInPlace]
              rw [← hrest]
              exact ih s k cells o (by omega) (by omega)
      | zero =>
          cases hd : cells.drop (cells.length - (left + 1)) with
          | nil =>
              have := List.drop_eq_nil_iff.mp hd
              omega
          | cons a rest =>
              cases hb : body s a rest with
              | none =>
                  -- the loop is left
                  simp only [run_break hb, runInPlace, hd, hb]
                  refine ⟨trivial, by simp, by simp, trivial, by omega⟩
              | some r =>
                  obtain ⟨s', w, k'⟩ := r
                  -- what is written stays in front of the cells not read yet
                  have how := hbody s a rest s' w k' hb
                  have hrest : cells.drop (cells.length - left) = rest := by
                    rw [show cells.length - left = cells.length - (left + 1) + 1 by omega,
                      ← List.tail_drop, hd]
                    rfl
                  have hwlen : (write cells o w).length = cells.length :=
                    write_length cells w o (by omega)
                  have hwdrop : (write cells o w).drop (cells.length - left) = rest := by
                    rw [write_drop cells w o _ (by omega) (by omega), hrest]
                  have step := ih s' k' (write cells o w) (o + w.length)
                    (by omega) (by omega)
                  simp only [hwlen, hwdrop, write_take cells w o (by omega)] at step
                  obtain ⟨h1, h2, h3, h4, h5⟩ := step
                  simp only [run_step hb, runInPlace, hd, hb]
                  refine ⟨h1, ?_, ?_, h4, h5⟩
                  · rw [h2, List.length_append]
                    omega
                  · rw [h3, List.append_assoc]

/-! ## §3. The writing cursor stays behind. -/

/-- No pass writes behind the cell that it has just read. -/
def Behind (body : Body σ α) : Nat → σ → Nat → List α → Nat → Prop
  | 0, _, _, cells, o => o ≤ cells.length
  | left + 1, s, k + 1, cells, o => Behind body left s k cells o
  | left + 1, s, 0, cells, o =>
      match cells.drop (cells.length - (left + 1)) with
      | [] => True
      | a :: rest =>
          match body s a rest with
          | none => o ≤ cells.length - (left + 1)
          | some (s', w, k) =>
              o + w.length ≤ cells.length - left ∧
                Behind body left s' k (write cells o w) (o + w.length)

/-- **The loop over one buffer never overtakes itself.** -/
theorem runInPlace_behind (body : Body σ α) (owed : σ → Nat)
    (hbody : ∀ s a rest s' w k, body s a rest = some (s', w, k) →
      w.length + owed s' ≤ owed s + 1) :
    ∀ (left : Nat) (s : σ) (k : Nat) (cells : List α) (o : Nat),
      left ≤ cells.length → o + owed s ≤ cells.length - left → Behind body left s k cells o := by
  intro left
  induction left with
  | zero =>
      intro s k cells o _ ho
      show o ≤ cells.length
      omega
  | succ left ih =>
      intro s k cells o hleft ho
      cases k with
      | succ k => exact ih s k cells o (by omega) (by omega)
      | zero =>
          unfold Behind
          cases hd : cells.drop (cells.length - (left + 1)) with
          | nil => trivial
          | cons a rest =>
              show (match body s a rest with
                | none => o ≤ cells.length - (left + 1)
                | some (s', w, k) => o + w.length ≤ cells.length - left ∧
                    Behind body left s' k (write cells o w) (o + w.length))
              cases hb : body s a rest with
              | none =>
                  show o ≤ cells.length - (left + 1)
                  omega
              | some r =>
                  obtain ⟨s', w, k'⟩ := r
                  have how := hbody s a rest s' w k' hb
                  have hlen := write_length cells w o (by omega)
                  exact ⟨by omega, ih s' k' _ _ (by omega) (by omega)⟩

end Lib.Cursor
