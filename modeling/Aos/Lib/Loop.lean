/-
  Aos.Lib.Loop — a `while` loop that may not end.

  A pass over the body either goes round again with a new state or leaves the
  loop with a result.  `loop` runs a number of passes; `Ends` says that some
  number is enough.

  Main results:
    • `ends_next`, `ends_exit` — one pass of a loop that ends;
    • `Ends.unique` — a loop has one result;
    • `Passes.ends_iff` — a loop ends as it does from any state that it passes;
    • `not_ends_of_stuck` — a pass that changes nothing is repeated for ever;
    • `ends_of_measure` — a loop ends when every pass lowers a measure;
    • `ends_of_invariant` — the rule of a loop with an invariant: what it is left
      with, when every pass keeps the invariant and lowers the measure.
-/
import Mathlib.Tactic

namespace Lib.Loop

variable {σ ρ : Type} (body : σ → σ ⊕ ρ)

/-- At most `fuel` passes; `none` when they were not enough. -/
def loop : Nat → σ → Option ρ
  | 0, _ => none
  | fuel + 1, s =>
      match body s with
      | .inl s' => loop fuel s'
      | .inr r => some r

/-- The loop entered in `s` is left with `r`. -/
def Ends (s : σ) (r : ρ) : Prop := ∃ fuel, loop body fuel s = some r

theorem loop_next {s s' : σ} (h : body s = .inl s') (fuel : Nat) :
    loop body (fuel + 1) s = loop body fuel s' := by
  rw [loop, h]

theorem loop_exit {s : σ} {r : ρ} (h : body s = .inr r) (fuel : Nat) :
    loop body (fuel + 1) s = some r := by
  rw [loop, h]

/-! ## §1. One pass. -/

theorem ends_next {s s' : σ} {r : ρ} (h : body s = .inl s') :
    Ends body s r ↔ Ends body s' r := by
  constructor
  · intro hends
    obtain ⟨fuel, hfuel⟩ := hends
    cases fuel with
    | zero => exact absurd hfuel (by simp [loop])
    | succ fuel =>
        rw [loop_next body h] at hfuel
        exact ⟨fuel, hfuel⟩
  · intro hends
    obtain ⟨fuel, hfuel⟩ := hends
    refine ⟨fuel + 1, ?_⟩
    rw [loop_next body h]
    exact hfuel

theorem ends_exit {s : σ} {r r' : ρ} (h : body s = .inr r) : Ends body s r' ↔ r' = r := by
  constructor
  · intro hends
    obtain ⟨fuel, hfuel⟩ := hends
    cases fuel with
    | zero => exact absurd hfuel (by simp [loop])
    | succ fuel =>
        rw [loop_exit body h] at hfuel
        exact (Option.some.inj hfuel).symm
  · intro heq
    refine ⟨1, ?_⟩
    rw [loop_exit body h, heq]

/-! ## §2. Whole runs. -/

theorem loop_more (fuel k : Nat) :
    ∀ (s : σ) (r : ρ), loop body fuel s = some r → loop body (fuel + k) s = some r := by
  induction fuel with
  | zero => intro s r h; exact absurd h (by simp [loop])
  | succ fuel ih =>
      intro s r h
      have hsum : fuel + 1 + k = fuel + k + 1 := by omega
      rw [hsum]
      cases hb : body s with
      | inl s' =>
          rw [loop_next body hb] at h ⊢
          exact ih s' r h
      | inr r' =>
          rw [loop_exit body hb] at h ⊢
          exact h

/-- **A loop has one result.** -/
theorem Ends.unique {s : σ} {r r' : ρ} (h : Ends body s r) (h' : Ends body s r') : r = r' := by
  obtain ⟨fuel, hfuel⟩ := h
  obtain ⟨fuel', hfuel'⟩ := h'
  have hmore := loop_more body fuel fuel' s r hfuel
  have hmore' := loop_more body fuel' fuel s r' hfuel'
  rw [Nat.add_comm fuel' fuel, hmore] at hmore'
  exact Option.some.inj hmore'

/-- The loop goes round from `s` to `s'`. -/
def Passes (s s' : σ) : Prop := Relation.ReflTransGen (fun s s' => body s = .inl s') s s'

/-- **A loop ends as it does from any state that it passes.** -/
theorem Passes.ends_iff {s s' : σ} (h : Passes body s s') (r : ρ) :
    Ends body s r ↔ Ends body s' r := by
  induction h with
  | refl => exact Iff.rfl
  | tail _ hpass ih => exact ih.trans (ends_next body hpass)

/-- **A pass that changes nothing is repeated for ever.** -/
theorem not_ends_of_stuck {s : σ} (h : body s = .inl s) (r : ρ) : ¬ Ends body s r := by
  intro hends
  obtain ⟨fuel, hfuel⟩ := hends
  induction fuel with
  | zero => exact absurd hfuel (by simp [loop])
  | succ fuel ih =>
      rw [loop_next body h] at hfuel
      exact ih hfuel

/-- What a loop is left with when it ends, its passes keeping an invariant. -/
theorem loop_invariant (Inv : σ → Prop) (Post : ρ → Prop)
    (hnext : ∀ s s', Inv s → body s = .inl s' → Inv s')
    (hexit : ∀ s r, Inv s → body s = .inr r → Post r) (fuel : Nat) :
    ∀ s r, Inv s → loop body fuel s = some r → Post r := by
  induction fuel with
  | zero => intro s r _ h; exact absurd h (by simp [loop])
  | succ fuel ih =>
      intro s r hinv h
      cases hb : body s with
      | inl s' =>
          rw [loop_next body hb] at h
          exact ih s' r (hnext s s' hinv hb) h
      | inr r' =>
          rw [loop_exit body hb] at h
          obtain rfl := Option.some.inj h
          exact hexit s r' hinv hb

/-- **The rule of a loop with an invariant.** -/
theorem ends_of_invariant (Inv : σ → Prop) (Post : ρ → Prop) (μ : σ → Nat)
    (hnext : ∀ s s', Inv s → body s = .inl s' → Inv s' ∧ μ s' < μ s)
    (hexit : ∀ s r, Inv s → body s = .inr r → Post r) :
    ∀ s, Inv s → ∃ r, Ends body s r ∧ Post r := by
  intro s
  induction hn : μ s using Nat.strong_induction_on generalizing s with
  | _ n ih =>
      intro hinv
      subst hn
      cases hb : body s with
      | inl s' =>
          obtain ⟨hinv', hlt⟩ := hnext s s' hinv hb
          obtain ⟨r, hr, hpost⟩ := ih (μ s') hlt s' rfl hinv'
          exact ⟨r, (ends_next body hb).mpr hr, hpost⟩
      | inr r => exact ⟨r, (ends_exit body hb).mpr rfl, hexit s r hinv hb⟩

/-- **A loop ends when every pass lowers a measure.** -/
theorem ends_of_measure (μ : σ → Nat) (hμ : ∀ s s', body s = .inl s' → μ s' < μ s) :
    ∀ s, ∃ r, Ends body s r := by
  intro s
  obtain ⟨r, hr, _⟩ := ends_of_invariant body (fun _ => True) (fun _ => True) μ
    (fun s s' _ h => ⟨trivial, hμ s s' h⟩) (fun _ _ _ _ => trivial) s trivial
  exact ⟨r, hr⟩

end Lib.Loop
