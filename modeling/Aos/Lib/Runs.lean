/-
  Aos.Lib.Runs — when a property holds all along a run.

  A step has no result where it is undefined.  `Always` is a property of every
  state of a run, `Meets` a condition on every step it takes.

  Main results:
    • `always_of_step`, `always_of_meets` — an invariant of the steps, or of those
      that meet a condition, holds all along a run;
    • `always_iff_meets` — where steps keep an invariant under a condition, and
      lose the property without it, a run has the property all along exactly when
      its steps meet the condition;
    • `foldl_iff_meets` — the same where every step has a result;
    • `run_isSome_iff_steps`, `run_isSome_iff` — a run of partial steps gets to its
      end exactly when each of them is defined where it is taken;
    • `run_parts`, `Meets.parts` — runs whose steps are runs of smaller ones.
-/
import Aos.Lib.Suffixes

namespace Lib.Runs

open Lib.Suffixes (run run_concat run_append)

variable {σ α : Type} (δ : σ → α → Option σ) (s₀ : σ)

/-- `P` holds in every state of the run. -/
def Always (P : σ → Prop) (ops : List α) : Prop :=
  ∀ pre, pre <+: ops → ∀ s, run δ s₀ pre = some s → P s

/-- Every step of the run that is taken meets `C`. -/
def Meets (C : σ → α → Prop) (ops : List α) : Prop :=
  ∀ pre a, pre ++ [a] <+: ops → ∀ s s', run δ s₀ pre = some s → δ s a = some s' → C s a

variable {δ s₀} {P : σ → Prop} {C : σ → α → Prop}

theorem Always.of_prefix {pre ops : List α} (h : Always δ s₀ P ops) (hpre : pre <+: ops) :
    Always δ s₀ P pre := fun pre' hpre' => h pre' (hpre'.trans hpre)

/-- **An invariant of the steps holds all along a run.** -/
theorem always_of_step (Inv : σ → Prop) (h0 : Inv s₀)
    (hstep : ∀ s a s', Inv s → δ s a = some s' → Inv s') (ops : List α) :
    Always δ s₀ Inv ops := by
  intro pre hpre
  induction pre using List.reverseRecOn with
  | nil =>
      intro s hs
      obtain rfl := Option.some.inj hs
      exact h0
  | append_singleton pre a ih =>
      intro s' hs'
      rw [run_concat, Option.bind_eq_some_iff] at hs'
      obtain ⟨s, hs, ha⟩ := hs'
      exact hstep s a s' (ih ((List.prefix_append pre [a]).trans hpre) s hs) ha

/-- **An invariant of the steps that meet a condition** holds all along a run
    whose steps meet it. -/
theorem always_of_meets (Inv : σ → Prop) (h0 : Inv s₀)
    (hkeep : ∀ s a s', Inv s → δ s a = some s' → C s a → Inv s') {ops : List α}
    (hmeets : Meets δ s₀ C ops) : Always δ s₀ Inv ops := by
  intro pre hpre
  induction pre using List.reverseRecOn with
  | nil =>
      intro s hs
      obtain rfl := Option.some.inj hs
      exact h0
  | append_singleton pre a ih =>
      intro s' hs'
      rw [run_concat, Option.bind_eq_some_iff] at hs'
      obtain ⟨s, hs, ha⟩ := hs'
      have hinv := ih ((List.prefix_append pre [a]).trans hpre) s hs
      exact hkeep s a s' hinv ha (hmeets pre a hpre s s' hs ha)

/-- **A run has the property all along exactly when its steps meet the condition**
    under which they stay among the good states; one that does not meet it loses the
    property at once. -/
theorem always_iff_meets (Inv : σ → Prop) (h0 : Inv s₀) (hgood : ∀ s, Inv s → P s)
    (hkeep : ∀ s a s', Inv s → δ s a = some s' → C s a → Inv s')
    (hbreak : ∀ s a s', Inv s → δ s a = some s' → ¬ C s a → ¬ P s') (ops : List α) :
    Always δ s₀ P ops ↔ Meets δ s₀ C ops := by
  constructor
  · intro halways
    induction ops using List.reverseRecOn with
    | nil =>
        intro pre a hpre
        exact absurd (List.prefix_nil.mp hpre) (by simp)
    | append_singleton ops b ih =>
        have hops := ih (halways.of_prefix (List.prefix_append ops [b]))
        intro pre a hpre s s' hs ha
        cases List.prefix_concat_iff.mp hpre with
        | inr hearlier => exact hops pre a hearlier s s' hs ha
        | inl hlast =>
            obtain ⟨rfl, _⟩ := List.append_inj' hlast rfl
            by_contra hC
            have hinv := always_of_meets Inv h0 hkeep hops pre List.prefix_rfl s hs
            refine hbreak s a s' hinv ha hC (halways _ hpre s' ?_)
            rw [run_concat, hs]
            exact ha
  · intro hmeets pre hpre s hs
    exact hgood s (always_of_meets Inv h0 hkeep hmeets pre hpre s hs)

/-- The run of steps that all have a result. -/
theorem run_some (f : σ → α → σ) (s : σ) (ops : List α) :
    run (fun s a => some (f s a)) s ops = some (ops.foldl f s) := by
  induction ops generalizing s with
  | nil => rfl
  | cons a ops ih => exact ih (f s a)

/-- **The same for steps that all have a result.** -/
theorem foldl_iff_meets (s₀ : σ) (f : σ → α → σ) (P Inv : σ → Prop) (C : σ → α → Prop)
    (h0 : Inv s₀) (hgood : ∀ s, Inv s → P s)
    (hkeep : ∀ s a, Inv s → C s a → Inv (f s a))
    (hbreak : ∀ s a, Inv s → ¬ C s a → ¬ P (f s a)) (ops : List α) :
    (∀ pre, pre <+: ops → P (pre.foldl f s₀)) ↔
      ∀ pre a, pre ++ [a] <+: ops → C (pre.foldl f s₀) a := by
  have hiff := always_iff_meets (δ := fun s a => some (f s a)) (C := C) Inv h0 hgood
    (fun s a s' hinv ha hC => Option.some.inj ha ▸ hkeep s a hinv hC)
    (fun s a s' hinv ha hC => Option.some.inj ha ▸ hbreak s a hinv hC) ops
  unfold Always Meets at hiff
  simp only [run_some, Option.some.injEq] at hiff
  constructor
  · intro h pre a hpre
    exact hiff.mp (fun pre hpre s hs => hs ▸ h pre hpre) pre a hpre _ _ rfl rfl
  · intro h pre hpre
    exact hiff.mpr (fun pre a hpre s _ hs _ => hs ▸ h pre a hpre) pre hpre _ rfl

/-- Two runs side by side. -/
theorem foldl_pair {τ : Type} (f : σ → α → σ) (g : τ → α → τ) (s : σ) (t : τ) (ops : List α) :
    ops.foldl (fun p a => (f p.1 a, g p.2 a)) (s, t) = (ops.foldl f s, ops.foldl g t) := by
  induction ops generalizing s t with
  | nil => rfl
  | cons a ops ih => exact ih (f s a) (g t a)

/-- **A run of partial steps** gets to its end exactly when no step on the way is undefined. -/
theorem run_isSome_iff_steps (δ : σ → α → Option σ) (s₀ : σ) (ops : List α) :
    (run δ s₀ ops).isSome ↔
      ∀ pre a s, pre ++ [a] <+: ops → run δ s₀ pre = some s → (δ s a).isSome := by
  induction ops using List.reverseRecOn with
  | nil => exact iff_of_true rfl fun pre a s hpre => absurd (List.prefix_nil.mp hpre) (by simp)
  | append_singleton ops b ih =>
      rw [run_concat]
      constructor
      · intro h pre a s hpre hs
        obtain ⟨s', hs'⟩ := Option.isSome_iff_exists.mp (Option.isSome_of_isSome_bind h)
        have hb : (δ s' b).isSome := by
          rw [hs'] at h
          exact h
        cases List.prefix_concat_iff.mp hpre with
        | inl hlast =>
            obtain ⟨rfl, heq⟩ := List.append_inj' hlast rfl
            obtain rfl := Option.some.inj (hs.symm.trans hs')
            obtain rfl := (List.cons.inj heq).1
            exact hb
        | inr hearlier => exact ih.mp (by rw [hs']; rfl) pre a s hearlier hs
      · intro h
        have hops := ih.mpr fun pre a s hpre => h pre a s (hpre.trans (List.prefix_append ops [b]))
        obtain ⟨s, hs⟩ := Option.isSome_iff_exists.mp hops
        rw [hs]
        exact h ops b s List.prefix_rfl hs

/-- The same, where `f` says where a step leads. -/
theorem run_isSome_iff (f : σ → α → σ) (hsome : ∀ s a, (δ s a).isSome ↔ C s a)
    (hf : ∀ s a s', δ s a = some s' → s' = f s a) (s : σ) (ops : List α) :
    (run δ s ops).isSome ↔ ∀ pre a, pre ++ [a] <+: ops → C (pre.foldl f s) a := by
  induction ops generalizing s with
  | nil => exact iff_of_true rfl fun pre a hpre => absurd (List.prefix_nil.mp hpre) (by simp)
  | cons b ops ih =>
      have hfirst : (∀ pre a, pre ++ [a] <+: b :: ops → C (pre.foldl f s) a) ↔
          C s b ∧ ∀ pre a, pre ++ [a] <+: ops → C (pre.foldl f (f s b)) a := by
        constructor
        · intro h
          exact ⟨h [] b ⟨ops, rfl⟩, fun pre a hpre => h (b :: pre) a ((List.prefix_cons_inj b).mpr hpre)⟩
        · rintro ⟨hb, hothers⟩ pre a hpre
          cases pre with
          | nil =>
              obtain rfl := (List.cons_prefix_cons.mp hpre).1
              exact hb
          | cons d pre =>
              obtain ⟨rfl, hrest⟩ := List.cons_prefix_cons.mp hpre
              exact hothers pre a hrest
      rw [hfirst, run, List.foldlM_cons]
      cases hb : δ s b with
      | none =>
          refine iff_of_false (by simp) fun h => ?_
          have hdef := (hsome s b).mpr h.1
          rw [hb] at hdef
          exact Bool.false_ne_true hdef
      | some s' =>
          have hC : C s b := (hsome s b).mp (by rw [hb]; rfl)
          rw [and_iff_right hC, ← hf s b s' hb]
          exact ih s'

section Parts

variable {β : Type} {δ' : σ → β → Option σ} {f : α → List β}

/-- **A run whose steps are runs of smaller ones.** -/
theorem run_parts (hf : ∀ s a, run δ' s (f a) = δ s a) (s : σ) (ops : List α) :
    run δ' s (ops.flatMap f) = run δ s ops := by
  induction ops generalizing s with
  | nil => rfl
  | cons a ops ih =>
      have hstep : run δ s (a :: ops) = (δ s a).bind (run δ · ops) := rfl
      rw [List.flatMap_cons, run_append, hf, hstep]
      simp only [ih]

/-- What the small steps meet is met in each of the others. -/
theorem Meets.parts {D : σ → β → Prop} {ops : List α} (hf : ∀ s a, run δ' s (f a) = δ s a)
    (h : Meets δ' s₀ D (ops.flatMap f)) {pre : List α} {a : α} (hpre : pre ++ [a] <+: ops) {s : σ}
    (hs : run δ s₀ pre = some s) : Meets δ' s D (f a) := by
  obtain ⟨ops', rfl⟩ := hpre
  intro part b hpart t t' ht hb
  obtain ⟨rest, hrest⟩ := hpart
  refine h (pre.flatMap f ++ part) b ⟨rest ++ ops'.flatMap f, ?_⟩ t t' ?_ hb
  · rw [List.flatMap_append, List.flatMap_append, List.flatMap_singleton, ← hrest]
    simp only [List.append_assoc]
  · rw [run_append, run_parts hf, hs]
    exact ht

end Parts

end Lib.Runs
