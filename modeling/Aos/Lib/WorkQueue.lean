/-
  Aos.Lib.WorkQueue — threads that take their jobs from one queue.

  A job is put behind the others.  A free thread takes what is first in the queue
  and has the job in its hand until it is through with it; a mark in the place of
  a job ends the thread that takes it.

  Main results:
    • `Distinct.step` — no job gets into two hands, where none is put in that is
      still in the queue or in a hand;
    • `Drains.step`, `Drains.empty` — where the marks are put in behind the last job,
      one for each thread, nothing is left in the queue when all threads have ended.
-/
import Mathlib.Tactic

namespace Lib.WorkQueue

/-- What a thread has in its hand. -/
inductive Hand (J : Type) where
  | free
  | job (j : J)
  | ended

def Hand.isEnded {J : Type} : Hand J → Bool
  | .ended => true
  | _ => false

structure Pool (T J : Type) where
  /-- the jobs and, where there is none, the marks -/
  queue : List (Option J)
  hand : T → Hand J

inductive Act (T J : Type) where
  | put (m : Option J)
  | take (t : T)
  | release (t : T)

/-- What a thread has in its hand when it has taken this from the queue. -/
def taken {J : Type} : Option J → Hand J
  | none => .ended
  | some j => .job j

variable {T J : Type} [DecidableEq T]

/-- The steps of the threads, and of those who put something in. -/
inductive Step (p : Pool T J) : Act T J → Pool T J → Prop
  | put (m : Option J) : Step p (.put m) { p with queue := p.queue ++ [m] }
  | take {t : T} {m : Option J} {queue : List (Option J)} :
      p.hand t = .free → p.queue = m :: queue →
      Step p (.take t) ⟨queue, Function.update p.hand t (taken m)⟩
  | release {t : T} {j : J} :
      p.hand t = .job j → Step p (.release t) { p with hand := Function.update p.hand t .free }

/-! ## §1. No job in two hands. -/

/-- The job is in the queue or in a hand. -/
def Pool.Has (p : Pool T J) (j : J) : Prop := some j ∈ p.queue ∨ ∃ t, p.hand t = .job j

structure Distinct (p : Pool T J) : Prop where
  queue : (p.queue.filterMap id).Nodup
  apart : ∀ t j, p.hand t = .job j → some j ∉ p.queue
  hands : ∀ t t' j, p.hand t = .job j → p.hand t' = .job j → t = t'

theorem mem_jobs {queue : List (Option J)} {j : J} : j ∈ queue.filterMap id ↔ some j ∈ queue := by
  rw [List.mem_filterMap]
  constructor
  · intro h
    obtain ⟨m, hm, hj⟩ := h
    exact hj ▸ hm
  · intro h
    exact ⟨some j, h, rfl⟩

theorem taken_eq_job {m : Option J} {j : J} (h : taken m = .job j) : m = some j := by
  cases m with
  | none => exact absurd h (by simp [taken])
  | some i => rw [Hand.job.inj h]

/-- What is put in can only be what is there afterwards, and nothing else comes into being. -/
theorem Step.has {p p' : Pool T J} {a : Act T J} (h : Step p a p') {j : J} (hj : p'.Has j) :
    p.Has j ∨ a = .put (some j) := by
  cases h with
  | put m =>
      obtain hq | ht := hj
      · obtain hq | hm := List.mem_append.mp hq
        · exact Or.inl (Or.inl hq)
        · exact Or.inr (by rw [List.mem_singleton.mp hm])
      · exact Or.inl (Or.inr ht)
  | @take t m queue hfree hqueue =>
      refine Or.inl ?_
      obtain hq | ⟨t', ht'⟩ := hj
      · exact Or.inl (hqueue ▸ List.mem_cons_of_mem m hq)
      · by_cases heq : t' = t
        · subst heq
          have hm : taken m = .job j := (Function.update_self t' (taken m) p.hand).symm.trans ht'
          exact Or.inl (by rw [hqueue, taken_eq_job hm]; exact List.mem_cons_self)
        · exact Or.inr ⟨t', (Function.update_of_ne heq (taken m) p.hand).symm.trans ht'⟩
  | @release t i _ =>
      refine Or.inl ?_
      obtain hq | ⟨t', ht'⟩ := hj
      · exact Or.inl hq
      · by_cases heq : t' = t
        · subst heq
          exact absurd ((Function.update_self t' .free p.hand).symm.trans ht') (by simp)
        · exact Or.inr ⟨t', (Function.update_of_ne heq .free p.hand).symm.trans ht'⟩

/-- **No job gets into two hands.** -/
theorem Distinct.step {p p' : Pool T J} {a : Act T J} (hp : Distinct p) (h : Step p a p')
    (hnew : ∀ j, a = .put (some j) → ¬ p.Has j) : Distinct p' := by
  cases h with
  | put m =>
      cases m with
      | none =>
          refine ⟨?_, fun t j ht hj => ?_, hp.hands⟩
          · show ((p.queue ++ [none]).filterMap id).Nodup
            rw [List.filterMap_append]
            simpa using hp.queue
          · obtain hj | hj := List.mem_append.mp hj
            · exact hp.apart t j ht hj
            · exact absurd (List.mem_singleton.mp hj) (by simp)
      | some i =>
          have hi := hnew i rfl
          refine ⟨?_, fun t j ht hj => ?_, hp.hands⟩
          · show ((p.queue ++ [some i]).filterMap id).Nodup
            rw [List.filterMap_append]
            refine List.Nodup.append hp.queue (List.nodup_singleton i) ?_
            intro j hj hji
            obtain rfl : j = i := List.mem_singleton.mp hji
            exact hi (Or.inl (mem_jobs.mp hj))
          · obtain hj | hj := List.mem_append.mp hj
            · exact hp.apart t j ht hj
            · obtain rfl := Option.some.inj (List.mem_singleton.mp hj)
              exact hi (Or.inr ⟨t, ht⟩)
  | @take t m queue hfree hqueue =>
      have hnodup := hp.queue
      rw [hqueue] at hnodup
      -- the job in the hand of a thread is its old one, or the one just taken
      have hold : ∀ t' j, Function.update p.hand t (taken m) t' = .job j →
          (t' ≠ t ∧ p.hand t' = .job j) ∨ (t' = t ∧ m = some j) := by
        intro t' j ht'
        by_cases heq : t' = t
        · subst heq
          rw [Function.update_self] at ht'
          exact Or.inr ⟨rfl, taken_eq_job ht'⟩
        · rw [Function.update_of_ne heq] at ht'
          exact Or.inl ⟨heq, ht'⟩
      have hhead : ∀ t' j, p.hand t' = .job j → m ≠ some j := fun t' j ht' hm =>
        hp.apart t' j ht' (by rw [hqueue, hm]; exact List.mem_cons_self)
      refine ⟨?_, fun t' j ht' hj => ?_, fun t₁ t₂ j h₁ h₂ => ?_⟩
      · cases m with
        | none => exact hnodup
        | some i => exact (List.nodup_cons.mp hnodup).2
      · rcases hold t' j ht' with ⟨-, ht'⟩ | ⟨-, rfl⟩
        · exact hp.apart t' j ht' (hqueue ▸ List.mem_cons_of_mem m hj)
        · exact (List.nodup_cons.mp hnodup).1 (mem_jobs.mpr hj)
      · rcases hold t₁ j h₁ with ⟨-, hold₁⟩ | ⟨heq₁, hm₁⟩
        · rcases hold t₂ j h₂ with ⟨-, hold₂⟩ | ⟨-, hm₂⟩
          · exact hp.hands t₁ t₂ j hold₁ hold₂
          · exact absurd hm₂ (hhead t₁ j hold₁)
        · rcases hold t₂ j h₂ with ⟨-, hold₂⟩ | ⟨heq₂, -⟩
          · exact absurd hm₁ (hhead t₂ j hold₂)
          · exact heq₁.trans heq₂.symm
  | @release t i _ =>
      have hold : ∀ t' j, Function.update p.hand t .free t' = .job j → p.hand t' = .job j := by
        intro t' j ht'
        by_cases heq : t' = t
        · subst heq
          exact absurd ((Function.update_self t' .free p.hand).symm.trans ht') (by simp)
        · exact (Function.update_of_ne heq .free p.hand).symm.trans ht'
      exact ⟨hp.queue, fun t' j ht' => hp.apart t' j (hold t' j ht'),
        fun t₁ t₂ j h₁ h₂ => hp.hands t₁ t₂ j (hold t₁ j h₁) (hold t₂ j h₂)⟩

/-! ## §2. The end of the threads. -/

variable [Fintype T]

/-- A sum over the threads, when one has come to another place. -/
theorem sum_update {P M : Type} [AddCommMonoid M] (place : T → P) (g : P → M) (t : T) (a : P) :
    ∑ u, g (Function.update place t a u) + g (place t) = ∑ u, g (place u) + g a := by
  have hother : ∑ u ∈ Finset.univ.erase t, g (Function.update place t a u)
      = ∑ u ∈ Finset.univ.erase t, g (place u) := by
    apply Finset.sum_congr rfl
    intro u hu
    rw [Function.update_of_ne (Finset.ne_of_mem_erase hu)]
  rw [← Finset.add_sum_erase _ (fun u => g (Function.update place t a u)) (Finset.mem_univ t),
    ← Finset.add_sum_erase _ (fun u => g (place u)) (Finset.mem_univ t), hother,
    Function.update_self, add_right_comm, add_comm (g a), add_right_comm]

/-- How many threads have ended. -/
def Pool.ended (p : Pool T J) : Nat := ∑ t, if (p.hand t).isEnded then 1 else 0

/-- `k` marks have been put in, and behind them no job. -/
structure Drains (p : Pool T J) (k : Nat) : Prop where
  shape : ∃ (jobs : List J) (marks : Nat), p.queue = jobs.map some ++ List.replicate marks none ∧
    marks + p.ended = k ∧ (0 < p.ended → jobs = [])

def Act.marks : Act T J → Nat
  | .put none => 1
  | _ => 0

/-- The threads that have ended, when one that has not takes something else in its hand. -/
theorem ended_update (p : Pool T J) {t : T} (ht : (p.hand t).isEnded = false)
    (queue : List (Option J)) (h : Hand J) :
    (⟨queue, Function.update p.hand t h⟩ : Pool T J).ended
      = p.ended + if h.isEnded then 1 else 0 := by
  have hsum := sum_update p.hand (fun h => if h.isEnded then 1 else 0) t h
  rw [ht] at hsum
  exact hsum

/-- **Marks come behind the jobs**, where no job is put in once there is one. -/
theorem Drains.step {p p' : Pool T J} {a : Act T J} {k : Nat} (hp : Drains p k) (h : Step p a p')
    (hlate : ∀ j, a = .put (some j) → k = 0) : Drains p' (k + a.marks) := by
  obtain ⟨jobs, marks, hqueue, hcount, hdone⟩ := hp.shape
  cases h with
  | put m =>
      cases m with
      | none =>
          refine ⟨jobs, marks + 1, ?_, ?_, hdone⟩
          · show p.queue ++ [none] = _
            rw [hqueue, List.append_assoc, List.replicate_succ']
          · show marks + 1 + p.ended = k + 1
            omega
      | some j =>
          have hk := hlate j rfl
          obtain rfl : marks = 0 := by omega
          refine ⟨jobs ++ [j], 0, ?_, ?_, ?_⟩
          · show p.queue ++ [some j] = _
            rw [hqueue, List.replicate_zero, List.append_nil, List.append_nil, List.map_append]
            rfl
          · show 0 + p.ended = k + 0
            omega
          · intro hpos
            have hended : 0 < p.ended := hpos
            omega
  | @take t m queue hfree hq =>
      have ht : (p.hand t).isEnded = false := by
        rw [hfree]
        rfl
      have hended := ended_update p ht queue (taken m)
      rw [hq] at hqueue
      cases jobs with
      | cons j jobs =>
          -- a job is first: no thread has ended, and none does now
          obtain ⟨rfl, rfl⟩ := List.cons.inj hqueue
          have hnone : p.ended = 0 := by
            by_contra hne
            exact absurd (hdone (by omega)) (by simp)
          have hsame : (⟨_, Function.update p.hand t (taken (some j))⟩ : Pool T J).ended
              = p.ended := hended
          refine ⟨jobs, marks, rfl, ?_, fun hpos => ?_⟩
          · rw [hsame]
            exact hcount
          · rw [hsame] at hpos
            omega
      | nil =>
          cases marks with
          | zero => exact absurd hqueue (by simp)
          | succ marks =>
              rw [List.map_nil, List.nil_append, List.replicate_succ] at hqueue
              obtain ⟨rfl, rfl⟩ := List.cons.inj hqueue
              have hmore : (⟨_, Function.update p.hand t (taken none)⟩ : Pool T J).ended
                  = p.ended + 1 := hended
              refine ⟨[], marks, rfl, ?_, fun _ => rfl⟩
              rw [hmore]
              show marks + (p.ended + 1) = k + 0
              omega
  | @release t j hj =>
      have ht : (p.hand t).isEnded = false := by
        rw [hj]
        rfl
      have hsame : (⟨p.queue, Function.update p.hand t .free⟩ : Pool T J).ended = p.ended :=
        ended_update p ht p.queue .free
      refine ⟨jobs, marks, hqueue, ?_, fun hpos => ?_⟩
      · rw [hsame]
        exact hcount
      · rw [hsame] at hpos
        exact hdone hpos

omit [DecidableEq T] in
/-- **Nothing is left in the queue** when all threads have ended, and there was no mark too many. -/
theorem Drains.empty [Nonempty T] {p : Pool T J} {k : Nat} (hp : Drains p k)
    (hk : k ≤ Fintype.card T) (hall : ∀ t, p.hand t = .ended) : p.queue = [] := by
  obtain ⟨jobs, marks, hqueue, hcount, hdone⟩ := hp.shape
  have hended : p.ended = Fintype.card T := by
    unfold Pool.ended
    rw [Finset.sum_congr rfl fun t _ => if_pos (by rw [hall t]; rfl)]
    exact Finset.card_eq_sum_ones Finset.univ |>.symm
  have hpos : 0 < Fintype.card T := Fintype.card_pos
  obtain rfl : marks = 0 := by omega
  rw [hqueue, hdone (by omega)]
  rfl

end Lib.WorkQueue
