/-
  Aos.Lib.Trie — nodes named by the strings that lead to them.

  A family gives the labels of the nodes.  A node can be given a child and lose one,
  with all that is below it, and its label can be changed; where there is no node,
  nothing happens.

  Main results:
    • `step_untouched` — an operation changes only the nodes that it is about;
    • `run_isSome_iff` — a node is there exactly when its history says so.
-/
import Mathlib.Tactic

namespace Lib.Trie

variable {κ ν : Type}

/-! ## §1. Families and operations. -/

abbrev Family (κ ν : Type) := List κ → Option ν

/-- A call at the node `π`. -/
inductive Op (κ ν : Type)
  | set (π : List κ) (k : κ)
  | unset (π : List κ) (k : κ)
  | label (π : List κ) (v : ν)

namespace Op

/-- The nodes an operation is about. -/
def Touches : Op κ ν → List κ → Prop
  | .set π k, ρ => ρ = π ++ [k]
  | .unset π k, ρ => π ++ [k] <+: ρ
  | .label π _, ρ => ρ = π

/-- Those it takes away. -/
def Removes : Op κ ν → List κ → Prop
  | .set _ _, _ => False
  | .unset π k, ρ => π ++ [k] <+: ρ
  | .label _ _, _ => False

theorem not_removes_nil (op : Op κ ν) : ¬ op.Removes [] := by
  cases op with
  | set π k => exact id
  | unset π k => exact fun h => absurd (List.prefix_nil.mp h) (by simp)
  | label π v => exact id

end Op

section Run

variable [DecidableEq κ] (fresh : ν)

def step (S : Family κ ν) : Op κ ν → Family κ ν
  | .set π k => fun ρ => if ρ = π ++ [k] ∧ (S π).isSome ∧ (S ρ).isNone then some fresh else S ρ
  | .unset π k => fun ρ => if π ++ [k] <+: ρ then none else S ρ
  | .label π v => fun ρ => if ρ = π ∧ (S ρ).isSome then some v else S ρ

/-- Nothing but the root. -/
def start (v : ν) : Family κ ν := fun ρ => if ρ = [] then some v else none

def run (v : ν) (ops : List (Op κ ν)) : Family κ ν := ops.foldl (step fresh) (start v)

theorem run_concat (v : ν) (ops : List (Op κ ν)) (op : Op κ ν) :
    run fresh v (ops ++ [op]) = step fresh (run fresh v ops) op := by
  rw [run, List.foldl_append]
  rfl

variable {fresh}

/-- **The other nodes are what they were.** -/
theorem step_untouched {S : Family κ ν} {op : Op κ ν} {ρ : List κ} (h : ¬ op.Touches ρ) :
    step fresh S op ρ = S ρ := by
  cases op with
  | set π k => exact if_neg fun hat => h hat.1
  | unset π k => exact if_neg h
  | label π v => exact if_neg fun hat => h hat.1

/-- The nodes behind an operation: the child that is set, and those that are not taken away. -/
theorem step_isSome_iff {S : Family κ ν} {op : Op κ ν} {ρ : List κ} :
    (step fresh S op ρ).isSome ↔
      (∃ π k, op = .set π k ∧ ρ = π ++ [k] ∧ (S π).isSome) ∨ ((S ρ).isSome ∧ ¬ op.Removes ρ) := by
  cases op with
  | set π k =>
      show (ite _ _ _ : Option ν).isSome ↔ _
      split_ifs with hset
      · exact iff_of_true rfl (Or.inl ⟨π, k, rfl, hset.1, hset.2.1⟩)
      · constructor
        · exact fun hS => Or.inr ⟨hS, id⟩
        · rintro (⟨_, _, hop, rfl, hπ⟩ | ⟨hS, -⟩)
          · obtain ⟨rfl, rfl⟩ := Op.set.inj hop
            -- the child was there before
            cases hS : S (π ++ [k]) with
            | none => exact absurd ⟨rfl, hπ, by rw [hS]; rfl⟩ hset
            | some v => rfl
          · exact hS
  | unset π k =>
      show (ite _ _ _ : Option ν).isSome ↔ _
      split_ifs with hat
      · exact iff_of_false (by simp) fun h => h.elim (by simp) fun h => h.2 hat
      · exact ⟨fun hS => Or.inr ⟨hS, hat⟩, fun h => h.elim (by simp) fun h => h.1⟩
  | label π v =>
      show (ite _ _ _ : Option ν).isSome ↔ _
      have hkeep : ((∃ σ k, (Op.label π v : Op κ ν) = .set σ k ∧ ρ = σ ++ [k] ∧ (S σ).isSome) ∨
          (S ρ).isSome ∧ ¬ (Op.label π v).Removes ρ) ↔ (S ρ).isSome :=
        ⟨fun h => h.elim (by simp) fun h => h.1, fun hS => Or.inr ⟨hS, id⟩⟩
      rw [hkeep]
      split_ifs with hat
      · exact iff_of_true rfl hat.2
      · rfl

end Run

/-! ## §2. Histories. -/

/-- The node was set, at a node that was there then, and neither it nor one above it has been
    unset since. -/
inductive Alive : List (Op κ ν) → List κ → Prop
  | root (ops : List (Op κ ν)) : Alive ops []
  | child {pre post : List (Op κ ν)} {π : List κ} {k : κ} :
      Alive pre π → (∀ op ∈ post, ¬ op.Removes (π ++ [k])) →
      Alive (pre ++ .set π k :: post) (π ++ [k])

theorem alive_concat {ops : List (Op κ ν)} {op : Op κ ν} {ρ : List κ} :
    Alive (ops ++ [op]) ρ ↔
      (∃ π k, op = .set π k ∧ ρ = π ++ [k] ∧ Alive ops π) ∨ (Alive ops ρ ∧ ¬ op.Removes ρ) := by
  constructor
  · intro h
    generalize hall : ops ++ [op] = all at h
    cases h with
    | root _ => exact Or.inr ⟨.root ops, op.not_removes_nil⟩
    | @child pre post π k hπ hpost =>
        cases post using List.reverseRecOn with
        | nil =>
            -- the last operation has set the node
            obtain ⟨rfl, hlast⟩ := List.append_inj' hall rfl
            exact Or.inl ⟨π, k, (List.cons.inj hlast).1, rfl, hπ⟩
        | append_singleton post last _ =>
            rw [← List.cons_append, ← List.append_assoc] at hall
            obtain ⟨rfl, hlast⟩ := List.append_inj' hall rfl
            obtain rfl := (List.cons.inj hlast).1
            refine Or.inr ⟨.child hπ fun o ho => hpost o (List.mem_append_left _ ho), ?_⟩
            exact hpost op (List.mem_append_right _ List.mem_cons_self)
  · rintro (⟨π, k, rfl, rfl, hπ⟩ | ⟨hρ, hkeep⟩)
    · exact .child hπ fun o ho => absurd ho List.not_mem_nil
    · cases hρ with
      | root _ => exact .root _
      | @child pre post π k hπ hpost =>
          rw [List.append_assoc, List.cons_append]
          refine .child hπ fun o ho => ?_
          cases List.mem_append.mp ho with
          | inl hold => exact hpost o hold
          | inr hnew => exact List.mem_singleton.mp hnew ▸ hkeep

/-- No string is longer than its history. -/
theorem Alive.length_le {ops : List (Op κ ν)} {ρ : List κ} (h : Alive ops ρ) :
    ρ.length ≤ ops.length := by
  induction h with
  | root ops => exact Nat.zero_le _
  | child _ _ ih =>
      simp only [List.length_append, List.length_cons, List.length_nil]
      omega

/-- **The nodes that are there** after a run of operations. -/
theorem run_isSome_iff [DecidableEq κ] (fresh v : ν) (ops : List (Op κ ν)) (ρ : List κ) :
    (run fresh v ops ρ).isSome ↔ Alive ops ρ := by
  induction ops using List.reverseRecOn generalizing ρ with
  | nil =>
      show (ite _ _ _ : Option ν).isSome ↔ _
      split_ifs with hρ
      · exact iff_of_true rfl (hρ ▸ .root [])
      · refine iff_of_false (by simp) fun h => ?_
        generalize hnil : ([] : List (Op κ ν)) = ops at h
        cases h with
        | root _ => exact hρ rfl
        | child _ _ => exact absurd hnil (by simp)
  | append_singleton ops op ih => simp only [run_concat, step_isSome_iff, alive_concat, ih]

end Lib.Trie
