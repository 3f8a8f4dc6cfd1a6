/-
  Aos.Lib.Ownership — cells that are in one place each.

  The pointers a program keeps are a list.  It owns its cells when every cell that
  there is, is kept once, and nothing else is kept; then no pointer dangles, nothing
  is freed twice, and nothing leaks.

  Main results:
    • `Owned.perm`, `Owned.alloc`, `Owned.free` — pointers move, cells come and go;
    • `Owned.free_all` — what is kept in one place can all be freed;
    • `seats_set` — the pointers of seats, when what is on one of them changes.
-/
import Aos.Lib.Heap

namespace Lib.Ownership

open Lib.Heap

variable {α β : Type}

structure Owned (h : Cells α) (held : List Nat) : Prop where
  nodup : held.Nodup
  live : ∀ i, i ∈ held ↔ Live h i

/-! ## §1. What keeps it. -/

section Owned

variable {h : Cells α} {held held' : List Nat} {i : Nat}

theorem owned_nil : Owned ([] : Cells α) [] := by
  refine ⟨List.nodup_nil, fun i => iff_of_false List.not_mem_nil ?_⟩
  intro hlive
  exact absurd hlive.lt (Nat.not_lt_zero i)

namespace Owned

theorem perm (hown : Owned h held) (hperm : held'.Perm held) : Owned h held' := by
  refine ⟨hperm.nodup_iff.mpr hown.nodup, fun i => ?_⟩
  rw [hperm.mem_iff]
  exact hown.live i

theorem alloc (hown : Owned h held) (a : α) : Owned (alloc h a) (h.length :: held) := by
  refine ⟨?_, fun i => ?_⟩
  · rw [List.nodup_cons]
    refine ⟨?_, hown.nodup⟩
    intro hmem
    exact absurd ((hown.live _).mp hmem).lt (lt_irrefl _)
  · rw [live_alloc, List.mem_cons, hown.live]

theorem free (hown : Owned h (i :: held)) : Owned (free h i) held := by
  have hnodup := List.nodup_cons.mp hown.nodup
  refine ⟨hnodup.2, fun j => ?_⟩
  rw [live_free, ← hown.live, List.mem_cons]
  constructor
  · intro hj
    refine ⟨Or.inr hj, ?_⟩
    intro heq
    exact hnodup.1 (heq ▸ hj)
  · intro hj
    exact hj.1.resolve_left hj.2

theorem get (hown : Owned h held) (hi : i ∈ held) : ∃ a, get h i = some a := (hown.live i).mp hi

theorem count (hown : Owned h held) (hi : Live h i) : held.count i = 1 :=
  List.count_eq_one_of_mem hown.nodup ((hown.live i).mpr hi)

end Owned

/-- `delete` of a pointer, which must not dangle. -/
def delete (h : Cells α) (i : Nat) : Option (Cells α) := (Heap.get h i).map fun _ => Heap.free h i

theorem Owned.delete (hown : Owned h (i :: held)) :
    ∃ h', delete h i = some h' ∧ Owned h' held := by
  obtain ⟨a, ha⟩ := hown.get List.mem_cons_self
  refine ⟨_, ?_, hown.free⟩
  show (Heap.get h i).map _ = _
  rw [ha]
  rfl

/-- **All that is in one place is freed, and each of it once.** -/
theorem Owned.free_all (gone : List Nat) : ∀ {h : Cells α}, Owned h (gone ++ held) →
    ∃ h', gone.foldlM Ownership.delete h = some h' ∧ Owned h' held := by
  induction gone with
  | nil => intro h hown; exact ⟨h, rfl, hown⟩
  | cons i gone ih =>
      intro h hown
      obtain ⟨h₁, hdelete, hown₁⟩ := hown.delete
      obtain ⟨h', hrest, hown'⟩ := ih hown₁
      refine ⟨h', ?_, hown'⟩
      rw [List.foldlM_cons, hdelete]
      exact hrest

end Owned

/-! ## §2. Seats. -/

section Seats

variable {l : List α} {i : Nat} {a : α}

/-- What is on the seats, with what is on one of them first. -/
theorem seats_perm (f : α → List β) (hi : l[i]? = some a) :
    (l.flatMap f).Perm (f a ++ (l.eraseIdx i).flatMap f) := by
  obtain ⟨hlt, ha⟩ := List.getElem?_eq_some_iff.mp hi
  have hperm := (List.getElem_cons_eraseIdx_perm hlt).symm.flatMap_right f
  rw [ha, List.flatMap_cons] at hperm
  exact hperm

theorem seats_set (f : α → List β) (hi : l[i]? = some a) (b : α) :
    ((l.set i b).flatMap f).Perm (f b ++ (l.eraseIdx i).flatMap f) := by
  obtain ⟨hlt, _⟩ := List.getElem?_eq_some_iff.mp hi
  have hb : (l.set i b)[i]? = some b := List.getElem?_set_self hlt
  have hperm := seats_perm f hb
  rw [List.eraseIdx_set_eq] at hperm
  exact hperm

/-- How many seats there are of a kind. -/
theorem seats_count (p : α → Bool) (hi : l[i]? = some a) :
    l.countP p = (p a).toNat + (l.eraseIdx i).countP p := by
  obtain ⟨hlt, ha⟩ := List.getElem?_eq_some_iff.mp hi
  have hperm := (List.getElem_cons_eraseIdx_perm hlt).countP_eq p
  rw [ha, List.countP_cons] at hperm
  cases hp : p a with
  | true => rw [hp] at hperm; simp only [if_pos] at hperm; rw [← hperm]; exact Nat.add_comm _ _
  | false => rw [hp] at hperm; simpa using hperm.symm

theorem seats_count_set (p : α → Bool) (hi : l[i]? = some a) (b : α) :
    (l.set i b).countP p = (p b).toNat + (l.eraseIdx i).countP p := by
  obtain ⟨hlt, _⟩ := List.getElem?_eq_some_iff.mp hi
  have hb : (l.set i b)[i]? = some b := List.getElem?_set_self hlt
  have hcount := seats_count p hb
  rw [List.eraseIdx_set_eq] at hcount
  exact hcount

end Seats

end Lib.Ownership
