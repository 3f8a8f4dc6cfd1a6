/-
  Aos.Lib.Blocks — arrays on a heap, with raw copies of their cells.

  A block is what one call of `malloc` or `realloc` has given, a list of cells;
  `realloc` ends the block it is called with and gives another one that begins
  with the same cells.  What a cell holds in which nothing has been put, or what
  lies behind a block, is `junk`: nothing is known of it.  A write behind a block
  and any use of a block that is not there have no result.

  Main results:
    • `copy_up_gap`, `copy_down_gap` — the loops that make room in an array, and
      close a gap, by copying one cell at a time;
    • `malloc_new`, `realloc_one`, `modify_eq`, `free_eq`, with `Kept` — the block an
      operation is about, and the others;
    • `realloc_frees`, `freed_modify` — a block that has moved is gone, and stays so.
-/
import Aos.Lib.Heap
import Aos.Lib.Packed

namespace Lib.Blocks

open Lib.Heap Lib.Packed

variable {α : Type}

abbrev Arrays (α : Type) := Cells (List α)

/-! ## §1. One array. -/

/-- A cell is written. -/
def put (cells : List α) (i : Nat) (a : α) : Option (List α) :=
  if i < cells.length then some (cells.set i a) else none

theorem put_at (A B : List α) (x y : α) : put (A ++ x :: B) A.length y = some (A ++ y :: B) := by
  rw [put, if_pos (by simp), set_at]

/-- A cell of the first part of an array. -/
theorem put_in (A B rest : List α) (x y : α) :
    put (A ++ x :: B ++ rest) A.length y = some (A ++ y :: B ++ rest) := by
  rw [List.append_assoc, List.append_assoc]
  exact put_at A (B ++ rest) x y

section Copies

variable (junk : Nat → α)

/-- `for(int i = n; i > insert; --i) memcpy(cells+i, cells+i-1)` -/
def copy_up (insert : Nat) : Nat → List α → Option (List α)
  | 0, cells => some cells
  | i + 1, cells =>
      if i + 1 > insert then
        (put cells (i + 1) (cells.getD i (junk i))).bind (copy_up insert i)
      else some cells

/-- `while( pn < pend ) { memcpy(pn, pn+1); pn = pn+1; }` for the `n` cells from number `i` on. -/
def copy_down : Nat → Nat → List α → Option (List α)
  | 0, _, cells => some cells
  | n + 1, i, cells =>
      (put cells i (cells.getD (i + 1) (junk (i + 1)))).bind (copy_down n (i + 1))

/-- **The cells behind a place are copied up** by one. -/
theorem copy_up_gap (A B C : List α) (x : α) :
    ∃ y, copy_up junk A.length (A ++ B).length (A ++ B ++ x :: C) = some (A ++ y :: (B ++ C)) := by
  induction B using List.reverseRecOn generalizing x C with
  | nil =>
      refine ⟨x, ?_⟩
      rw [List.append_nil]
      cases hA : A.length with
      | zero => rfl
      | succ n => exact if_neg (by omega)
  | append_singleton B b ih =>
      have hlen : (A ++ (B ++ [b])).length = (A ++ B).length + 1 := by
        rw [← List.append_assoc, List.length_append, List.length_singleton]
      have hcell : A ++ (B ++ [b]) ++ x :: C = (A ++ B) ++ b :: x :: C := by simp
      have hput : put (A ++ B ++ b :: x :: C) ((A ++ B).length + 1) b
          = some (A ++ B ++ b :: b :: C) := by
        have h := put_at (A ++ B ++ [b]) C x b
        simp only [List.length_append, List.length_singleton, List.append_assoc,
          List.singleton_append] at h ⊢
        exact h
      rw [hlen, copy_up, if_pos (by simp), hcell, getD_at, hput, Option.bind_some]
      -- the copy of `b` is the cell that the next pass writes to
      obtain ⟨y, hy⟩ := ih (b :: C) b
      exact ⟨y, by rw [hy]; simp⟩

/-- **The cells behind a place are copied down** by one, over the cell there.  What is copied
    last lies behind all of them. -/
theorem copy_down_gap (A B C : List α) (x : α) :
    ∃ rest, copy_down junk (B.length + 1) A.length (A ++ x :: (B ++ C))
      = some (A ++ B ++ rest) := by
  induction B generalizing A x with
  | nil =>
      refine ⟨(A ++ x :: C).getD (A.length + 1) (junk (A.length + 1)) :: C, ?_⟩
      rw [List.nil_append, List.append_nil, List.length_nil, copy_down, put_at, Option.bind_some]
      rfl
  | cons b B ih =>
      have hcell : (A ++ x :: (b :: B ++ C)).getD (A.length + 1) (junk (A.length + 1)) = b := by
        have h := getD_at (A ++ [x]) (B ++ C) b (junk (A.length + 1))
        simp only [List.length_append, List.length_singleton, List.append_assoc,
          List.singleton_append] at h
        exact h
      rw [List.length_cons, copy_down, hcell, put_at, Option.bind_some]
      obtain ⟨rest, hdown⟩ := ih (A ++ [b]) b
      refine ⟨rest, ?_⟩
      simp only [List.length_append, List.length_singleton, List.append_assoc,
        List.cons_append] at hdown ⊢
      exact hdown

end Copies

/-! ## §2. The heap. -/

section Heap

variable (junk : Nat → Nat → α)

/-- `malloc` of `n` cells, and the block it gives. -/
def malloc (h : Arrays α) (n : Nat) : Arrays α × Nat :=
  (alloc h ((List.range n).map (junk h.length)), h.length)

/-- `realloc` of block `p` to `n` cells, and the block it gives. -/
def realloc (h : Arrays α) (p n : Nat) : Option (Arrays α × Nat) :=
  (get h p).map fun cells =>
    (Heap.free (alloc h ((List.range n).map fun i => cells.getD i (junk h.length i))) p, h.length)

/-- Block `p` becomes what `f` makes of it. -/
def modify (h : Arrays α) (p : Nat) (f : List α → Option (List α)) : Option (Arrays α) :=
  (get h p).bind fun cells => (f cells).map (store h p)

def free (h : Arrays α) (p : Nat) : Option (Arrays α) := (get h p).map fun _ => Heap.free h p

/-! ### What an operation does to every block. -/

/-- Every block there is but `p` is the same. -/
def Kept (h h' : Arrays α) (p : Nat) : Prop :=
  ∀ q cells, q ≠ p → get h q = some cells → get h' q = some cells

theorem get_beyond (h : Arrays α) : get h h.length = none := by
  cases hget : get h h.length with
  | none => rfl
  | some cells => exact absurd (lt_of_get hget) (lt_irrefl _)

theorem malloc_new (h : Arrays α) (n : Nat) :
    get (malloc junk h n).1 h.length = some ((List.range n).map (junk h.length)) :=
  get_alloc_new h _

theorem malloc_kept (h : Arrays α) (n p : Nat) : Kept h (malloc junk h n).1 p := by
  intro q cells _ hq
  rw [← hq]
  exact get_alloc (lt_of_get hq) _

/-- **One cell more**: the block that `realloc` gives begins with the same cells. -/
theorem realloc_one {h : Arrays α} {p : Nat} {cells rest : List α}
    (hp : get h p = some (cells ++ rest)) :
    ∃ h' y, realloc junk h p (cells.length + 1) = some (h', h.length) ∧
      get h' h.length = some (cells ++ [y]) ∧ Kept h h' p := by
  have hlt := lt_of_get hp
  obtain ⟨y, hcells⟩ : ∃ y, (List.range (cells.length + 1)).map
      (fun i => (cells ++ rest).getD i (junk h.length i)) = cells ++ [y] := by
    refine ⟨(cells ++ rest).getD cells.length (junk h.length cells.length), ?_⟩
    rw [List.range_succ, List.map_append, List.map_singleton]
    refine congrArg (· ++ _) (List.ext_getElem (by simp) fun i hi hi' => ?_)
    rw [List.getElem_map, List.getElem_range, List.getD, List.getElem?_append_left hi',
      List.getElem?_eq_getElem hi', Option.getD_some]
  refine ⟨Heap.free (alloc h (cells ++ [y])) p, y, ?_, ?_, ?_⟩
  · rw [realloc, hp, Option.map_some, hcells]
  · rw [get_free (by omega), get_alloc_new]
  · intro q cells' hqp hq
    rw [get_free (Ne.symm hqp), get_alloc (lt_of_get hq), hq]

theorem modify_eq {h : Arrays α} {p : Nat} {cells cells' : List α} (hp : get h p = some cells)
    {f : List α → Option (List α)} (hf : f cells = some cells') :
    modify h p f = some (store h p cells') := by
  rw [modify, hp, Option.bind_some, hf, Option.map_some]

theorem store_here {h : Arrays α} {p : Nat} {cells : List α} (hp : get h p = some cells)
    (cells' : List α) : get (store h p cells') p = some cells' :=
  get_store_same (lt_of_get hp) cells'

theorem store_kept (h : Arrays α) (p : Nat) (cells : List α) : Kept h (store h p cells) p :=
  fun _ _ hqp hq => (get_store (Ne.symm hqp) cells).trans hq

theorem free_eq {h : Arrays α} {p : Nat} {cells : List α} (hp : get h p = some cells) :
    free h p = some (Heap.free h p) := by
  rw [free, hp, Option.map_some]

/-! ### A block that was freed stays so. -/

theorem freed_malloc {h : Arrays α} {p : Nat} (hp : Freed h p) (n : Nat) :
    Freed (malloc junk h n).1 p := hp.alloc _

theorem freed_realloc {h h' : Arrays α} {p q n r : Nat} (hp : Freed h p)
    (hre : realloc junk h q n = some (h', r)) : Freed h' p := by
  obtain ⟨cells, -, heq⟩ := Option.map_eq_some_iff.mp hre
  rw [← (Prod.mk.inj heq).1]
  exact (hp.alloc _).free q

/-- **The block that `realloc` is called with** is gone. -/
theorem realloc_frees {h h' : Arrays α} {p n q : Nat}
    (hre : realloc junk h p n = some (h', q)) : Freed h' p := by
  obtain ⟨cells, hcells, heq⟩ := Option.map_eq_some_iff.mp hre
  rw [← (Prod.mk.inj heq).1]
  have hlt := lt_of_get hcells
  refine freed_free ?_
  rw [alloc, List.length_append]
  omega

theorem freed_modify {h h' : Arrays α} {p q : Nat} {f : List α → Option (List α)}
    (hp : Freed h p) (hmod : modify h q f = some h') : Freed h' p := by
  obtain ⟨cells, hcells, hf⟩ := Option.bind_eq_some_iff.mp hmod
  obtain ⟨cells', -, rfl⟩ := Option.map_eq_some_iff.mp hf
  refine hp.store (fun heq => ?_) cells'
  rw [heq, hp.get] at hcells
  exact absurd hcells (by simp)

end Heap

end Lib.Blocks
