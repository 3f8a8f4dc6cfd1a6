/-
  Aos.Lib.Heap — cells behind pointers, and the chains they make.

  A pointer is the number of an allocation, so that no two cells ever share
  one; a cell that is freed stays behind as a hole.  Reading a hole, or what was
  never allocated, gives nothing.

  Main results:
    • `get_alloc`, `get_store`, `get_free` — what an operation does to every cell;
    • `Path.frame`, `Path.relink` — a chain under changes elsewhere, and under a
      change of its last cell;
    • `Path.unique`, `Path.no_return`, `Path.nodup` — a chain that ends is the only
      one, comes back to no cell, and visits none twice.
-/
import Mathlib.Tactic

namespace Lib.Heap

/-! ## §1. Cells. -/

section Cells

variable {α : Type}

/-- The cells in the order of their allocation; `none` is a cell that was freed. -/
abbrev Cells (α : Type) := List (Option α)

def get (h : Cells α) (i : Nat) : Option α := h[i]?.join

def alloc (h : Cells α) (a : α) : Cells α := h ++ [some a]

def store (h : Cells α) (i : Nat) (a : α) : Cells α := h.set i (some a)

def free (h : Cells α) (i : Nat) : Cells α := h.set i none

/-- The pointer was good once. -/
def Freed (h : Cells α) (i : Nat) : Prop := h[i]? = some none

theorem lt_of_get {h : Cells α} {i : Nat} {a : α} (hi : get h i = some a) : i < h.length := by
  unfold get at hi
  by_contra hlt
  rw [List.getElem?_eq_none (by omega)] at hi
  exact absurd hi (by simp)

theorem get_alloc_new (h : Cells α) (a : α) : get (alloc h a) h.length = some a := by
  unfold get alloc
  simp

theorem get_alloc {h : Cells α} {i : Nat} (hi : i < h.length) (a : α) :
    get (alloc h a) i = get h i := by
  unfold get alloc
  rw [List.getElem?_append_left hi]

theorem get_store_same {h : Cells α} {i : Nat} (hi : i < h.length) (a : α) :
    get (store h i a) i = some a := by
  unfold get store
  rw [List.getElem?_set_self hi]
  rfl

theorem get_store {h : Cells α} {i j : Nat} (hij : i ≠ j) (a : α) :
    get (store h i a) j = get h j := by
  unfold get store
  rw [List.getElem?_set_ne hij]

theorem get_free {h : Cells α} {i j : Nat} (hij : i ≠ j) : get (free h i) j = get h j := by
  unfold get free
  rw [List.getElem?_set_ne hij]

theorem get_free_same (h : Cells α) (i : Nat) : get (free h i) i = none := by
  unfold get free
  rw [List.getElem?_set_self']
  cases h[i]? with
  | none => rfl
  | some a => rfl

theorem freed_free {h : Cells α} {i : Nat} (hi : i < h.length) : Freed (free h i) i := by
  unfold Freed free
  exact List.getElem?_set_self hi

/-! ### Which cells there are. -/

def Live (h : Cells α) (i : Nat) : Prop := ∃ a, get h i = some a

theorem Live.lt {h : Cells α} {i : Nat} (hi : Live h i) : i < h.length := by
  obtain ⟨a, ha⟩ := hi
  exact lt_of_get ha

theorem live_alloc (h : Cells α) (a : α) (i : Nat) :
    Live (alloc h a) i ↔ i = h.length ∨ Live h i := by
  constructor
  · intro hi
    by_cases hnew : i = h.length
    · exact Or.inl hnew
    · have hlt := hi.lt
      unfold alloc at hlt
      rw [List.length_append, List.length_singleton] at hlt
      obtain ⟨b, hb⟩ := hi
      rw [get_alloc (by omega)] at hb
      exact Or.inr ⟨b, hb⟩
  · intro hor
    cases hor with
    | inl hnew => exact ⟨a, hnew ▸ get_alloc_new h a⟩
    | inr hold =>
        obtain ⟨b, hb⟩ := hold
        exact ⟨b, (get_alloc (lt_of_get hb) a).trans hb⟩

theorem live_free (h : Cells α) (i j : Nat) : Live (free h j) i ↔ Live h i ∧ i ≠ j := by
  by_cases hij : i = j
  · subst hij
    refine iff_of_false ?_ (fun hboth => hboth.2 rfl)
    intro hi
    obtain ⟨a, ha⟩ := hi
    rw [get_free_same] at ha
    exact absurd ha (by simp)
  · unfold Live
    rw [get_free (Ne.symm hij)]
    exact (and_iff_left hij).symm

/-- How many cells there are. -/
def count (h : Cells α) : Nat := h.countP Option.isSome

theorem count_alloc (h : Cells α) (a : α) : count (alloc h a) = count h + 1 := by
  unfold count alloc
  rw [List.countP_append]
  rfl

theorem count_free {h : Cells α} {i : Nat} (hi : Live h i) : count (free h i) + 1 = count h := by
  obtain ⟨a, ha⟩ := hi
  have hlt := lt_of_get ha
  have hcell : h[i]? = some (some a) := by
    unfold get at ha
    cases hcell : h[i]? with
    | none => rw [hcell] at ha; exact absurd ha (by simp)
    | some c => rw [hcell] at ha; exact congrArg some ha
  have hsplit : h = h.take i ++ some a :: h.drop (i + 1) := by
    have hget : h[i] = some a := by
      rw [List.getElem?_eq_getElem hlt] at hcell
      exact Option.some.inj hcell
    rw [← hget, ← List.drop_eq_getElem_cons hlt, List.take_append_drop]
  unfold count free
  rw [List.set_eq_take_append_cons_drop, if_pos hlt]
  conv_rhs => rw [hsplit]
  rw [List.countP_append, List.countP_append, List.countP_cons, List.countP_cons]
  rfl

theorem count_eq_zero {h : Cells α} : count h = 0 ↔ ∀ i, ¬ Live h i := by
  unfold count
  rw [List.countP_eq_zero]
  constructor
  · intro hall i hi
    obtain ⟨a, ha⟩ := hi
    unfold get at ha
    rw [Option.join_eq_some_iff] at ha
    exact hall _ (List.mem_of_getElem? ha) rfl
  · intro hall c hc hsome
    obtain ⟨i, hi⟩ := List.mem_iff_getElem?.mp hc
    obtain ⟨a, rfl⟩ := Option.isSome_iff_exists.mp hsome
    refine hall i ⟨a, ?_⟩
    unfold get
    rw [hi]
    rfl

/-! ### A pointer that is no longer good stays so. -/

theorem Freed.get {h : Cells α} {i : Nat} (hi : Freed h i) : get h i = none := by
  unfold Heap.get
  rw [hi]
  rfl

theorem Freed.lt {h : Cells α} {i : Nat} (hi : Freed h i) : i < h.length := by
  by_contra hlt
  unfold Freed at hi
  rw [List.getElem?_eq_none (by omega)] at hi
  exact absurd hi (by simp)

theorem Freed.alloc {h : Cells α} {i : Nat} (hi : Freed h i) (a : α) : Freed (alloc h a) i := by
  unfold Freed Heap.alloc
  rw [List.getElem?_append_left hi.lt]
  exact hi

theorem Freed.store {h : Cells α} {i j : Nat} (hi : Freed h i) (hij : j ≠ i) (a : α) :
    Freed (store h j a) i := by
  unfold Freed Heap.store
  rw [List.getElem?_set_ne hij]
  exact hi

theorem Freed.free {h : Cells α} {i : Nat} (hi : Freed h i) (j : Nat) : Freed (free h j) i := by
  by_cases hij : j = i
  · rw [hij]
    exact freed_free hi.lt
  · unfold Freed Heap.free
    rw [List.getElem?_set_ne hij]
    exact hi

end Cells

/-! ## §2. Chains. -/

section Chains

variable {α β : Type} (next : α → Option Nat) (data : α → β)

/-- Following `next` from one pointer to another: the cells visited, and their data. -/
inductive Path (h : Cells α) : Option Nat → List Nat → List β → Option Nat → Prop
  | nil (p : Option Nat) : Path h p [] [] p
  | cons (i : Nat) (a : α) (ids : List Nat) (xs : List β) (q : Option Nat) :
      get h i = some a → Path h (next a) ids xs q → Path h (some i) (i :: ids) (data a :: xs) q

variable {next data} {h h' : Cells α} {p q r : Option Nat} {ids ids' : List Nat} {xs ys : List β}

namespace Path

theorem nil_inv (hp : Path next data h p [] xs q) : p = q ∧ xs = [] := by
  cases hp with
  | nil => exact ⟨rfl, rfl⟩

theorem cons_inv {i : Nat} (hp : Path next data h p (i :: ids) xs q) :
    ∃ a xs', p = some i ∧ get h i = some a ∧ xs = data a :: xs' ∧
      Path next data h (next a) ids xs' q := by
  cases hp with
  | cons _ a _ xs' _ ha htail => exact ⟨a, xs', rfl, ha, rfl, htail⟩

/-- A chain that ends begins at a cell. -/
theorem get_head {i : Nat} (hp : Path next data h (some i) ids xs none) :
    ∃ a, get h i = some a := by
  cases hp with
  | cons _ a _ _ _ ha _ => exact ⟨a, ha⟩

/-- A chain that goes on from a cell. -/
theorem of_get {i : Nat} {a : α} (ha : get h i = some a)
    (hp : Path next data h (some i) ids xs none) :
    ∃ ids' xs', Path next data h (next a) ids' xs' none := by
  cases hp with
  | cons _ b ids xs _ hb htail =>
      obtain rfl : a = b := Option.some.inj (ha.symm.trans hb)
      exact ⟨ids, xs, htail⟩

theorem append (hp : Path next data h p ids xs q) (hq : Path next data h q ids' ys r) :
    Path next data h p (ids ++ ids') (xs ++ ys) r := by
  induction hp with
  | nil p => exact hq
  | cons i a ids xs q ha _ ih => exact .cons i a _ _ _ ha (ih hq)

theorem split (ids : List Nat) : ∀ {p : Option Nat} {xs : List β},
    Path next data h p (ids ++ ids') xs q →
    ∃ r xs' ys', xs = xs' ++ ys' ∧ Path next data h p ids xs' r ∧
      Path next data h r ids' ys' q := by
  induction ids with
  | nil =>
      intro p xs hp
      exact ⟨p, [], xs, rfl, .nil p, hp⟩
  | cons i ids ih =>
      intro p xs hp
      obtain ⟨a, xs, rfl, ha, rfl, htail⟩ := hp.cons_inv
      obtain ⟨r, xs', ys', rfl, hleft, hright⟩ := ih htail
      exact ⟨r, data a :: xs', ys', rfl, .cons i a ids xs' r ha hleft, hright⟩

theorem length (hp : Path next data h p ids xs q) : xs.length = ids.length := by
  induction hp with
  | nil => rfl
  | cons i a ids xs q _ _ ih => rw [List.length_cons, List.length_cons, ih]

theorem get_of_mem (hp : Path next data h p ids xs q) :
    ∀ i ∈ ids, ∃ a, get h i = some a := by
  induction hp with
  | nil => intro i hi; exact absurd hi List.not_mem_nil
  | cons i a ids xs q ha _ ih =>
      intro j hj
      cases List.mem_cons.mp hj with
      | inl h => exact ⟨a, h ▸ ha⟩
      | inr h => exact ih j h

/-- **A chain is not touched by a change elsewhere.** -/
theorem frame (hp : Path next data h p ids xs q) (hsame : ∀ i ∈ ids, get h' i = get h i) :
    Path next data h' p ids xs q := by
  induction hp with
  | nil p => exact .nil p
  | cons i a ids xs q ha _ ih =>
      refine .cons i a ids xs q ?_ (ih fun j hj => hsame j (List.mem_cons_of_mem i hj))
      rw [hsame i List.mem_cons_self]
      exact ha

/-- **The last cell is made to point elsewhere.** -/
theorem relink {i : Nat} {a a' : α} (hp : Path next data h p (ids ++ [i]) xs q) (hi : i ∉ ids)
    (ha : get h i = some a) (ha' : get h' i = some a') (hdata : data a' = data a)
    (hsame : ∀ j, j ≠ i → get h' j = get h j) :
    Path next data h' p (ids ++ [i]) xs (next a') := by
  obtain ⟨r, xs', ys', rfl, hleft, hright⟩ := hp.split ids
  obtain ⟨b, ys, rfl, hb, rfl, hend⟩ := hright.cons_inv
  obtain rfl : a = b := Option.some.inj (ha.symm.trans hb)
  obtain ⟨_, rfl⟩ := hend.nil_inv
  have hleft' : Path next data h' p ids xs' (some i) :=
    hleft.frame fun j hj => hsame j fun heq => hi (heq ▸ hj)
  rw [← hdata]
  exact hleft'.append (.cons i a' [] [] _ ha' (.nil _))

/-- **A chain that ends is the only one.** -/
theorem unique (hp : Path next data h p ids xs none) :
    ∀ {ids' : List Nat} {ys : List β}, Path next data h p ids' ys none → ids = ids' ∧ xs = ys := by
  generalize hq : (none : Option Nat) = q at hp
  induction hp with
  | nil p =>
      subst hq
      intro ids' ys hp'
      cases hp' with
      | nil => exact ⟨rfl, rfl⟩
  | cons i a ids xs q ha _ ih =>
      subst hq
      intro ids' ys hp'
      cases hp' with
      | cons _ b ids' ys _ hb htail =>
          obtain rfl : a = b := Option.some.inj (ha.symm.trans hb)
          obtain ⟨rfl, rfl⟩ := ih rfl htail
          exact ⟨rfl, rfl⟩

/-- **Where a chain leads back, none ends.** -/
theorem no_return (hloop : Path next data h p ids xs p) (hne : ids ≠ [])
    (hend : Path next data h p ids' ys none) : False := by
  obtain ⟨hids, _⟩ := (hloop.append hend).unique hend
  exact hne (List.append_left_eq_self.mp hids)

/-- **A chain that ends visits no cell twice.** -/
theorem nodup (hp : Path next data h p ids xs none) : ids.Nodup := by
  generalize hq : (none : Option Nat) = q at hp
  induction hp with
  | nil => exact List.nodup_nil
  | cons i a ids xs q ha htail ih =>
      subst hq
      refine List.nodup_cons.mpr ⟨?_, ih rfl⟩
      intro hi
      -- from the cell on there would be two chains, of different lengths
      obtain ⟨before, after, rfl⟩ := List.append_of_mem hi
      obtain ⟨r, _, ys, _, _, hright⟩ := htail.split before
      obtain ⟨b, _, rfl, _⟩ := hright.cons_inv
      obtain ⟨hids, _⟩ := (Path.cons i a _ xs none ha htail).unique hright
      have hlen := congrArg List.length hids
      simp only [List.length_cons, List.length_append] at hlen
      omega

end Path

end Chains

end Lib.Heap
