/-
  Aos.Container.SList — `SList`, a singly linked list, and its iterator.

  The iterator keeps the node in front of its own, because nodes have no way
  back.  `++` sets it and `erase` leaves it right; `insert` puts a node between
  the two and does not say so to the iterator.

  What the list is for, in its own terms: a sequence with a place in it
  (`Sequence`), where `insert` adds in front of the place and `erase` removes
  behind it.

  Main results:
    • `step_incr`, `step_insert`, `step_erase` — an operation with the right
      `prev`, and whether `prev` is right then;
    • `stale_insert` — what an `insert` or `erase` does directly behind an `insert`;
    • `slist_refines_iff` — on which runs the list is the sequence.
-/
import Aos.Byte
import Aos.Lib.Heap
import Aos.Lib.Suffixes

namespace Aos

open Lib.Heap Lib.Suffixes

/-! ## §1. The list. -/

variable {T : Type}

structure SList_Node_ (T : Type) where
  next : Option Nat
  data : T
  deriving Repr, DecidableEq

structure SList (T : Type) where
  heap : Cells (SList_Node_ T)
  size_ : Nat
  head_ : Option Nat
  deriving Repr, DecidableEq

/-- `SList::iterator`. -/
structure SList_iterator where
  curr : Option Nat
  prev : Option Nat
  deriving Repr, DecidableEq

namespace SList

def new : SList T := ⟨[], 0, none⟩

def push_front (l : SList T) (data : T) : SList T :=
  ⟨alloc l.heap ⟨l.head_, data⟩, l.size_ + 1, some l.heap.length⟩

/-- `begin()`: `iterator(head_, head_)`. -/
def begin_ (l : SList T) : SList_iterator := ⟨l.head_, l.head_⟩

/-- `p->next = next`; nothing when `p` points at no node. -/
def set_next (heap : Cells (SList_Node_ T)) (p next : Option Nat) : Option (Cells (SList_Node_ T)) :=
  p.bind fun i => (get heap i).map fun node => store heap i { node with next := next }

/-- `insert(iter, data)`, which leaves the iterator as it is. -/
def insert (l : SList T) (iter : SList_iterator) (data : T) : Option (SList T) :=
  let node := l.heap.length
  if iter.curr = l.head_ then
    some ⟨alloc l.heap ⟨l.head_, data⟩, l.size_ + 1, some node⟩
  else
    (set_next (alloc l.heap ⟨iter.curr, data⟩) iter.prev (some node)).map fun heap =>
      ⟨heap, l.size_ + 1, l.head_⟩

/-- `erase(iter)`; nothing when the assertion fails. -/
def erase (l : SList T) (iter : SList_iterator) : Option (SList T × SList_iterator) :=
  iter.curr.bind fun i =>
    (get l.heap i).bind fun node =>
      if iter.curr = l.head_ then
        some (⟨free l.heap i, l.size_ - 1, node.next⟩, { iter with curr := node.next })
      else
        (set_next l.heap iter.prev node.next).map fun heap =>
          (⟨free heap i, l.size_ - 1, l.head_⟩, { iter with curr := node.next })

/-- `++iter`. -/
def incr (l : SList T) (iter : SList_iterator) : Option SList_iterator :=
  iter.curr.bind fun i => (get l.heap i).map fun node => ⟨node.next, iter.curr⟩

/-- What is done through one iterator. -/
inductive Op (T : Type)
  | insert (x : T)
  | erase
  | incr
  deriving Repr, DecidableEq

/-- The list and its iterator; nothing when a pointer is followed that is not good. -/
def step (s : SList T × SList_iterator) : Op T → Option (SList T × SList_iterator)
  | .insert x => (s.1.insert s.2 x).map fun l => (l, s.2)
  | .erase => s.1.erase s.2
  | .incr => (s.1.incr s.2).map fun iter => (s.1, iter)

/-- A list built with `push_front`, and its `begin()`. -/
def start (xs : List T) : SList T × SList_iterator :=
  (xs.foldl push_front new, (xs.foldl push_front new).begin_)

end SList

/-! ## §2. The sequence. -/

/-- A sequence, and a place in it. -/
structure Sequence (T : Type) where
  before : List T
  after : List T
  deriving Repr, DecidableEq

namespace Sequence

def items (s : Sequence T) : List T := s.before ++ s.after

/-- `insert` puts an item in front of the place, `erase` takes the one behind it,
    and `++` goes past it; at the end there is none. -/
def step (s : Sequence T) : SList.Op T → Option (Sequence T)
  | .insert x => some ⟨s.before ++ [x], s.after⟩
  | .erase =>
      match s.after with
      | [] => none
      | _ :: after => some ⟨s.before, after⟩
  | .incr =>
      match s.after with
      | [] => none
      | x :: after => some ⟨s.before ++ [x], after⟩

/-- The items pushed in front of each other, at the first of them. -/
def start (xs : List T) : Sequence T := ⟨[], xs.reverse⟩

end Sequence

namespace SList

/-- The nodes `ids` are linked from one pointer to another and hold `xs`. -/
abbrev Linked (heap : Cells (SList_Node_ T)) : Option Nat → List Nat → List T → Option Nat → Prop :=
  Path SList_Node_.next SList_Node_.data heap

/-- **The list is the sequence.**  Following `next` from `head_` visits each item once,
    the iterator stands at the place, and `size_` counts the items. -/
structure Agrees (s : SList T × SList_iterator) (seq : Sequence T) : Prop where
  chain : ∃ ids, Linked s.1.heap s.1.head_ ids seq.items none ∧ ids.Nodup ∧
    s.2.curr = ids[seq.before.length]?
  size : s.1.size_ = seq.items.length

/-! ## §3. Where the iterator stands. -/

/-- The nodes in front of the iterator, and those from it on. -/
structure At (s : SList T × SList_iterator) (seq : Sequence T) (A B : List Nat) : Prop where
  left : Linked s.1.heap s.1.head_ A seq.before s.2.curr
  right : Linked s.1.heap s.2.curr B seq.after none
  size : s.1.size_ = seq.before.length + seq.after.length

/-- `prev` is the node in front; where there is none it is the iterator's own, or gone. -/
def Prev (s : SList T × SList_iterator) (A : List Nat) : Prop :=
  (A = [] ∧ (s.2.prev = s.2.curr ∨ ∃ i, s.2.prev = some i ∧ Freed s.1.heap i)) ∨
    ∃ A' p, A = A' ++ [p] ∧ s.2.prev = some p

theorem At.agrees {s : SList T × SList_iterator} {seq : Sequence T} {A B : List Nat}
    (h : At s seq A B) : Agrees s seq := by
  have hpath := h.left.append h.right
  refine ⟨⟨A ++ B, hpath, hpath.nodup, ?_⟩, ?_⟩
  · have hlen := h.left.length
    rw [hlen, List.getElem?_append_right le_rfl, Nat.sub_self]
    cases B with
    | nil => exact (h.right.nil_inv).1
    | cons i B =>
        obtain ⟨_, _, hcurr, _⟩ := h.right.cons_inv
        exact hcurr
  · rw [h.size]
    exact (List.length_append).symm

theorem At.nodup {s : SList T × SList_iterator} {seq : Sequence T} {A B : List Nat}
    (h : At s seq A B) : (A ++ B).Nodup := (h.left.append h.right).nodup

/-- The test for the head of the list. -/
theorem At.head_iff {s : SList T × SList_iterator} {seq : Sequence T} {A B : List Nat}
    (h : At s seq A B) : s.2.curr = s.1.head_ ↔ A = [] := by
  constructor
  · intro heq
    cases A with
    | nil => rfl
    | cons a A =>
        obtain ⟨_, _, hhead, _⟩ := h.left.cons_inv
        cases B with
        | nil =>
            have hnone := h.right.nil_inv.1
            rw [hnone, hhead] at heq
            exact absurd heq (by simp)
        | cons b B =>
            obtain ⟨_, _, hcurr, _⟩ := h.right.cons_inv
            rw [hcurr, hhead] at heq
            have hab : b = a := Option.some.inj heq
            have hnodup := h.nodup
            rw [List.cons_append, List.nodup_cons] at hnodup
            exact absurd (by simp [hab]) hnodup.1
  · intro hA
    subst hA
    exact (h.left.nil_inv.1).symm

/-- The node in front is there once, and the iterator is not at the head. -/
theorem At.last {s : SList T × SList_iterator} {seq : Sequence T} {A B : List Nat} {p : Nat}
    (h : At s seq (A ++ [p]) B) : p ∉ A ∧ p ∉ B ∧ s.2.curr ≠ s.1.head_ := by
  have hnodup := h.nodup
  refine ⟨?_, ?_, ?_⟩
  · rw [List.append_assoc] at hnodup
    exact fun hmem => (List.nodup_append.mp hnodup).2.2 p hmem p (by simp) rfl
  · exact fun hmem => (List.nodup_append.mp hnodup).2.2 p (by simp) p hmem rfl
  · exact fun heq => by simpa using h.head_iff.mp heq

/-! ## §4. The operations, with the node in front. -/

theorem set_next_some {heap : Cells (SList_Node_ T)} {p : Nat} {node : SList_Node_ T}
    (h : get heap p = some node) (next : Option Nat) :
    set_next heap (some p) next = some (store heap p { node with next := next }) := by
  unfold set_next
  rw [Option.bind_some, h]
  rfl

/-- A node is put behind `prev` and in front of `curr`, whatever was between them. -/
theorem insert_behind {l : SList T} {iter : SList_iterator} {A B : List Nat} {p : Nat}
    {xs ys : List T} {q : Option Nat} (x : T)
    (hleft : Linked l.heap l.head_ (A ++ [p]) xs q) (hright : Linked l.heap iter.curr B ys none)
    (hpA : p ∉ A) (hpB : p ∉ B) (hprev : iter.prev = some p) (hhead : iter.curr ≠ l.head_) :
    ∃ l', l.insert iter x = some l' ∧ l'.size_ = l.size_ + 1 ∧
      Linked l'.heap l'.head_ (A ++ [p] ++ [l.heap.length]) (xs ++ [x]) iter.curr ∧
      Linked l'.heap iter.curr B ys none := by
  obtain ⟨node, hnode⟩ := hleft.get_of_mem p (by simp)
  have hp := lt_of_get hnode
  have hnode' : get (alloc l.heap ⟨iter.curr, x⟩) p = some node := by
    rw [get_alloc hp, hnode]
  refine ⟨⟨store (alloc l.heap ⟨iter.curr, x⟩) p { node with next := some l.heap.length },
    l.size_ + 1, l.head_⟩, ?_, rfl, ?_, ?_⟩
  · unfold insert
    rw [if_neg hhead, hprev, set_next_some hnode']
    rfl
  · -- up to `prev` the nodes are the old ones, then comes the new one
    have hold : Linked (alloc l.heap ⟨iter.curr, x⟩) l.head_ (A ++ [p]) xs q :=
      hleft.frame fun i hi => by
        obtain ⟨_, hget⟩ := hleft.get_of_mem i hi
        exact get_alloc (lt_of_get hget) _
    have hlinked : Linked (store (alloc l.heap ⟨iter.curr, x⟩) p
        { node with next := some l.heap.length }) l.head_ (A ++ [p]) xs (some l.heap.length) :=
      hold.relink hpA hnode' (get_store_same (lt_of_get hnode') _) rfl
        fun j hj => get_store (Ne.symm hj) _
    refine hlinked.append (.cons _ (⟨iter.curr, x⟩ : SList_Node_ T) [] [] _ ?_ (.nil _))
    rw [get_store (by omega)]
    exact get_alloc_new _ _
  · refine hright.frame fun i hi => ?_
    obtain ⟨_, hget⟩ := hright.get_of_mem i hi
    have hip : p ≠ i := fun heq => hpB (heq ▸ hi)
    show get (store _ p _) i = _
    rw [get_store hip, get_alloc (lt_of_get hget)]

/-- The iterator's node is taken out, and `prev` linked to the one behind it. -/
theorem erase_behind {l : SList T} {iter : SList_iterator} {A B : List Nat} {p c : Nat}
    {xs ys : List T} {y : T} {q : Option Nat}
    (hleft : Linked l.heap l.head_ (A ++ [p]) xs q)
    (hright : Linked l.heap iter.curr (c :: B) (y :: ys) none)
    (hpA : p ∉ A) (hpB : p ∉ c :: B) (hcA : c ∉ A ++ [p]) (hprev : iter.prev = some p)
    (hhead : iter.curr ≠ l.head_) :
    ∃ s', l.erase iter = some s' ∧ s'.1.size_ = l.size_ - 1 ∧ s'.2.prev = iter.prev ∧
      Linked s'.1.heap s'.1.head_ (A ++ [p]) xs s'.2.curr ∧
      Linked s'.1.heap s'.2.curr B ys none := by
  obtain ⟨pnode, hpnode⟩ := hleft.get_of_mem p (by simp)
  have hcB : c ∉ B := (List.nodup_cons.mp hright.nodup).1
  obtain ⟨node, ys', hcurr, hnode, hys, htail⟩ := hright.cons_inv
  obtain ⟨rfl, rfl⟩ := List.cons.inj hys
  have hcp : c ≠ p := fun heq => hcA (heq ▸ by simp)
  refine ⟨(⟨free (store l.heap p { pnode with next := node.next }) c, l.size_ - 1, l.head_⟩,
    ⟨node.next, iter.prev⟩), ?_, rfl, rfl, ?_, ?_⟩
  · unfold erase
    rw [hcurr, Option.bind_some, hnode, Option.bind_some, if_neg (hcurr ▸ hhead), hprev,
      set_next_some hpnode]
    rfl
  · have hstored := get_store_same (lt_of_get hpnode) { pnode with next := node.next }
    have hlinked := hleft.relink hpA hpnode hstored rfl fun j hj => get_store (Ne.symm hj) _
    refine hlinked.frame fun i hi => ?_
    exact get_free fun heq => hcA (heq ▸ hi)
  · refine htail.frame fun i hi => ?_
    have hic : c ≠ i := fun heq => hcB (heq ▸ hi)
    have hip : p ≠ i := fun heq => hpB (heq ▸ List.mem_cons_of_mem c hi)
    show get (free (store _ p _) c) i = _
    rw [get_free hic, get_store hip]

section Steps

variable {s : SList T × SList_iterator} {seq : Sequence T} {A B : List Nat}

/-- **`++` goes past the node, and knows it as the one in front.** -/
theorem step_incr (h : At s seq A B) {seq' : Sequence T} (hseq : seq.step .incr = some seq') :
    ∃ s' A' B', step s .incr = some s' ∧ At s' seq' A' B' ∧ Prev s' A' := by
  obtain ⟨before, after⟩ := seq
  cases after with
  | nil => exact absurd hseq (by simp [Sequence.step])
  | cons x after =>
      obtain rfl := Option.some.inj hseq
      cases B with
      | nil => exact absurd h.right.nil_inv.2 (by simp)
      | cons c B =>
          obtain ⟨node, xs', hcurr, hnode, hxs, htail⟩ := h.right.cons_inv
          obtain ⟨rfl, rfl⟩ := List.cons.inj hxs
          refine ⟨(s.1, ⟨node.next, s.2.curr⟩), A ++ [c], B, ?_, ⟨?_, htail, ?_⟩, ?_⟩
          · unfold step incr
            simp only [hcurr, Option.bind_some, hnode, Option.map_some]
          · have hleft := h.left
            rw [hcurr] at hleft
            exact hleft.append (.cons c node [] [] _ hnode (.nil _))
          · rw [h.size]
            simp only [List.length_append, List.length_cons, List.length_nil]
            omega
          · exact Or.inr ⟨A, c, rfl, hcurr⟩

/-- **`insert` puts its item in front, and the node is one `prev` does not know.** -/
theorem step_insert (h : At s seq A B) (hprev : Prev s A) (x : T) :
    ∃ s', step s (.insert x) = some s' ∧ s'.2 = s.2 ∧
      At s' ⟨seq.before ++ [x], seq.after⟩ (A ++ [s.1.heap.length]) B := by
  cases hprev with
  | inl hfirst =>
      obtain ⟨rfl, _⟩ := hfirst
      obtain ⟨hhead, hbefore⟩ := h.left.nil_inv
      have hsize := h.size
      rw [hbefore] at hsize
      refine ⟨((⟨alloc s.1.heap ⟨s.1.head_, x⟩, s.1.size_ + 1, some s.1.heap.length⟩ : SList T),
        s.2), ?_, rfl, ⟨?_, ?_, ?_⟩⟩
      · unfold step insert
        simp only [hhead, if_pos, Option.map_some]
      · rw [hbefore]
        refine .cons _ (⟨s.1.head_, x⟩ : SList_Node_ T) [] [] _ (get_alloc_new _ _) ?_
        rw [← hhead]
        exact .nil _
      · refine h.right.frame fun i hi => ?_
        obtain ⟨_, hget⟩ := h.right.get_of_mem i hi
        exact get_alloc (lt_of_get hget) _
      · show s.1.size_ + 1 = _
        rw [hsize, hbefore]
        simp only [List.nil_append, List.length_cons, List.length_nil]
        omega
  | inr hmid =>
      obtain ⟨A', p, rfl, hp⟩ := hmid
      obtain ⟨hpA, hpB, hhead⟩ := h.last
      obtain ⟨l', hinsert, hsize, hleft, hright⟩ :=
        insert_behind x h.left h.right hpA hpB hp hhead
      refine ⟨(l', s.2), ?_, rfl, ⟨hleft, hright, ?_⟩⟩
      · unfold step
        simp only [hinsert, Option.map_some]
      · rw [hsize, h.size]
        simp only [List.length_append, List.length_cons, List.length_nil]
        omega

/-- **`erase` takes the node out, and `prev` is right for the next one.** -/
theorem step_erase (h : At s seq A B) (hprev : Prev s A) {seq' : Sequence T}
    (hseq : seq.step .erase = some seq') :
    ∃ s' B', step s .erase = some s' ∧ At s' seq' A B' ∧ Prev s' A := by
  obtain ⟨before, after⟩ := seq
  cases after with
  | nil => exact absurd hseq (by simp [Sequence.step])
  | cons x after =>
      obtain rfl := Option.some.inj hseq
      cases B with
      | nil => exact absurd h.right.nil_inv.2 (by simp)
      | cons c B =>
          have hcA : c ∉ A := fun hmem =>
            (List.nodup_append.mp h.nodup).2.2 c hmem c List.mem_cons_self rfl
          have hcB : c ∉ B := (List.nodup_cons.mp h.right.nodup).1
          have hsize := h.size
          simp only [List.length_cons] at hsize
          cases hprev with
          | inl hfirst =>
              obtain ⟨rfl, hp⟩ := hfirst
              obtain ⟨hhead, hbefore⟩ := h.left.nil_inv
              obtain ⟨node, xs', hcurr, hnode, hxs, htail⟩ := h.right.cons_inv
              obtain ⟨rfl, rfl⟩ := List.cons.inj hxs
              refine ⟨((⟨free s.1.heap c, s.1.size_ - 1, node.next⟩ : SList T),
                ⟨node.next, s.2.prev⟩), B, ?_, ⟨?_, ?_, ?_⟩, Or.inl ⟨rfl, Or.inr ?_⟩⟩
              · show s.1.erase s.2 = _
                unfold erase
                simp only [hhead, if_pos]
                rw [hcurr, Option.bind_some, hnode]
                rfl
              · rw [hbefore]
                exact .nil _
              · exact htail.frame fun i hi => get_free fun heq => hcB (heq ▸ hi)
              · show s.1.size_ - 1 = before.length + after.length
                rw [hsize]
                omega
              · -- the node in front is the one that was freed, now or before
                cases hp with
                | inl hown => exact ⟨c, hown.trans hcurr, freed_free (lt_of_get hnode)⟩
                | inr hgone =>
                    obtain ⟨i, hi, hfreed⟩ := hgone
                    exact ⟨i, hi, hfreed.free c⟩
          | inr hmid =>
              obtain ⟨A', p, rfl, hp⟩ := hmid
              obtain ⟨hpA, hpB, hhead⟩ := h.last
              obtain ⟨s', herase, hsize', hprev', hleft, hright⟩ :=
                erase_behind h.left h.right hpA hpB hcA hp hhead
              refine ⟨s', B, herase, ⟨hleft, hright, ?_⟩, Or.inr ⟨A', p, rfl, hprev'.trans hp⟩⟩
              rw [hsize', hsize]
              show _ = before.length + after.length
              omega

/-! ## §5. Directly behind an `insert`. -/

/-- What may follow an operation: behind an `insert` the node in front is not known
    until the iterator has moved. -/
def Spaced : Op T → Op T → Prop
  | .insert _, .insert _ => False
  | .insert _, .erase => False
  | _, _ => True

theorem not_agrees_of_length {ids : List Nat} {xs : List T}
    (hp : Linked s.1.heap s.1.head_ ids xs none) (hlen : xs.length ≠ seq.items.length) :
    ¬ Agrees s seq := by
  intro hagrees
  obtain ⟨ids', hp', _⟩ := hagrees.chain
  exact hlen (congrArg List.length (hp.unique hp').2)

/-- With a node in front, the item inserted before is lost. -/
theorem stale_lost {p n : Nat} (h : At s seq (A ++ [p] ++ [n]) B) (hp : s.2.prev = some p)
    {op : Op T} (hop : op ≠ .incr) {s' : SList T × SList_iterator} {seq' : Sequence T}
    (hstep : step s op = some s') (hseq : seq.step op = some seq') : ¬ Agrees s' seq' := by
  obtain ⟨hnA, hnB, hhead⟩ := h.last
  have hnodup := h.nodup
  obtain ⟨r, xs, ys, hxs, hleft, hright⟩ := h.left.split (A ++ [p])
  have hcount := congrArg List.length hxs
  have hys := hright.length
  rw [List.length_append, hys, List.length_singleton] at hcount
  have hpA : p ∉ A := by
    rw [List.append_assoc, List.append_assoc] at hnodup
    exact fun hmem => (List.nodup_append.mp hnodup).2.2 p hmem p (by simp) rfl
  have hpB : p ∉ B := fun hmem => (List.nodup_append.mp hnodup).2.2 p (by simp) p hmem rfl
  cases op with
  | incr => exact absurd rfl hop
  | insert y =>
      obtain ⟨l', hinsert, _, hleft', hright'⟩ :=
        insert_behind y hleft h.right hpA hpB hp hhead
      unfold step at hstep
      simp only [hinsert, Option.map_some, Option.some.injEq] at hstep
      subst hstep
      obtain rfl := Option.some.inj hseq
      refine not_agrees_of_length (s := (l', s.2)) (hleft'.append hright') ?_
      simp only [Sequence.items, List.length_append, List.length_singleton]
      omega
  | erase =>
      obtain ⟨before, after⟩ := seq
      cases after with
      | nil => exact absurd hseq (by simp [Sequence.step])
      | cons x after =>
          obtain rfl := Option.some.inj hseq
          cases B with
          | nil => exact absurd h.right.nil_inv.2 (by simp)
          | cons c B =>
              have hcA : c ∉ A ++ [p] := fun hmem => by
                refine (List.nodup_append.mp hnodup).2.2 c ?_ c List.mem_cons_self rfl
                exact List.mem_append_left [n] hmem
              obtain ⟨s'', herase, _, _, hleft', hright'⟩ :=
                erase_behind hleft h.right hpA hpB hcA hp hhead
              obtain rfl := Option.some.inj (herase.symm.trans hstep)
              refine not_agrees_of_length (hleft'.append hright') ?_
              simp only [Sequence.items, List.length_append] at hcount ⊢
              omega

/-- At the head, with a node in front that is gone or was none, a bad pointer is
    followed. -/
theorem stale_gone (hhead : s.2.curr ≠ s.1.head_)
    (hp : s.2.prev = none ∨ ∃ i, s.2.prev = some i ∧ Freed s.1.heap i)
    {op : Op T} (hop : op ≠ .incr) : step s op = none := by
  have hbad : ∀ (x : SList_Node_ T) (next : Option Nat),
      set_next (alloc s.1.heap x) s.2.prev next = none ∧
        set_next s.1.heap s.2.prev next = none := by
    intro x next
    unfold set_next
    cases hp with
    | inl hnone =>
        rw [hnone]
        exact ⟨rfl, rfl⟩
    | inr hgone =>
        obtain ⟨i, hi, hfreed⟩ := hgone
        rw [hi, Option.bind_some, Option.bind_some, (hfreed.alloc x).get, hfreed.get]
        exact ⟨rfl, rfl⟩
  cases op with
  | incr => exact absurd rfl hop
  | insert y =>
      unfold step insert
      simp only [if_neg hhead, (hbad _ _).1, Option.map_none]
  | erase =>
      unfold step erase
      simp only [if_neg hhead]
      cases hc : s.2.curr with
      | none => rfl
      | some c =>
          rw [Option.bind_some]
          cases hnode : Lib.Heap.get s.1.heap c with
          | none => rfl
          | some node => simp only [Option.bind_some, (hbad node _).2, Option.map_none]

/-- At the head, with the iterator's own node taken for the one in front, the chain
    from `head_` no longer ends. -/
theorem stale_own {n c : Nat} {x : T} {node : SList_Node_ T} (hhead : s.1.head_ = some n)
    (hn : get s.1.heap n = some ⟨some c, x⟩) (hcurr : s.2.curr = some c)
    (hprev : s.2.prev = some c) (hc : get s.1.heap c = some node) (hnc : n ≠ c)
    {op : Op T} (hop : op ≠ .incr) {s' : SList T × SList_iterator} (hstep : step s op = some s') :
    ¬ Agrees s' seq := by
  have hneq : s.2.curr ≠ s.1.head_ := by
    rw [hcurr, hhead]
    exact fun heq => hnc (Option.some.inj heq).symm
  intro hagrees
  obtain ⟨ids, hpath, _⟩ := hagrees.chain
  cases op with
  | incr => exact absurd rfl hop
  | insert y =>
      have hc' : get (alloc s.1.heap ⟨some c, y⟩) c = some node := by
        rw [get_alloc (lt_of_get hc), hc]
      have hstored := get_store_same (lt_of_get hc')
        ({ node with next := some s.1.heap.length } : SList_Node_ T)
      unfold step insert at hstep
      simp only [if_neg hneq] at hstep
      rw [hprev, hcurr, set_next_some hc', Option.map_some, Option.map_some,
        Option.some.injEq] at hstep
      subst hstep
      simp only [hhead] at hpath
      -- the nodes `c` and the new one point at each other
      have hn' : get (store (alloc s.1.heap ⟨some c, y⟩) c
          { node with next := some s.1.heap.length }) n = some ⟨some c, x⟩ := by
        rw [get_store hnc.symm, get_alloc (lt_of_get hn), hn]
      have hnew : get (store (alloc s.1.heap ⟨some c, y⟩) c
          { node with next := some s.1.heap.length }) s.1.heap.length = some ⟨some c, y⟩ := by
        rw [get_store (by have := lt_of_get hc; omega), get_alloc_new]
      obtain ⟨_, _, hend⟩ := hpath.of_get hn'
      exact Path.no_return (.cons _ _ _ _ _ hstored (.cons _ _ _ _ _ hnew (.nil _)))
        (List.cons_ne_nil _ _) hend
  | erase =>
      unfold step erase at hstep
      simp only [if_neg hneq] at hstep
      rw [hprev, hcurr, Option.bind_some, hc, Option.bind_some, set_next_some hc, Option.map_some,
        Option.some.injEq] at hstep
      subst hstep
      simp only [hhead] at hpath
      have hlt : c < (store s.1.heap c { node with next := node.next }).length :=
        lt_of_get (get_store_same (lt_of_get hc) _)
      have hn' : get (free (store s.1.heap c { node with next := node.next }) c) n
          = some ⟨some c, x⟩ := by
        rw [get_free hnc.symm, get_store hnc.symm, hn]
      obtain ⟨ids', _, hend⟩ := hpath.of_get hn'
      cases hend with
      | cons _ a _ _ _ ha _ =>
          rw [(freed_free hlt).get] at ha
          exact absurd ha (by simp)

/-- **Directly behind an `insert`, neither another one nor an `erase` is right.** -/
theorem stale_insert (h : At s seq A B) (hprev : Prev s A) {x : T} {op : Op T}
    (hop : ¬ Spaced (.insert x) op) {s₁ s₂ : SList T × SList_iterator}
    (h₁ : step s (.insert x) = some s₁) (h₂ : step s₁ op = some s₂) {seq₂ : Sequence T}
    (hseq : Sequence.step ⟨seq.before ++ [x], seq.after⟩ op = some seq₂) : ¬ Agrees s₂ seq₂ := by
  have hincr : op ≠ .incr := fun heq => hop (heq ▸ trivial)
  obtain ⟨s', hs', hiter, hat⟩ := step_insert h hprev x
  obtain rfl := Option.some.inj (h₁.symm.trans hs')
  cases hprev with
  | inr hmid =>
      obtain ⟨A', p, rfl, hp⟩ := hmid
      exact stale_lost hat (hiter ▸ hp) hincr h₂ hseq
  | inl hfirst =>
      obtain ⟨rfl, hp⟩ := hfirst
      have hhead := h.left.nil_inv.1
      have hneq : s₁.2.curr ≠ s₁.1.head_ := fun heq => by simpa using hat.head_iff.mp heq
      have hs₁ : s₁ = (⟨alloc s.1.heap ⟨s.1.head_, x⟩, s.1.size_ + 1, some s.1.heap.length⟩, s.2) := by
        unfold step insert at h₁
        simp only [hhead, if_pos, Option.map_some, Option.some.injEq] at h₁
        rw [← h₁, hhead]
      -- the node in front is gone, or there was none, or it is the iterator's own
      have hgone : (s₁.2.prev = none ∨ ∃ i, s₁.2.prev = some i ∧ Freed s₁.1.heap i) →
          ¬ Agrees s₂ seq₂ := by
        intro hbad
        rw [stale_gone hneq hbad hincr] at h₂
        exact absurd h₂ (by simp)
      cases hp with
      | inr hfreed =>
          obtain ⟨i, hi, hfreed⟩ := hfreed
          refine hgone (Or.inr ⟨i, hiter ▸ hi, ?_⟩)
          rw [hs₁]
          exact hfreed.alloc _
      | inl hown =>
          cases hc : s.2.curr with
          | none => exact hgone (Or.inl (by rw [hiter, hown, hc]))
          | some c =>
              have hright := h.right
              rw [hc] at hright
              obtain ⟨node, hnode⟩ := hright.get_head
              have hlt := lt_of_get hnode
              have hown₁ : get s₁.1.heap c = some node := by
                rw [hs₁]
                exact (get_alloc hlt _).trans hnode
              have hnew : get s₁.1.heap s.1.heap.length = some ⟨some c, x⟩ := by
                rw [hs₁, ← hc, ← hhead]
                exact get_alloc_new _ _
              have hfirst₁ : s₁.1.head_ = some s.1.heap.length := by rw [hs₁]
              exact stale_own hfirst₁ hnew (by rw [hiter, hc]) (by rw [hiter, hown, hc]) hown₁
                (by omega) hincr h₂

end Steps

/-! ## §6. Runs. -/

theorem linked_push_front {l : SList T} {ids : List Nat} {xs : List T}
    (h : Linked l.heap l.head_ ids xs none) (x : T) :
    Linked (l.push_front x).heap (l.push_front x).head_ (l.heap.length :: ids) (x :: xs) none := by
  refine .cons _ (⟨l.head_, x⟩ : SList_Node_ T) ids xs _ (get_alloc_new _ _) ?_
  refine h.frame fun i hi => ?_
  obtain ⟨_, hget⟩ := h.get_of_mem i hi
  exact get_alloc (lt_of_get hget) _

theorem linked_start (xs : List T) : ∀ (l : SList T) (ids : List Nat) (ys : List T),
    Linked l.heap l.head_ ids ys none → l.size_ = ys.length →
    ∃ ids', Linked (xs.foldl push_front l).heap (xs.foldl push_front l).head_ ids'
        (xs.reverse ++ ys) none ∧
      (xs.foldl push_front l).size_ = (xs.reverse ++ ys).length := by
  induction xs with
  | nil => intro l ids ys h hsize; exact ⟨ids, h, hsize⟩
  | cons x xs ih =>
      intro l ids ys h hsize
      have hsize' : (l.push_front x).size_ = (x :: ys).length := congrArg (· + 1) hsize
      obtain ⟨ids', h', hlen⟩ := ih (l.push_front x) _ (x :: ys) (linked_push_front h x) hsize'
      rw [List.reverse_cons, List.append_assoc]
      exact ⟨ids', h', hlen⟩

/-- The iterator taken with `begin()` stands at the first item. -/
theorem at_start (xs : List T) : ∃ B, At (start xs) (Sequence.start xs) [] B ∧ Prev (start xs) [] := by
  obtain ⟨ids, h, hsize⟩ := linked_start xs new [] [] (.nil _) rfl
  rw [List.append_nil] at h hsize
  refine ⟨ids, ⟨.nil _, h, ?_⟩, Or.inl ⟨rfl, Or.inl rfl⟩⟩
  rw [show (start xs).1.size_ = xs.reverse.length from hsize]
  exact (Nat.zero_add _).symm

/-- The last operation was not an `insert`, so that the node in front is known. -/
def Known (ops : List (Op T)) : Prop := ∀ op ∈ ops.getLast?, ∀ x, op ≠ .insert x

/-- **A run in which the iterator moves behind every `insert`.** -/
theorem run_at (xs : List T) (ops : List (Op T)) :
    ops.IsChain Spaced → ∀ seq, run Sequence.step (Sequence.start xs) ops = some seq →
      ∃ s A B, run step (start xs) ops = some s ∧ At s seq A B ∧ (Known ops → Prev s A) := by
  induction ops using List.reverseRecOn with
  | nil =>
      intro _ seq hseq
      obtain rfl := Option.some.inj hseq
      obtain ⟨B, hat, hprev⟩ := at_start xs
      exact ⟨start xs, [], B, rfl, hat, fun _ => hprev⟩
  | append_singleton ops op ih =>
      intro hchain seq' hseq'
      obtain ⟨hops, _, hlast⟩ := List.isChain_append.mp hchain
      rw [run_concat, Option.bind_eq_some_iff] at hseq'
      obtain ⟨seq, hseq, hstep⟩ := hseq'
      obtain ⟨s, A, B, hrun, hat, hknown⟩ := ih hops seq hseq
      -- an operation that needs the node in front has no `insert` before it
      have hprev : (∀ x, ¬ Spaced (.insert x) op) → Prev s A := by
        intro hneeds
        apply hknown
        intro last hmem x heq
        exact hneeds x (heq ▸ hlast last hmem op (by simp))
      rw [run_concat, hrun, Option.bind_some]
      cases op with
      | incr =>
          obtain ⟨s', A', B', hs', hat', hprev'⟩ := step_incr hat hstep
          exact ⟨s', A', B', hs', hat', fun _ => hprev'⟩
      | insert x =>
          obtain ⟨s', hs', _, hat'⟩ := step_insert hat (hprev fun _ h => h) x
          obtain rfl := Option.some.inj hstep
          refine ⟨s', _, B, hs', hat', fun hno => ?_⟩
          exact absurd rfl (hno (.insert x) (by simp) x)
      | erase =>
          obtain ⟨s', B', hs', hat', hprev'⟩ := step_erase hat (hprev fun _ h => h) hstep
          exact ⟨s', A, B', hs', hat', fun _ => hprev'⟩

/-- The list and the sequence after a run, and every state on the way. -/
def Refines (xs : List T) (ops : List (Op T)) : Prop :=
  ∀ pre, pre <+: ops → ∃ s seq, run step (start xs) pre = some s ∧
    run Sequence.step (Sequence.start xs) pre = some seq ∧ Agrees s seq

theorem Refines.of_prefix {xs : List T} {pre ops : List (Op T)} (h : Refines xs ops)
    (hpre : pre <+: ops) : Refines xs pre := fun pre' hpre' => h pre' (hpre'.trans hpre)

theorem chain_of_refines (xs : List T) (ops : List (Op T)) :
    Refines xs ops → ops.IsChain Spaced := by
  induction ops using List.reverseRecOn with
  | nil => intro _; exact .nil
  | append_singleton ops op ih =>
      intro hrefines
      have hops := ih (hrefines.of_prefix (List.prefix_append ops [op]))
      refine List.isChain_append.mpr ⟨hops, .singleton op, ?_⟩
      intro last hlast op' hop'
      obtain rfl : op' = op := by simpa using hop'.symm
      by_contra hspaced
      -- only an `insert` can be in the way
      have hinsert : ∃ x, last = .insert x := by
        cases last with
        | insert x => exact ⟨x, rfl⟩
        | erase => exact absurd trivial hspaced
        | incr => exact absurd trivial hspaced
      obtain ⟨x, rfl⟩ := hinsert
      obtain ⟨ops', rfl⟩ := List.getLast?_eq_some_iff.mp hlast
      obtain ⟨hops', _, hbefore⟩ := List.isChain_append.mp hops
      have hknown : Known ops' := by
        intro op hmem y heq
        exact (heq ▸ hbefore op hmem (.insert x) (by simp) : Spaced (.insert y) (.insert x))
      obtain ⟨s₂, seq₂, hrun, hseq, hagrees⟩ := hrefines _ List.prefix_rfl
      rw [run_concat, run_concat, Option.bind_eq_some_iff] at hrun hseq
      obtain ⟨s₁, hrun₁, h₂⟩ := hrun
      obtain ⟨seq₁, hseq₁, hseq₂⟩ := hseq
      rw [Option.bind_eq_some_iff] at hrun₁ hseq₁
      obtain ⟨s, hrun, h₁⟩ := hrun₁
      obtain ⟨seq, hseq, hinsert⟩ := hseq₁
      obtain rfl := Option.some.inj hinsert
      obtain ⟨s', A, B, hrun', hat, hprev⟩ := run_at xs ops' hops' seq hseq
      obtain rfl := Option.some.inj (hrun.symm.trans hrun')
      exact stale_insert hat (hprev hknown) hspaced h₁ h₂ hseq₂ hagrees

/-- **When the list is the sequence.**  For every list built with `push_front` and every
    run through one iterator that the sequence allows: all along the run the list is the
    sequence exactly when no `insert` is directly followed by an `insert` or an `erase`. -/
theorem slist_refines_iff (xs : List T) (ops : List (Op T))
    (hvalid : (run Sequence.step (Sequence.start xs) ops).isSome) :
    Refines xs ops ↔ ops.IsChain Spaced := by
  constructor
  · exact chain_of_refines xs ops
  · intro hchain pre hpre
    obtain ⟨rest, rfl⟩ := hpre
    obtain ⟨seq', hseq'⟩ := Option.isSome_iff_exists.mp hvalid
    rw [run_append, Option.bind_eq_some_iff] at hseq'
    obtain ⟨seq, hseq, _⟩ := hseq'
    obtain ⟨s, A, B, hrun, hat, _⟩ := run_at xs pre (List.isChain_append.mp hchain).1 seq hseq
    exact ⟨s, seq, hrun, hseq, hat.agrees⟩

/-- An item in front of the second one, and another behind it. -/
theorem slist_refines_spaced :
    Refines [30, 20, 10] [.incr, .insert 15, .incr, .insert 25, .incr] :=
  (slist_refines_iff [30, 20, 10] _ (by decide)).mpr (by simp [Spaced])

/-- The list behind the run of the next theorem: the node 2, which holds 11, is lost. -/
theorem slist_lost : ∃ s, run step (start [20, 10]) [.incr, .insert 11, .insert 12] = some s ∧
    Linked s.1.heap s.1.head_ [1, 3, 0] [10, 12, 20] none ∧ s.1.size_ = 4 := by
  refine ⟨_, rfl, ?_, rfl⟩
  refine .cons 1 (⟨some 3, 10⟩ : SList_Node_ Nat) [3, 0] [12, 20] none rfl ?_
  refine .cons 3 (⟨some 0, 12⟩ : SList_Node_ Nat) [0] [20] none rfl ?_
  exact .cons 0 (⟨none, 20⟩ : SList_Node_ Nat) [] [] none rfl (.nil none)

/-- Two items in front of the second one. -/
theorem slist_not_refines :
    run Sequence.step (Sequence.start [20, 10]) [.incr, .insert 11, .insert 12]
      = some ⟨[10, 11, 12], [20]⟩ ∧
    ¬ Refines [20, 10] [.incr, .insert 11, .insert 12] := by
  have hitems : run Sequence.step (Sequence.start [20, 10]) [.incr, .insert 11, .insert 12]
      = some ⟨[10, 11, 12], [20]⟩ := rfl
  refine ⟨hitems, ?_⟩
  intro hrefines
  obtain ⟨s, seq, hrun, hseq, hagrees⟩ := hrefines _ List.prefix_rfl
  obtain ⟨s', hrun', hlinked, _⟩ := slist_lost
  obtain rfl := Option.some.inj (hrun.symm.trans hrun')
  obtain rfl := Option.some.inj (hseq.symm.trans hitems)
  exact not_agrees_of_length hlinked (by decide) hagrees

end SList

end Aos
