/-
  Aos.Net.Acceptor — the connection table of `AIO_Acceptor`.

  The table has a slot for each session.  `make_handler` looks for a free one
  from the slot `curr_conn_` on, and tells the session how far it has looked,
  not which slot it has found.  `max_session` makes the table longer, or only
  says that it is shorter.

  Main results:
    • `good_make`, `good_destroy`, `good_max_session` — what each call keeps;
    • `table_invariant_iff` — in which runs the table is in order all along.
-/
import Aos.Byte
import Aos.Lib.Heap
import Aos.Lib.Runs

namespace Aos

open Lib.Heap Lib.Suffixes Lib.Runs

/-! ## §1. The acceptor. -/

/-- What the acceptor reads of a session. -/
structure AIO_Session where
  index_ : Int
  deriving Repr, DecidableEq

structure AIO_Acceptor where
  heap : Cells AIO_Session
  /-- the memory that is allocated for the table -/
  arr_conn_ : List (Option Nat)
  curr_conn_ : Int
  max_conn_ : Int
  is_cancelling_ : Bool
  /-- something outside that memory has been written -/
  wild : Bool
  deriving Repr, DecidableEq

namespace AIO_Acceptor

def MAX_SESSION : Nat := 1024

/-- `AIO_Acceptor(task)`, when there is memory for the table. -/
def new : AIO_Acceptor := ⟨[], List.replicate MAX_SESSION none, 0, MAX_SESSION, false, false⟩

/-- `*(arr_conn_ + k)`; nothing when that is not in the table's memory. -/
def slot (a : AIO_Acceptor) (k : Int) : Option (Option Nat) :=
  if k < 0 then none else a.arr_conn_[k.toNat]?

/-- `make_handler()`, where `made` says whether `make_session` makes one. -/
def make_handler (a : AIO_Acceptor) (made : Bool) : AIO_Acceptor × Option Nat :=
  if a.curr_conn_ ≥ a.max_conn_ ∨ a.is_cancelling_ then (a, none)
  else if ¬ made then (a, none)
  else
    let session := a.heap.length
    let place := fun i : Nat => (a.curr_conn_ + i) % a.max_conn_
    match (List.range a.max_conn_.toNat).find? (fun i => a.slot (place i) = some none) with
    | some i =>
        ({ a with
            heap := alloc a.heap ⟨i⟩
            arr_conn_ := a.arr_conn_.set (place i).toNat (some session)
            curr_conn_ := a.curr_conn_ + 1 }, some session)
    | none => ({ a with heap := free (alloc a.heap ⟨-1⟩) session }, none)

/-- `destroy_session(index)`. -/
def destroy_index (a : AIO_Acceptor) (index : Int) : Option (Int × AIO_Acceptor) :=
  (a.slot index).bind fun ptr =>
    match ptr with
    | none => some (-1, a)
    | some session =>
        (get a.heap session).map fun _ =>
          (0, { a with
                heap := free a.heap session
                arr_conn_ := a.arr_conn_.set index.toNat none
                curr_conn_ := a.curr_conn_ - 1 })

/-- `destroy_session(session)`. -/
def destroy_session (a : AIO_Acceptor) : Option Nat → Option (Int × AIO_Acceptor)
  | none => some (-1, a)
  | some session =>
      (get a.heap session).bind fun s =>
        (a.slot s.index_).bind fun ptr =>
          if ptr = some session then a.destroy_index s.index_
          else
            match (List.range a.max_conn_.toNat).find? (fun i : Nat => a.slot i = some (some session)) with
            | some i =>
                some (0, { a with
                            heap := free a.heap session
                            arr_conn_ := a.arr_conn_.set i none
                            curr_conn_ := a.curr_conn_ - 1 })
            | none => some (-1, a)

/-- `realloc`: what is added holds anything, here null. -/
def realloc (arr : List (Option Nat)) (n : Nat) : List (Option Nat) :=
  arr.take n ++ List.replicate (n - arr.length) none

/-- `max_session(max_conn)`, where `ok` says whether `realloc` finds the memory. -/
def max_session (a : AIO_Acceptor) (max_conn : Int) (ok : Bool) : AIO_Acceptor :=
  if max_conn > a.max_conn_ then
    if ok then
      let new_arr := realloc a.arr_conn_ max_conn.toNat
      -- memset(arr_conn_ + max_conn_, 0, ...)
      { a with
        arr_conn_ := new_arr.take a.max_conn_.toNat ++
          List.replicate (max_conn.toNat - a.max_conn_.toNat) none
        wild := a.wild || a.max_conn_ < 0
        max_conn_ := max_conn }
    else a
  else { a with max_conn_ := max_conn }

inductive Op
  | make_handler (made : Bool)
  | destroy_session (session : Option Nat)
  | destroy_index (index : Int)
  | max_session (max_conn : Int) (ok : Bool)
  deriving Repr, DecidableEq

/-- One call; none on a session that is gone, or at an index outside the table. -/
def step (a : AIO_Acceptor) : Op → Option AIO_Acceptor
  | .make_handler made => some (a.make_handler made).1
  | .destroy_session session => (a.destroy_session session).map Prod.snd
  | .destroy_index index => (a.destroy_index index).map Prod.snd
  | .max_session max_conn ok => some (a.max_session max_conn ok)

/-! ## §2. The table in order. -/

/-- **The table is in order.** -/
structure Invariant (a : AIO_Acceptor) : Prop where
  wild : a.wild = false
  /-- `curr_conn_` counts the live sessions -/
  curr : a.curr_conn_ = count a.heap
  /-- a live session is where its index says, within the table -/
  index : ∀ i s, get a.heap i = some s →
    0 ≤ s.index_ ∧ s.index_ < a.max_conn_ ∧ a.slot s.index_ = some (some i)
  distinct : ∀ i j s t, get a.heap i = some s → get a.heap j = some t → s.index_ = t.index_ → i = j
  /-- there is room for a session when fewer than the maximum are live -/
  make : (count a.heap : Int) < a.max_conn_ → ∃ i, (a.make_handler true).2 = some i
  /-- a live session is destroyed, and no other -/
  destroy : ∀ i, Live a.heap i → ∃ a', a.destroy_session (some i) = some (0, a') ∧
    ∀ j, Live a'.heap j ↔ Live a.heap j ∧ j ≠ i

/-- The slots from the k-th on are free. -/
def Free (a : AIO_Acceptor) (k : Nat) : Prop :=
  ∀ j, k ≤ j → j < a.arr_conn_.length → a.arr_conn_[j]? = some none

/-- There is no session, or there is one, in the first slot. -/
inductive Few (a : AIO_Acceptor) : Prop
  | idle (hlive : ∀ i, ¬ Live a.heap i) (hfree : a.Free 0)
  | one (i : Nat) (hi : get a.heap i = some ⟨0⟩) (honly : ∀ j, Live a.heap j → j = i)
      (hmax : 0 < a.max_conn_) (hslot : a.arr_conn_[0]? = some (some i)) (hfree : a.Free 1)

structure Good (a : AIO_Acceptor) : Prop where
  wild : a.wild = false
  cancelling : a.is_cancelling_ = false
  curr : a.curr_conn_ = count a.heap
  size : a.max_conn_ ≤ a.arr_conn_.length
  few : Few a

theorem slot_nat (a : AIO_Acceptor) (k : Nat) : a.slot k = a.arr_conn_[k]? := by
  unfold slot
  rw [if_neg (by omega), Int.toNat_natCast]

theorem count_one {h : Cells AIO_Session} {i : Nat} (hi : Live h i) (honly : ∀ j, Live h j → j = i) :
    count h = 1 := by
  have hfree := count_free hi
  have hnone : count (free h i) = 0 := by
    rw [count_eq_zero]
    intro j hj
    rw [live_free] at hj
    exact hj.2 (honly j hj.1)
  omega

/-- The first slot looked at is free. -/
theorem make_first {a : AIO_Acceptor} (hcancel : a.is_cancelling_ = false) {k : Nat}
    (hcurr : a.curr_conn_ = k) (hlt : a.curr_conn_ < a.max_conn_)
    (hslot : a.arr_conn_[k]? = some none) :
    a.make_handler true =
      ({ a with
          heap := alloc a.heap ⟨0⟩
          arr_conn_ := a.arr_conn_.set k (some a.heap.length)
          curr_conn_ := a.curr_conn_ + 1 }, some a.heap.length) := by
  have hplace : (a.curr_conn_ + 0) % a.max_conn_ = (k : Int) := by
    rw [Int.add_zero, Int.emod_eq_of_lt (by omega) hlt, hcurr]
  have hfind : (List.range a.max_conn_.toNat).find?
      (fun i : Nat => decide (a.slot ((a.curr_conn_ + i) % a.max_conn_) = some none)) = some 0 := by
    obtain ⟨n, hn⟩ : ∃ n, a.max_conn_.toNat = n + 1 := ⟨a.max_conn_.toNat - 1, by omega⟩
    rw [hn, List.range_succ_eq_map, List.find?_cons_of_pos]
    rw [Nat.cast_zero, hplace, slot_nat, hslot]
    rfl
  unfold make_handler
  rw [if_neg (by rw [hcancel]; simp; omega), if_neg (by simp)]
  simp only [hfind, Nat.cast_zero, hplace, Int.toNat_natCast]

/-- What a good table is good for. -/
theorem Good.invariant {a : AIO_Acceptor} (h : Good a) : Invariant a := by
  have hsize := h.size
  cases h.few with
  | idle hlive hfree =>
      have hzero := count_eq_zero.mpr hlive
      refine ⟨h.wild, h.curr, ?_, ?_, ?_, ?_⟩
      · intro i s hi
        exact absurd ⟨s, hi⟩ (hlive i)
      · intro i j s t hi
        exact absurd ⟨s, hi⟩ (hlive i)
      · intro hroom
        have hcurr : a.curr_conn_ = ((0 : Nat) : Int) := by rw [h.curr, hzero]
        have hslot := hfree 0 le_rfl (by omega)
        exact ⟨_, congrArg Prod.snd (make_first h.cancelling hcurr (by omega) hslot)⟩
      · intro i hi
        exact absurd hi (hlive i)
  | one i hi honly hmax hslot hfree =>
      have hone := count_one ⟨_, hi⟩ honly
      refine ⟨h.wild, h.curr, ?_, ?_, ?_, ?_⟩
      · intro j s hj
        obtain rfl := honly j ⟨s, hj⟩
        obtain rfl := Option.some.inj (hj.symm.trans hi)
        exact ⟨le_rfl, hmax, (slot_nat a 0).trans hslot⟩
      · intro j k s t hj hk _
        rw [honly j ⟨s, hj⟩, honly k ⟨t, hk⟩]
      · intro hroom
        have hcurr : a.curr_conn_ = ((1 : Nat) : Int) := by rw [h.curr, hone]
        have hnext := hfree 1 le_rfl (by omega)
        exact ⟨_, congrArg Prod.snd (make_first h.cancelling hcurr (by omega) hnext)⟩
      · intro j hj
        obtain rfl := honly j hj
        refine ⟨{ a with
          heap := free a.heap j
          arr_conn_ := a.arr_conn_.set 0 none
          curr_conn_ := a.curr_conn_ - 1 }, ?_, fun k => live_free a.heap k j⟩
        have hread : a.slot 0 = some (some j) := (slot_nat a 0).trans hslot
        unfold destroy_session destroy_index
        simp only [hi, hread, Option.bind_some, if_pos, Option.map_some]
        rfl

/-! ## §3. The calls. -/

/-- A call that `make_handler` refuses. -/
theorem make_refused {a : AIO_Acceptor} {made : Bool}
    (h : made = false ∨ a.curr_conn_ ≥ a.max_conn_) : (a.make_handler made).1 = a := by
  unfold make_handler
  by_cases hfull : a.curr_conn_ ≥ a.max_conn_ ∨ a.is_cancelling_
  · rw [if_pos hfull]
  · have hno : ¬ made := by
      cases h with
      | inl hno => rw [hno]; exact Bool.false_ne_true
      | inr hmax => exact absurd (Or.inl hmax) hfull
    rw [if_neg hfull, if_pos hno]

/-- A session made while none is live is in order. -/
theorem good_make {a : AIO_Acceptor} (h : Good a) (hidle : ∀ i, ¬ Live a.heap i) :
    Good (a.make_handler true).1 := by
  by_cases hfull : a.curr_conn_ ≥ a.max_conn_
  · rw [make_refused (Or.inr hfull)]
    exact h
  · have hsize := h.size
    have hcurr : a.curr_conn_ = ((0 : Nat) : Int) := by rw [h.curr, count_eq_zero.mpr hidle]
    have hfree : a.Free 0 := by
      cases h.few with
      | idle _ hfree => exact hfree
      | one i hi _ _ _ _ => exact absurd ⟨_, hi⟩ (hidle i)
    rw [make_first h.cancelling hcurr (by omega) (hfree 0 le_rfl (by omega))]
    refine ⟨h.wild, h.cancelling, ?_, ?_, ?_⟩
    · show a.curr_conn_ + 1 = count (alloc a.heap _)
      rw [count_alloc, h.curr, Nat.cast_add, Nat.cast_one]
    · show a.max_conn_ ≤ (a.arr_conn_.set 0 _).length
      rw [List.length_set]
      exact hsize
    · refine .one a.heap.length (get_alloc_new _ _) ?_ (by show 0 < a.max_conn_; omega) ?_ ?_
      · intro j hj
        cases (live_alloc _ _ _).mp hj with
        | inl hnew => exact hnew
        | inr hold => exact absurd hold (hidle j)
      · exact List.getElem?_set_self (by omega)
      · intro j hj hlt
        rw [List.length_set] at hlt
        rw [List.getElem?_set_ne (by omega)]
        exact hfree j (Nat.zero_le j) hlt

/-- A second one is told the index of the first. -/
theorem not_invariant_make {a : AIO_Acceptor} (h : Good a) {i : Nat} (hi : Live a.heap i)
    (hroom : (count a.heap : Int) < a.max_conn_) : ¬ Invariant (a.make_handler true).1 := by
  cases h.few with
  | idle hlive _ => exact absurd hi (hlive i)
  | one k hk honly _ hslot hfree =>
      have hsize := h.size
      have hcurr : a.curr_conn_ = ((1 : Nat) : Int) := by rw [h.curr, count_one ⟨_, hk⟩ honly]
      have hlt : a.curr_conn_ < a.max_conn_ := by rw [h.curr]; exact hroom
      rw [make_first h.cancelling hcurr hlt (hfree 1 le_rfl (by omega))]
      intro hinv
      obtain ⟨_, _, hindex⟩ := hinv.index a.heap.length ⟨0⟩ (get_alloc_new _ _)
      -- the first slot holds the session that was there
      have hfirst : (a.arr_conn_.set 1 (some a.heap.length))[0]? = some (some k) := by
        rw [List.getElem?_set_ne (by omega)]
        exact hslot
      have hboth := ((slot_nat _ 0).symm.trans hindex).symm.trans hfirst
      have hk' := lt_of_get hk
      have : a.heap.length = k := Option.some.inj (Option.some.inj hboth)
      omega

/-- The only session is taken out of its slot. -/
theorem good_remove {a : AIO_Acceptor} (h : Good a) {i : Nat} (hi : Live a.heap i) :
    Good { a with
      heap := free a.heap i
      arr_conn_ := a.arr_conn_.set 0 none
      curr_conn_ := a.curr_conn_ - 1 } := by
  cases h.few with
  | idle hlive _ => exact absurd hi (hlive i)
  | one k hk honly _ hslot hfree =>
      have hcount := count_free hi
      refine ⟨h.wild, h.cancelling, ?_, ?_, .idle ?_ ?_⟩
      · show a.curr_conn_ - 1 = count (free a.heap i)
        rw [h.curr]
        omega
      · show a.max_conn_ ≤ (a.arr_conn_.set 0 none).length
        rw [List.length_set]
        exact h.size
      · intro j hj
        have hboth := (live_free _ _ _).mp hj
        exact hboth.2 ((honly j hboth.1).trans (honly i hi).symm)
      · intro j _ hlt
        show (a.arr_conn_.set 0 none)[j]? = some none
        have hlt' : j < a.arr_conn_.length := List.length_set.symm ▸ hlt
        by_cases hj : j = 0
        · rw [hj] at hlt' ⊢
          exact List.getElem?_set_self hlt'
        · rw [List.getElem?_set_ne (Ne.symm hj)]
          exact hfree j (by omega) hlt'

theorem good_destroy_index {a a' : AIO_Acceptor} {index rc : Int} (h : Good a)
    (hcall : a.destroy_index index = some (rc, a')) : Good a' := by
  unfold destroy_index at hcall
  obtain ⟨ptr, hptr, hcall⟩ := Option.bind_eq_some_iff.mp hcall
  cases ptr with
  | none => exact (Prod.mk.inj (Option.some.inj hcall)).2 ▸ h
  | some session =>
      obtain ⟨s, hs, heq⟩ := Option.map_eq_some_iff.mp hcall
      obtain ⟨_, rfl⟩ := Prod.mk.inj heq
      -- only the first slot holds anything
      have hindex : index.toNat = 0 := by
        unfold slot at hptr
        split_ifs at hptr with hneg
        by_contra hne
        have hlt : index.toNat < a.arr_conn_.length := by
          by_contra hlt
          rw [List.getElem?_eq_none (by omega)] at hptr
          exact absurd hptr (by simp)
        have hnone : a.arr_conn_[index.toNat]? = some none := by
          cases h.few with
          | idle _ hfree => exact hfree _ (Nat.zero_le _) hlt
          | one _ _ _ _ _ hfree => exact hfree _ (by omega) hlt
        exact absurd (hptr.symm.trans hnone) (by simp)
      rw [hindex]
      exact good_remove h ⟨s, hs⟩

theorem good_destroy {a a' : AIO_Acceptor} {session : Option Nat} {rc : Int} (h : Good a)
    (hcall : a.destroy_session session = some (rc, a')) : Good a' := by
  cases session with
  | none => exact (Prod.mk.inj (Option.some.inj hcall)).2 ▸ h
  | some i =>
      have hlive : Live a.heap i := by
        rw [destroy_session] at hcall
        obtain ⟨s, hs, _⟩ := Option.bind_eq_some_iff.mp hcall
        exact ⟨s, hs⟩
      obtain ⟨s, hs⟩ := hlive
      obtain ⟨_, _, hslot⟩ := h.invariant.index i s hs
      rw [destroy_session, hs, Option.bind_some, hslot, Option.bind_some, if_pos rfl] at hcall
      exact good_destroy_index h hcall

/-- A table that grows from a length that is one. -/
theorem good_grow {a : AIO_Acceptor} (h : Good a) {n : Int} (hn : n > a.max_conn_)
    (hmax : 0 ≤ a.max_conn_) (ok : Bool) : Good (a.max_session n ok) := by
  unfold max_session
  rw [if_pos hn]
  cases ok with
  | false => exact h
  | true =>
      have hsize := h.size
      have hkept : (realloc a.arr_conn_ n.toNat).take a.max_conn_.toNat
          = a.arr_conn_.take a.max_conn_.toNat := by
        unfold realloc
        rw [List.take_append_of_le_length (by rw [List.length_take]; omega), List.take_take,
          Nat.min_eq_left (by omega)]
      have hlen : (a.arr_conn_.take a.max_conn_.toNat).length = a.max_conn_.toNat := by
        rw [List.length_take]
        omega
      have hfar : ∀ j, a.max_conn_.toNat ≤ j → j < n.toNat →
          (a.arr_conn_.take a.max_conn_.toNat ++
            List.replicate (n.toNat - a.max_conn_.toNat) none)[j]? = some none := by
        intro j hj hlt
        rw [List.getElem?_append_right (by omega), List.getElem?_replicate, if_pos (by omega)]
      have hnear : ∀ j, j < a.max_conn_.toNat →
          (a.arr_conn_.take a.max_conn_.toNat ++
            List.replicate (n.toNat - a.max_conn_.toNat) none)[j]? = a.arr_conn_[j]? := by
        intro j hj
        rw [List.getElem?_append_left (by omega), List.getElem?_take_of_lt hj]
      have htotal : (a.arr_conn_.take a.max_conn_.toNat ++
          List.replicate (n.toNat - a.max_conn_.toNat) none).length = n.toNat := by
        rw [List.length_append, hlen, List.length_replicate]
        omega
      have hfree : ∀ k, a.Free k → ∀ j, k ≤ j → j < n.toNat →
          (a.arr_conn_.take a.max_conn_.toNat ++
            List.replicate (n.toNat - a.max_conn_.toNat) none)[j]? = some none := by
        intro k hk j hj hlt
        by_cases hold : j < a.max_conn_.toNat
        · rw [hnear j hold]
          exact hk j hj (by omega)
        · exact hfar j (by omega) hlt
      simp only [if_true, hkept]
      refine ⟨?_, h.cancelling, h.curr, ?_, ?_⟩
      · show (a.wild || decide (a.max_conn_ < 0)) = false
        rw [h.wild, decide_eq_false (by omega)]
        rfl
      · show n ≤ _
        rw [htotal]
        omega
      · cases h.few with
        | idle hlive hidle =>
            refine .idle hlive ?_
            intro j hj hlt
            rw [htotal] at hlt
            exact hfree 0 hidle j hj hlt
        | one i hi honly hpos hslot hrest =>
            refine .one i hi honly (by show 0 < n; omega) ?_ ?_
            · exact (hnear 0 (by omega)).trans hslot
            · intro j hj hlt
              rw [htotal] at hlt
              exact hfree 1 hrest j hj hlt

/-- A table that is said to be shorter keeps its session when there is room for one. -/
theorem good_shrink {a : AIO_Acceptor} (h : Good a) {n : Int} (hn : ¬ n > a.max_conn_)
    (hroom : count a.heap = 0 ∨ (count a.heap : Int) ≤ n) (ok : Bool) : Good (a.max_session n ok) := by
  have hsize := h.size
  unfold max_session
  rw [if_neg hn]
  refine ⟨h.wild, h.cancelling, h.curr, by show n ≤ a.arr_conn_.length; omega, ?_⟩
  cases h.few with
  | idle hlive hidle => exact .idle hlive hidle
  | one i hi honly hpos hslot hrest =>
      have hone := count_one ⟨_, hi⟩ honly
      exact .one i hi honly (by show 0 < n; omega) hslot hrest

/-! ## §4. Runs. -/

/-- What a call asks of the acceptor: a session is made while none is live, or refused;
    the maximum stays above the live sessions, and does not grow from below zero. -/
def Orderly (a : AIO_Acceptor) : Op → Prop
  | .make_handler made => made = true → count a.heap = 0 ∨ (count a.heap : Int) ≥ a.max_conn_
  | .destroy_session _ => True
  | .destroy_index _ => True
  | .max_session n ok =>
      (n ≤ a.max_conn_ → count a.heap = 0 ∨ (count a.heap : Int) ≤ n) ∧
        (n > a.max_conn_ → ok = true → 0 ≤ a.max_conn_)

theorem good_new : Good new := by
  have hlen : new.arr_conn_.length = MAX_SESSION := List.length_replicate
  refine ⟨rfl, rfl, rfl, le_of_eq (congrArg Nat.cast hlen.symm), .idle ?_ ?_⟩
  · intro i hi
    exact absurd hi.lt (Nat.not_lt_zero i)
  · intro j _ hlt
    rw [hlen] at hlt
    show (List.replicate MAX_SESSION none)[j]? = some none
    rw [List.getElem?_replicate, if_pos hlt]

/-- **An orderly call keeps the table good.** -/
theorem good_step (a : AIO_Acceptor) (op : Op) (a' : AIO_Acceptor) (h : Good a)
    (hstep : step a op = some a') (hop : Orderly a op) : Good a' := by
  cases op with
  | make_handler made =>
      obtain rfl := Option.some.inj hstep
      cases made with
      | false => exact (make_refused (Or.inl rfl)).symm ▸ h
      | true =>
          cases hop rfl with
          | inl hnone => exact good_make h (count_eq_zero.mp hnone)
          | inr hfull => exact (make_refused (Or.inr (h.curr ▸ hfull))).symm ▸ h
  | destroy_session session =>
      obtain ⟨⟨rc, a''⟩, hcall, rfl⟩ := Option.map_eq_some_iff.mp hstep
      exact good_destroy h hcall
  | destroy_index index =>
      obtain ⟨⟨rc, a''⟩, hcall, rfl⟩ := Option.map_eq_some_iff.mp hstep
      exact good_destroy_index h hcall
  | max_session n ok =>
      obtain rfl := Option.some.inj hstep
      by_cases hn : n > a.max_conn_
      · cases ok with
        | true => exact good_grow h hn (hop.2 hn rfl) true
        | false =>
            unfold max_session
            rw [if_pos hn]
            exact h
      · exact good_shrink h hn (hop.1 (by omega)) ok

/-- **One that is not leaves it out of order.** -/
theorem not_invariant_step (a : AIO_Acceptor) (op : Op) (a' : AIO_Acceptor) (h : Good a)
    (hstep : step a op = some a') (hop : ¬ Orderly a op) : ¬ Invariant a' := by
  cases op with
  | destroy_session _ => exact absurd trivial hop
  | destroy_index _ => exact absurd trivial hop
  | make_handler made =>
      obtain rfl := Option.some.inj hstep
      unfold Orderly at hop
      simp only [Classical.not_imp, not_or] at hop
      obtain ⟨rfl, hsome, hroom⟩ := hop
      have hlive : ∃ i, Live a.heap i := by
        by_contra hnone
        exact hsome (count_eq_zero.mpr fun i hi => hnone ⟨i, hi⟩)
      obtain ⟨i, hi⟩ := hlive
      exact not_invariant_make h hi (by omega)
  | max_session n ok =>
      obtain rfl := Option.some.inj hstep
      intro hinv
      apply hop
      refine ⟨?_, ?_⟩
      · intro hn
        by_contra hsmall
        rw [not_or] at hsmall
        cases h.few with
        | idle hlive _ => exact hsmall.1 (count_eq_zero.mpr hlive)
        | one i hi honly hpos hslot hrest =>
            have hone := count_one ⟨_, hi⟩ honly
            unfold max_session at hinv
            rw [if_neg (by omega)] at hinv
            obtain ⟨_, hlt, _⟩ := hinv.index i ⟨0⟩ hi
            have hlt' : (0 : Int) < n := hlt
            omega
      · intro hn hok
        have hwild := hinv.wild
        unfold max_session at hwild
        rw [if_pos hn, if_pos hok] at hwild
        by_contra hneg
        have htrue : (a.wild || decide (a.max_conn_ < 0)) = true := by
          rw [decide_eq_true (by omega), Bool.or_true]
        exact absurd (htrue.symm.trans hwild) (by simp)

/-- **In which runs the table is in order.**  For every run of the calls, whatever the
    sessions and sizes: the table is in order all along exactly when every call is
    orderly in the state it is made in. -/
theorem table_invariant_iff (ops : List Op) :
    Always step new Invariant ops ↔ Meets step new Orderly ops :=
  always_iff_meets Good good_new (fun _ h => h.invariant) good_step not_invariant_step ops

/-- Two sessions: both are told the index 0, where the first one is. -/
theorem table_not_invariant :
    ¬ Always step new Invariant [.make_handler true, .make_handler true] := by
  intro halways
  have hone := good_make good_new fun i hi => absurd hi.lt (Nat.not_lt_zero i)
  have hlive : Live (new.make_handler true).1.heap 0 := ⟨⟨0⟩, by decide +kernel⟩
  have hroom : (count (new.make_handler true).1.heap : Int) < (new.make_handler true).1.max_conn_ := by
    decide +kernel
  exact not_invariant_make hone hlive hroom (halways _ List.prefix_rfl _ rfl)

end AIO_Acceptor

end Aos
