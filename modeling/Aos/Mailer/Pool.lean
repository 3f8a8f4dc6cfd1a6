/-
  Aos.Mailer.Pool — the connections of a mailer, and what its queues count.

  `SMTP_Mailer` keeps its connections in a pool; a domain queue counts those
  that were made for it.  `create_connection` and `destroy_connection` adjust
  the count, the two functions that clear connections do not.

  A pointer to a connection that is gone has no meaning: what would follow one
  gives `none`.

  Main results:
    • `sound_step` — the connections in the pool are those that are alive;
    • `exact_step` — which steps keep the counts exact;
    • `counts_exact_iff` — in which runs they are exact all along.
-/
import Aos.Byte
import Aos.Lib.Heap
import Aos.Lib.Multimap
import Aos.Lib.Runs

namespace Aos.SMTP_Mailer

open Lib.Heap Lib.Suffixes Lib.Runs

/-! ## §1. The mailer and its queues. -/

/-- What the pool's functions read of a `SMTP_Mailer_Connection`. -/
structure Conn where
  /-- `queue()`, null for a connection without one -/
  queue_ : Option Nat
  deriving Repr, DecidableEq

structure SMTP_Mailer_Domain_Queue where
  /-- `mailer_` is set, and then it is the mailer -/
  mailer_ : Bool
  n_ref_conn_ : Int
  deriving Repr, DecidableEq

/-- The mailer, with the connections and the queues there are. -/
structure Mailer where
  heap : Cells Conn
  /-- `std::multimap`, in the order of its keys -/
  pool_ : List (Bytes × Nat)
  queues : Nat → SMTP_Mailer_Domain_Queue

def MAX_CONNECTION : Nat := 10240

/-- `multimap::insert`: behind the entries with the same key. -/
def pool_insert (pool : List (Bytes × Nat)) (key : Bytes) (conn : Nat) : List (Bytes × Nat) :=
  pool.takeWhile (fun e => decide (¬ key < e.1)) ++
    (key, conn) :: pool.dropWhile (fun e => decide (¬ key < e.1))

/-- `n_ref_conn_` of a queue changes by `d`; a connection may have no queue. -/
def add_ref (queues : Nat → SMTP_Mailer_Domain_Queue) (queue : Option Nat) (d : Int) :
    Nat → SMTP_Mailer_Domain_Queue := fun q =>
  if queue = some q then { queues q with n_ref_conn_ := (queues q).n_ref_conn_ + d } else queues q

def create_connection (m : Mailer) (key : Bytes) (queue : Option Nat) : Mailer :=
  if MAX_CONNECTION ≠ 0 ∧ m.pool_.length ≥ MAX_CONNECTION then m
  else
    ⟨alloc m.heap ⟨queue⟩, pool_insert m.pool_ key m.heap.length, add_ref m.queues queue 1⟩

def destroy_connection (m : Mailer) (conn : Nat) : Option Mailer :=
  (get m.heap conn).map fun c =>
    ⟨free m.heap conn, m.pool_.eraseP (fun e => e.2 = conn), add_ref m.queues c.queue_ (-1)⟩

/-- The loop `delete iter->second` over the pool. -/
def delete_all (heap : Cells Conn) : List (Bytes × Nat) → Option (Cells Conn)
  | [] => some heap
  | e :: pool => (get heap e.2).bind fun _ => delete_all (free heap e.2) pool

def clear_all_connections (m : Mailer) : Option Mailer :=
  (delete_all m.heap m.pool_).map fun heap => ⟨heap, [], m.queues⟩

/-- The loop of `clear_reference_connections` over the pool, for the queue `q`. -/
def clear_loop (q : Nat) (heap : Cells Conn) :
    List (Bytes × Nat) → Option (Cells Conn × List (Bytes × Nat))
  | [] => some (heap, [])
  | e :: pool =>
      (get heap e.2).bind fun c =>
        if c.queue_ = some q then clear_loop q (free heap e.2) pool
        else (clear_loop q heap pool).map fun r => (r.1, e :: r.2)

/-- `clear_reference_connections()` of the queue `q`. -/
def clear_reference_connections (m : Mailer) (q : Nat) : Option Mailer :=
  if (m.queues q).n_ref_conn_ > 0 ∧ (m.queues q).mailer_ then
    (clear_loop q m.heap m.pool_).map fun r => ⟨r.1, r.2, m.queues⟩
  else some m

inductive Op
  | create (key : Bytes) (queue : Option Nat)
  | destroy (conn : Nat)
  | clear_all
  | clear_reference (q : Nat)
  deriving Repr, DecidableEq

def step (m : Mailer) : Op → Option Mailer
  | .create key queue => some (create_connection m key queue)
  | .destroy conn => destroy_connection m conn
  | .clear_all => clear_all_connections m
  | .clear_reference q => clear_reference_connections m q

/-- A mailer without connections, and queues nobody has counted for. `mailer q` says
    whether the queue `q` was made with the mailer. -/
def start (mailer : Nat → Bool) : Mailer := ⟨[], [], fun q => ⟨mailer q, 0⟩⟩

/-! ## §2. The pool. -/

/-- The connections in the pool are those that are alive, each in it once. -/
structure Sound (m : Mailer) : Prop where
  nodup : (m.pool_.map Prod.snd).Nodup
  live : ∀ i, i ∈ m.pool_.map Prod.snd ↔ Live m.heap i

/-- The entry is a connection of the queue. -/
def refers (heap : Cells Conn) (q : Nat) (e : Bytes × Nat) : Bool :=
  (get heap e.2).any fun c => c.queue_ = some q

/-- How many connections in the pool reference the queue. -/
def refs (m : Mailer) (q : Nat) : Nat := m.pool_.countP (refers m.heap q)

/-- **The counts are exact**, and so never below zero. -/
def Exact (m : Mailer) : Prop := ∀ q, (m.queues q).n_ref_conn_ = refs m q

/-- The entries see the same connections as before. -/
theorem countP_refers {heap heap' : Cells Conn} {pool : List (Bytes × Nat)} (q : Nat)
    (h : ∀ e ∈ pool, get heap' e.2 = get heap e.2) :
    pool.countP (refers heap' q) = pool.countP (refers heap q) := by
  apply List.countP_congr
  intro e he
  unfold refers
  rw [h e he]

theorem pool_insert_perm (pool : List (Bytes × Nat)) (key : Bytes) (conn : Nat) :
    (pool_insert pool key conn).Perm ((key, conn) :: pool) :=
  Lib.Multimap.insert_perm pool key conn

/-- The count of a queue that one connection more, or less, refers to. -/
theorem add_ref_count (queues : Nat → SMTP_Mailer_Domain_Queue) (queue : Option Nat) (d : Int)
    (q : Nat) :
    (add_ref queues queue d q).n_ref_conn_
      = (queues q).n_ref_conn_ + if queue = some q then d else 0 := by
  unfold add_ref
  split_ifs with hq
  · rfl
  · exact (Int.add_zero _).symm

/-! ### `create_connection` -/

theorem sound_create {m : Mailer} (h : Sound m) (key : Bytes) (queue : Option Nat) :
    Sound (create_connection m key queue) := by
  unfold create_connection
  split_ifs with hfull
  · exact h
  · have hperm := (pool_insert_perm m.pool_ key m.heap.length).map Prod.snd
    rw [List.map_cons] at hperm
    refine ⟨?_, ?_⟩
    · rw [hperm.nodup_iff, List.nodup_cons]
      refine ⟨?_, h.nodup⟩
      intro hmem
      exact absurd ((h.live _).mp hmem).lt (lt_irrefl _)
    · intro i
      rw [hperm.mem_iff, List.mem_cons, h.live, live_alloc]

theorem refs_create {m : Mailer} (h : Sound m) (key : Bytes) (queue : Option Nat) (q : Nat)
    (hfull : ¬ (MAX_CONNECTION ≠ 0 ∧ m.pool_.length ≥ MAX_CONNECTION)) :
    refs (create_connection m key queue) q = refs m q + if queue = some q then 1 else 0 := by
  unfold refs create_connection
  rw [if_neg hfull]
  have hold : m.pool_.countP (refers (alloc m.heap ⟨queue⟩) q) = m.pool_.countP (refers m.heap q) := by
    apply countP_refers
    intro e he
    exact get_alloc ((h.live e.2).mp (List.mem_map_of_mem he)).lt _
  have hnew : refers (alloc m.heap ⟨queue⟩) q (key, m.heap.length) = decide (queue = some q) := by
    unfold refers
    rw [get_alloc_new]
    rfl
  rw [(pool_insert_perm m.pool_ key m.heap.length).countP_eq, List.countP_cons, hold, hnew]
  simp only [decide_eq_true_eq]

theorem exact_create {m : Mailer} (h : Sound m) (hexact : Exact m) (key : Bytes)
    (queue : Option Nat) : Exact (create_connection m key queue) := by
  intro q
  by_cases hfull : MAX_CONNECTION ≠ 0 ∧ m.pool_.length ≥ MAX_CONNECTION
  · unfold create_connection
    rw [if_pos hfull]
    exact hexact q
  · rw [refs_create h key queue q hfull]
    unfold create_connection
    rw [if_neg hfull, add_ref_count, hexact q]
    split_ifs <;> simp

/-! ### `destroy_connection` -/

theorem pool_erase_perm {pool : List (Bytes × Nat)} {conn : Nat}
    (h : conn ∈ pool.map Prod.snd) :
    ∃ key, pool.Perm ((key, conn) :: pool.eraseP (fun e => e.2 = conn)) :=
  Lib.Multimap.eraseValue_perm h

section Destroy

variable {m m' : Mailer} {conn : Nat}

theorem destroy_cases (h : Sound m) (hstep : destroy_connection m conn = some m') :
    ∃ c key, get m.heap conn = some c ∧ m.pool_.Perm ((key, conn) :: m'.pool_) ∧
      m'.heap = free m.heap conn ∧ m'.queues = add_ref m.queues c.queue_ (-1) := by
  unfold destroy_connection at hstep
  obtain ⟨c, hc, rfl⟩ := Option.map_eq_some_iff.mp hstep
  obtain ⟨key, hperm⟩ := pool_erase_perm ((h.live conn).mpr ⟨c, hc⟩)
  exact ⟨c, key, hc, hperm, rfl, rfl⟩

theorem destroy_not_mem (h : Sound m) {key : Bytes} (hperm : m.pool_.Perm ((key, conn) :: m'.pool_)) :
    conn ∉ m'.pool_.map Prod.snd ∧ (m'.pool_.map Prod.snd).Nodup := by
  have hnodup := h.nodup
  rw [(hperm.map Prod.snd).nodup_iff, List.map_cons, List.nodup_cons] at hnodup
  exact hnodup

theorem sound_destroy (h : Sound m) (hstep : destroy_connection m conn = some m') : Sound m' := by
  obtain ⟨c, key, _, hperm, hheap, _⟩ := destroy_cases h hstep
  obtain ⟨hnot, hnodup⟩ := destroy_not_mem h hperm
  refine ⟨hnodup, ?_⟩
  intro i
  rw [hheap, live_free, ← h.live, (hperm.map Prod.snd).mem_iff, List.map_cons, List.mem_cons]
  constructor
  · intro hi
    exact ⟨Or.inr hi, fun heq => hnot (heq ▸ hi)⟩
  · intro hboth
    exact hboth.1.resolve_left hboth.2

theorem exact_destroy (h : Sound m) (hexact : Exact m)
    (hstep : destroy_connection m conn = some m') : Exact m' := by
  obtain ⟨c, key, hc, hperm, hheap, hqueues⟩ := destroy_cases h hstep
  obtain ⟨hnot, _⟩ := destroy_not_mem h hperm
  intro q
  have hold : m'.pool_.countP (refers m'.heap q) = m'.pool_.countP (refers m.heap q) := by
    apply countP_refers
    intro e he
    rw [hheap]
    exact get_free fun heq => hnot (heq ▸ List.mem_map_of_mem he)
  have hcount : refs m q = refs m' q + if c.queue_ = some q then 1 else 0 := by
    unfold refs
    rw [hperm.countP_eq, List.countP_cons, hold]
    unfold refers
    rw [hc]
    simp only [Option.any_some, decide_eq_true_eq]
  rw [hqueues, add_ref_count, hexact q, hcount]
  split_ifs <;> simp

end Destroy

/-! ### `clear_all_connections` -/

theorem delete_all_live (pool : List (Bytes × Nat)) :
    ∀ {heap heap' : Cells Conn}, delete_all heap pool = some heap' →
      ∀ i, Live heap' i ↔ Live heap i ∧ i ∉ pool.map Prod.snd := by
  induction pool with
  | nil =>
      intro heap heap' h i
      obtain rfl := Option.some.inj h
      simp
  | cons e pool ih =>
      intro heap heap' h i
      rw [delete_all, Option.bind_eq_some_iff] at h
      obtain ⟨_, _, htail⟩ := h
      rw [ih htail i, live_free, List.map_cons, List.mem_cons, not_or]
      exact and_assoc

theorem clear_all_cases {m m' : Mailer} (hstep : clear_all_connections m = some m') :
    ∃ heap, delete_all m.heap m.pool_ = some heap ∧ m' = ⟨heap, [], m.queues⟩ := by
  unfold clear_all_connections at hstep
  obtain ⟨heap, hheap, rfl⟩ := Option.map_eq_some_iff.mp hstep
  exact ⟨heap, hheap, rfl⟩

theorem sound_clear_all {m m' : Mailer} (h : Sound m) (hstep : clear_all_connections m = some m') :
    Sound m' := by
  obtain ⟨heap, hheap, rfl⟩ := clear_all_cases hstep
  refine ⟨List.nodup_nil, ?_⟩
  intro i
  rw [delete_all_live m.pool_ hheap i, h.live i]
  simp

/-- Nothing is subtracted: the counts are right when there was nothing to subtract. -/
theorem exact_clear_all {m m' : Mailer} (hexact : Exact m)
    (hstep : clear_all_connections m = some m') : Exact m' ↔ ∀ q, refs m q = 0 := by
  obtain ⟨heap, _, rfl⟩ := clear_all_cases hstep
  apply forall_congr'
  intro q
  show (m.queues q).n_ref_conn_ = ((0 : Nat) : Int) ↔ _
  rw [hexact q]
  omega

/-! ### `clear_reference_connections` -/

section ClearLoop

variable {q : Nat} {heap heap' : Cells Conn} {pool pool' : List (Bytes × Nat)}

/-- One connection: it is deleted, or it stays. -/
theorem clear_loop_cons {e : Bytes × Nat} (h : clear_loop q heap (e :: pool) = some (heap', pool')) :
    (refers heap q e = true ∧ clear_loop q (free heap e.2) pool = some (heap', pool')) ∨
      (refers heap q e = false ∧
        ∃ kept, pool' = e :: kept ∧ clear_loop q heap pool = some (heap', kept)) := by
  rw [clear_loop, Option.bind_eq_some_iff] at h
  obtain ⟨c, hc, htail⟩ := h
  have hrefers : refers heap q e = decide (c.queue_ = some q) := by
    unfold refers
    rw [hc]
    rfl
  rw [hrefers]
  by_cases hq : c.queue_ = some q
  · rw [if_pos hq] at htail
    exact Or.inl ⟨decide_eq_true hq, htail⟩
  · rw [if_neg hq] at htail
    obtain ⟨⟨heap₁, kept⟩, hloop, heq⟩ := Option.map_eq_some_iff.mp htail
    obtain ⟨rfl, rfl⟩ := Prod.mk.inj heq
    exact Or.inr ⟨decide_eq_false hq, kept, rfl, hloop⟩

/-- The entries behind do not see that a connection is gone. -/
theorem refers_free {conn : Nat} (hnot : conn ∉ pool.map Prod.snd) :
    ∀ e ∈ pool, refers (free heap conn) q e = refers heap q e := by
  intro e he
  unfold refers
  rw [get_free fun heq => hnot (List.mem_map.mpr ⟨e, he, heq.symm⟩)]

/-- What the loop leaves in the pool. -/
theorem clear_loop_pool (pool : List (Bytes × Nat)) : ∀ {heap heap' : Cells Conn}
    {pool' : List (Bytes × Nat)}, (pool.map Prod.snd).Nodup →
      clear_loop q heap pool = some (heap', pool') →
      pool' = pool.filter fun e => !refers heap q e := by
  induction pool with
  | nil =>
      intro heap heap' pool' _ h
      obtain ⟨_, rfl⟩ := Prod.mk.inj (Option.some.inj h)
      rfl
  | cons e pool ih =>
      intro heap heap' pool' hnodup h
      rw [List.map_cons, List.nodup_cons] at hnodup
      cases clear_loop_cons h with
      | inl hgone =>
          rw [List.filter_cons_of_neg (by simp [hgone.1]), ih hnodup.2 hgone.2]
          exact List.filter_congr fun e' he' => by rw [refers_free hnodup.1 e' he']
      | inr hstays =>
          obtain ⟨hno, kept, rfl, hloop⟩ := hstays
          rw [List.filter_cons_of_pos (by simp [hno]), ih hnodup.2 hloop]

/-- Other connections are left as they are. -/
theorem clear_loop_get (pool : List (Bytes × Nat)) : ∀ {heap heap' : Cells Conn}
    {pool' : List (Bytes × Nat)}, (pool.map Prod.snd).Nodup →
      clear_loop q heap pool = some (heap', pool') →
      ∀ i, (∀ e ∈ pool, e.2 = i → refers heap q e = false) → get heap' i = get heap i := by
  induction pool with
  | nil =>
      intro heap heap' pool' _ h _ _
      obtain ⟨rfl, _⟩ := Prod.mk.inj (Option.some.inj h)
      rfl
  | cons e pool ih =>
      intro heap heap' pool' hnodup h i hi
      rw [List.map_cons, List.nodup_cons] at hnodup
      have htail : ∀ e' ∈ pool, e'.2 = i → refers heap q e' = false :=
        fun e' he' => hi e' (List.mem_cons_of_mem e he')
      cases clear_loop_cons h with
      | inl hgone =>
          have hne : e.2 ≠ i := by
            intro heq
            rw [hi e List.mem_cons_self heq] at hgone
            exact absurd hgone.1 (by simp)
          rw [ih hnodup.2 hgone.2 i fun e' he' heq => by
            rw [refers_free hnodup.1 e' he']
            exact htail e' he' heq, get_free hne]
      | inr hstays =>
          obtain ⟨_, _, _, hloop⟩ := hstays
          exact ih hnodup.2 hloop i htail

/-- Those of the queue are gone. -/
theorem clear_loop_gone (pool : List (Bytes × Nat)) : ∀ {heap heap' : Cells Conn}
    {pool' : List (Bytes × Nat)}, (pool.map Prod.snd).Nodup →
      clear_loop q heap pool = some (heap', pool') →
      ∀ e ∈ pool, refers heap q e = true → ¬ Live heap' e.2 := by
  induction pool with
  | nil => exact fun _ _ e he => absurd he List.not_mem_nil
  | cons e pool ih =>
      intro heap heap' pool' hnodup h e' he' href
      rw [List.map_cons, List.nodup_cons] at hnodup
      cases clear_loop_cons h with
      | inl hgone =>
          cases List.mem_cons.mp he' with
          | inl heq =>
              subst heq
              intro hlive
              obtain ⟨a, ha⟩ := hlive
              rw [clear_loop_get pool hnodup.2 hgone.2 e'.2 fun e'' he'' heq =>
                absurd (List.mem_map.mpr ⟨e'', he'', heq⟩) hnodup.1, get_free_same] at ha
              exact absurd ha (by simp)
          | inr htail =>
              refine ih hnodup.2 hgone.2 e' htail ?_
              rw [refers_free hnodup.1 e' htail]
              exact href
      | inr hstays =>
          obtain ⟨hno, _, _, hloop⟩ := hstays
          cases List.mem_cons.mp he' with
          | inl heq =>
              rw [heq, hno] at href
              exact absurd href (by simp)
          | inr htail => exact ih hnodup.2 hloop e' htail href

end ClearLoop

section ClearReference

variable {m m' : Mailer} {q : Nat}

theorem clear_reference_cases (hstep : clear_reference_connections m q = some m') :
    (m' = m ∧ ¬ ((m.queues q).n_ref_conn_ > 0 ∧ (m.queues q).mailer_ = true)) ∨
      ((m.queues q).n_ref_conn_ > 0 ∧ (m.queues q).mailer_ = true ∧
        clear_loop q m.heap m.pool_ = some (m'.heap, m'.pool_) ∧ m'.queues = m.queues) := by
  unfold clear_reference_connections at hstep
  split_ifs at hstep with hgo
  · obtain ⟨⟨heap, pool⟩, hloop, rfl⟩ := Option.map_eq_some_iff.mp hstep
    exact Or.inr ⟨hgo.1, hgo.2, hloop, rfl⟩
  · exact Or.inl ⟨(Option.some.inj hstep).symm, hgo⟩

/-- The connections that stay in the pool are as they were. -/
theorem clear_loop_kept (h : Sound m)
    (hloop : clear_loop q m.heap m.pool_ = some (m'.heap, m'.pool_)) :
    ∀ e ∈ m'.pool_, e ∈ m.pool_ ∧ refers m.heap q e = false ∧
      get m'.heap e.2 = get m.heap e.2 := by
  intro e he
  rw [clear_loop_pool m.pool_ h.nodup hloop, List.mem_filter, Bool.not_eq_true'] at he
  refine ⟨he.1, he.2, clear_loop_get m.pool_ h.nodup hloop e.2 fun e' he' heq => ?_⟩
  rw [List.inj_on_of_nodup_map h.nodup he' he.1 heq]
  exact he.2

theorem sound_clear_reference (h : Sound m) (hstep : clear_reference_connections m q = some m') :
    Sound m' := by
  cases clear_reference_cases hstep with
  | inl hsame => exact hsame.1 ▸ h
  | inr hcleared =>
      obtain ⟨_, _, hloop, _⟩ := hcleared
      have hpool := clear_loop_pool m.pool_ h.nodup hloop
      have hsub : m'.pool_.Sublist m.pool_ := by
        rw [hpool]
        exact List.filter_sublist
      refine ⟨h.nodup.sublist (hsub.map Prod.snd), ?_⟩
      intro i
      constructor
      · intro hi
        obtain ⟨e, he, rfl⟩ := List.mem_map.mp hi
        obtain ⟨hold, _, hget⟩ := clear_loop_kept h hloop e he
        obtain ⟨c, hc⟩ := (h.live e.2).mp (List.mem_map_of_mem hold)
        exact ⟨c, hget.trans hc⟩
      · intro hlive
        have hno : ∀ e ∈ m.pool_, e.2 = i → refers m.heap q e = false := by
          intro e he heq
          rw [← Bool.not_eq_true]
          exact fun href => clear_loop_gone m.pool_ h.nodup hloop e he href (heq ▸ hlive)
        unfold Live at hlive
        rw [clear_loop_get m.pool_ h.nodup hloop i hno] at hlive
        obtain ⟨e, he, rfl⟩ := List.mem_map.mp ((h.live i).mpr hlive)
        rw [hpool]
        exact List.mem_map_of_mem (List.mem_filter.mpr ⟨he, by rw [hno e he rfl]; rfl⟩)

/-- The references are gone, the count is not. -/
theorem refs_clear_reference (h : Sound m)
    (hloop : clear_loop q m.heap m.pool_ = some (m'.heap, m'.pool_)) : refs m' q = 0 := by
  unfold refs
  rw [List.countP_eq_zero]
  intro e he href
  obtain ⟨_, hno, hget⟩ := clear_loop_kept h hloop e he
  unfold refers at href hno
  rw [hget, hno] at href
  exact absurd href (by simp)

theorem exact_clear_reference (h : Sound m) (hexact : Exact m)
    (hstep : clear_reference_connections m q = some m') :
    Exact m' ↔ refs m q = 0 ∨ (m.queues q).mailer_ = false := by
  have hcount := hexact q
  cases clear_reference_cases hstep with
  | inl hsame =>
      obtain ⟨rfl, hidle⟩ := hsame
      refine iff_of_true hexact ?_
      cases hm : (m'.queues q).mailer_ with
      | false => exact Or.inr rfl
      | true =>
          have hle : ¬ (m'.queues q).n_ref_conn_ > 0 := fun hpos => hidle ⟨hpos, hm⟩
          left
          omega
  | inr hcleared =>
      obtain ⟨hpos, hmailer, hloop, hqueues⟩ := hcleared
      refine iff_of_false ?_ ?_
      · intro hexact'
        have hcount' := hexact' q
        rw [hqueues, refs_clear_reference h hloop] at hcount'
        omega
      · rw [hmailer]
        simp
        omega

end ClearReference

/-! ## §3. Runs. -/

/-- **The connections in the pool are those that are alive.** -/
theorem sound_step (m : Mailer) (op : Op) (m' : Mailer) (h : Sound m) (hstep : step m op = some m') :
    Sound m' := by
  cases op with
  | create key queue => exact Option.some.inj hstep ▸ sound_create h key queue
  | destroy conn => exact sound_destroy h hstep
  | clear_all => exact sound_clear_all h hstep
  | clear_reference q => exact sound_clear_reference h hstep

/-- Nothing is cleared that a queue counts. -/
def Uncounted (m : Mailer) : Op → Prop
  | .create _ _ => True
  | .destroy _ => True
  | .clear_all => ∀ q, refs m q = 0
  | .clear_reference q => refs m q = 0 ∨ (m.queues q).mailer_ = false

/-- **Which steps keep the counts exact.** -/
theorem exact_step (m : Mailer) (op : Op) (m' : Mailer) (h : Sound m) (hexact : Exact m)
    (hstep : step m op = some m') : Exact m' ↔ Uncounted m op := by
  cases op with
  | create key queue =>
      exact iff_of_true (Option.some.inj hstep ▸ exact_create h hexact key queue) trivial
  | destroy conn => exact iff_of_true (exact_destroy h hexact hstep) trivial
  | clear_all => exact exact_clear_all hexact hstep
  | clear_reference q => exact exact_clear_reference h hexact hstep

theorem sound_start (mailer : Nat → Bool) : Sound (start mailer) := by
  refine ⟨List.nodup_nil, ?_⟩
  intro i
  refine iff_of_false List.not_mem_nil ?_
  intro hlive
  exact absurd hlive.lt (Nat.not_lt_zero i)

/-- **In which runs the counts are exact.**  For every run of the four operations on a
    mailer and its queues: each queue counts its connections in the pool all along
    exactly when nothing is cleared that a queue counts. -/
theorem counts_exact_iff (mailer : Nat → Bool) (ops : List Op) :
    Always step (start mailer) Exact ops ↔ Meets step (start mailer) Uncounted ops := by
  apply always_iff_meets (fun m => Sound m ∧ Exact m)
  · exact ⟨sound_start mailer, fun _ => rfl⟩
  · exact fun m h => h.2
  · intro m op m' h hstep hop
    exact ⟨sound_step m op m' h.1 hstep, (exact_step m op m' h.1 h.2 hstep).mpr hop⟩
  · intro m op m' h hstep hop hexact
    exact hop ((exact_step m op m' h.1 h.2 hstep).mp hexact)

/-- One connection for a queue, and all are cleared: the queue still counts one. -/
theorem counts_not_exact :
    ¬ Always step (start fun _ => true) Exact [.create [49] (some 0), .clear_all] := by
  intro halways
  have hexact := halways _ List.prefix_rfl _ rfl 0
  exact absurd hexact (by decide)

end Aos.SMTP_Mailer
