/-
  Aos.Net.TcpServer — the connection objects of `TCP_Server`.

  A connection is made for the next `accept()`, moves to the pool when it is
  accepted, and from there to the connections kept for reuse, or is freed.  A
  pointer to a connection that is gone has no meaning: what would follow one
  gives `none`, and so does a null pointer that is followed.

  Main results:
    • `sound_step` — a connection that is alive stays in one place, once;
    • `connections_owned` — so it is in every run from a started server.
-/
import Aos.Byte
import Aos.Lib.Heap
import Aos.Lib.Multimap
import Aos.Lib.Runs

namespace Aos

open Lib.Heap Lib.Suffixes Lib.Runs

/-! ## §1. The server. -/

/-- The server and the connections there are; of a connection nothing is read. -/
structure TCP_Server where
  heap : Cells Unit
  /-- the connection waiting for `accept()`, null for none -/
  conn_ : Option Nat
  /-- `std::multimap`, in the order of its keys -/
  pool_ : List (Bytes × Nat)
  /-- `std::vector` -/
  reuse_ : List Nat
  n_max_conn_ : Int
  n_max_reuse_ : Nat
  is_running_ : Bool
  deriving Repr, DecidableEq

namespace TCP_Server

/-- `*conn`, which must be there. -/
def follow (s : TCP_Server) (conn : Option Nat) : Option Nat :=
  conn.bind fun c => (get s.heap c).map fun _ => c

/-- `on_create_connection(conn, remote_endpoint)` -/
def on_create_connection (s : TCP_Server) (conn : Nat) (remote : Bytes) : TCP_Server :=
  { s with pool_ := Lib.Multimap.insert s.pool_ remote conn }

/-- `on_destroy_connection(conn)` -/
def on_destroy_connection (s : TCP_Server) (conn : Nat) : TCP_Server :=
  { s with pool_ := Lib.Multimap.eraseValue s.pool_ conn }

/-- `create_connection()`; `make_connection` finds the memory for one. -/
def create_connection (s : TCP_Server) : Option (Nat × TCP_Server) :=
  match s.reuse_.getLast? with
  | some conn =>
      -- the socket of the connection is reset
      (s.follow conn).map fun conn => (conn, { s with reuse_ := s.reuse_.dropLast })
  | none => some (s.heap.length, { s with heap := alloc s.heap () })

/-- `destroy_connection(conn)` -/
def destroy_connection (s : TCP_Server) (conn : Nat) : Option TCP_Server :=
  (s.follow conn).map fun conn =>
    let s := s.on_destroy_connection conn
    if s.reuse_.length < s.n_max_reuse_ then { s with reuse_ := s.reuse_ ++ [conn] }
    else { s with heap := free s.heap conn }

/-- `if ( conn_ ) { delete conn_; conn_ = 0; }` -/
def delete_conn (s : TCP_Server) : Option TCP_Server :=
  match s.conn_ with
  | none => some s
  | some conn =>
      (s.follow conn).map fun conn => { s with heap := free s.heap conn, conn_ := none }

/-- `conn_ = this->create_connection()`, and the next `accept()` begins. -/
def prepare (s : TCP_Server) : Option TCP_Server :=
  s.create_connection.map fun r => { r.2 with conn_ := some r.1 }

/-- `handle_accept(error)`, `remote` being the address of the peer. -/
def handle_accept (s : TCP_Server) (error : Bool) (remote : Bytes) : Option TCP_Server :=
  if ¬ error then
    if s.n_max_conn_ = 0 ∨ (s.pool_.length : Int) < s.n_max_conn_ then
      ((s.follow s.conn_).map fun conn => s.on_create_connection conn remote).bind prepare
    else s.delete_conn.bind prepare
  else if s.is_running_ then s.delete_conn.bind prepare
  else some s

/-- `max_reuse_connection(n)` -/
def max_reuse_connection (s : TCP_Server) (n : Nat) : TCP_Server := { s with n_max_reuse_ := n }

/-- `start` from where the acceptor listens; `activated` says whether there are threads. -/
def start (s : TCP_Server) (activated : Bool) : Option TCP_Server :=
  s.prepare.map fun s => if activated then { s with is_running_ := true } else s

/-- The end of `stop`, when all handlers have run. -/
def stop (s : TCP_Server) : Option TCP_Server := { s with is_running_ := false }.delete_conn

/-- `TCP_Server()` -/
def new : TCP_Server := ⟨[], none, [], [], 0, 0, false⟩

inductive Op
  | handle_accept (error : Bool) (remote : Bytes)
  | destroy_connection (conn : Nat)
  | max_reuse_connection (n : Nat)
  /-- `start` and `stop` set `is_running_` while handlers run -/
  | running (b : Bool)
  deriving Repr, DecidableEq

def step (s : TCP_Server) : Op → Option TCP_Server
  | .handle_accept error remote => s.handle_accept error remote
  | .destroy_connection conn => s.destroy_connection conn
  | .max_reuse_connection n => some (s.max_reuse_connection n)
  | .running b => some { s with is_running_ := b }

/-- Only a connection in the pool destroys itself. -/
def Allowed (s : TCP_Server) : Op → Prop
  | .destroy_connection conn => conn ∈ s.pool_.map Prod.snd
  | _ => True

instance (s : TCP_Server) (op : Op) : Decidable (Allowed s op) :=
  match op with
  | .destroy_connection conn => inferInstanceAs (Decidable (conn ∈ s.pool_.map Prod.snd))
  | .handle_accept _ _ => instDecidableTrue
  | .max_reuse_connection _ => instDecidableTrue
  | .running _ => instDecidableTrue

/-- A step that the server's callers take. -/
def next (s : TCP_Server) (op : Op) : Option TCP_Server := if Allowed s op then step s op else none

/-! ## §2. Where the connections are. -/

/-- Every pointer to a connection that the server keeps. -/
def held (s : TCP_Server) : List Nat := s.conn_.toList ++ (s.pool_.map Prod.snd ++ s.reuse_)

/-- Every connection that is alive is in one place, once; one that is not is in none. -/
structure Owned (s : TCP_Server) : Prop where
  nodup : s.held.Nodup
  live : ∀ i, i ∈ s.held ↔ Live s.heap i

/-- Neither accepting nor serving: what connections there are wait for reuse. -/
structure Stopped (s : TCP_Server) : Prop extends Owned s where
  conn_ : s.conn_ = none
  pool_ : s.pool_ = []

/-- The pool is no longer than a limit that is set. -/
def Limited (s : TCP_Server) : Prop := 0 < s.n_max_conn_ → (s.pool_.length : Int) ≤ s.n_max_conn_

/-- What holds between two handlers of a started server. -/
structure Sound (s : TCP_Server) : Prop extends Owned s where
  conn_ : s.conn_ ≠ none
  limited : s.Limited

section Owned

variable {s s' : TCP_Server} {conn : Nat}

theorem Owned.moved (h : Owned s) (hheap : s'.heap = s.heap) (hheld : s'.held.Perm s.held) :
    Owned s' := by
  refine ⟨hheld.nodup_iff.mpr h.nodup, fun i => ?_⟩
  rw [hheld.mem_iff, h.live, hheap]

theorem Owned.freed (h : Owned s) (hheap : s'.heap = free s.heap conn)
    (hheld : s.held.Perm (conn :: s'.held)) : Owned s' := by
  have hnodup := hheld.nodup_iff.mp h.nodup
  rw [List.nodup_cons] at hnodup
  refine ⟨hnodup.2, fun i => ?_⟩
  rw [hheap, live_free, ← h.live, hheld.mem_iff, List.mem_cons]
  constructor
  · intro hi
    refine ⟨Or.inr hi, ?_⟩
    intro heq
    exact hnodup.1 (heq ▸ hi)
  · intro hi
    exact hi.1.resolve_left hi.2

theorem Owned.made (h : Owned s) (hheap : s'.heap = alloc s.heap ())
    (hheld : s'.held.Perm (s.heap.length :: s.held)) : Owned s' := by
  refine ⟨?_, fun i => ?_⟩
  · rw [hheld.nodup_iff, List.nodup_cons]
    refine ⟨?_, h.nodup⟩
    intro hmem
    exact absurd ((h.live _).mp hmem).lt (lt_irrefl _)
  · rw [hheld.mem_iff, List.mem_cons, h.live, hheap, live_alloc]

theorem Owned.follow (h : Owned s) (hmem : conn ∈ s.held) : s.follow (some conn) = some conn := by
  obtain ⟨c, hc⟩ := (h.live conn).mp hmem
  show (get s.heap conn).map _ = _
  rw [hc]
  rfl

/-! ### What the handlers are made of. -/

theorem owned_delete_conn (h : Owned s) :
    ∃ s', s.delete_conn = some s' ∧ Owned s' ∧ s'.conn_ = none ∧ s'.pool_ = s.pool_ ∧
      s'.n_max_conn_ = s.n_max_conn_ := by
  unfold delete_conn
  cases hconn : s.conn_ with
  | none => exact ⟨s, rfl, h, hconn, rfl, rfl⟩
  | some conn =>
      have hheld : s.held = conn :: (s.pool_.map Prod.snd ++ s.reuse_) := by
        unfold held
        rw [hconn]
        rfl
      have hfollow : s.follow (some conn) = some conn :=
        h.follow (hheld ▸ List.mem_cons_self)
      refine ⟨{ s with heap := free s.heap conn, conn_ := none }, ?_, ?_, rfl, rfl, rfl⟩
      · simp only [hfollow, Option.map_some]
      · exact h.freed rfl (List.Perm.of_eq hheld)

/-- The next connection is one that was kept, or a new one. -/
theorem owned_prepare (h : Owned { s with conn_ := none }) :
    ∃ s', s.prepare = some s' ∧ Owned s' ∧ s'.conn_ ≠ none ∧ s'.pool_ = s.pool_ ∧
      s'.n_max_conn_ = s.n_max_conn_ := by
  unfold prepare create_connection
  cases hlast : s.reuse_.getLast? with
  | none =>
      refine ⟨_, rfl, h.made rfl (List.Perm.refl _), ?_, rfl, rfl⟩
      exact Option.some_ne_none _
  | some conn =>
      have hsplit : s.reuse_ = s.reuse_.dropLast ++ [conn] :=
        (List.dropLast_append_getLast? conn hlast).symm
      have hmem : conn ∈ { s with conn_ := none }.held := by
        show conn ∈ s.pool_.map Prod.snd ++ s.reuse_
        rw [hsplit]
        simp
      have hfollow : s.follow (some conn) = some conn := h.follow hmem
      simp only [hfollow, Option.map_some]
      refine ⟨_, rfl, h.moved rfl ?_, Option.some_ne_none _, rfl, rfl⟩
      -- it was the last of those that were kept
      show (conn :: (s.pool_.map Prod.snd ++ s.reuse_.dropLast)).Perm
        (s.pool_.map Prod.snd ++ s.reuse_)
      conv_rhs => rw [hsplit, ← List.append_assoc]
      exact (List.perm_append_singleton _ _).symm

/-- The connection that was accepted moves to the pool. -/
theorem owned_accept (h : Owned s) (hconn : s.conn_ = some conn) (remote : Bytes) :
    Owned { s.on_create_connection conn remote with conn_ := none } := by
  refine h.moved rfl ?_
  show ((Lib.Multimap.insert s.pool_ remote conn).map Prod.snd ++ s.reuse_).Perm s.held
  have hheld : s.held = conn :: s.pool_.map Prod.snd ++ s.reuse_ := by
    unfold held
    rw [hconn]
    rfl
  rw [hheld]
  exact (Lib.Multimap.insert_values s.pool_ remote conn).append_right _

/-- A connection of the pool is kept for reuse, or freed. -/
theorem owned_destroy (h : Owned s) (hpool : conn ∈ s.pool_.map Prod.snd) :
    ∃ s', s.destroy_connection conn = some s' ∧ Owned s' ∧ s'.conn_ = s.conn_ ∧
      s'.pool_.length < s.pool_.length ∧ s'.n_max_conn_ = s.n_max_conn_ ∧
      (conn ∈ s'.reuse_ → s'.reuse_.length ≤ s'.n_max_reuse_) := by
  have hmem : conn ∈ s.held := by
    unfold held
    simp only [List.mem_append, hpool, true_or, or_true]
  have hvalues := Lib.Multimap.eraseValue_values hpool
  have hshorter : (Lib.Multimap.eraseValue s.pool_ conn).length < s.pool_.length := by
    have hlen := hvalues.length_eq
    rw [List.length_cons, List.length_map, List.length_map] at hlen
    omega
  unfold destroy_connection
  rw [h.follow hmem, Option.map_some]
  simp only
  by_cases hroom : (s.on_destroy_connection conn).reuse_.length < (s.on_destroy_connection conn).n_max_reuse_
  · rw [if_pos hroom]
    refine ⟨_, rfl, h.moved rfl ?_, rfl, hshorter, rfl, fun _ => ?_⟩
    · show (s.conn_.toList ++ ((Lib.Multimap.eraseValue s.pool_ conn).map Prod.snd
          ++ (s.reuse_ ++ [conn]))).Perm (s.conn_.toList ++ (s.pool_.map Prod.snd ++ s.reuse_))
      refine List.Perm.append_left _ ?_
      rw [← List.append_assoc]
      exact (List.perm_append_singleton _ _).trans (hvalues.symm.append_right s.reuse_)
    · show (s.reuse_ ++ [conn]).length ≤ s.n_max_reuse_
      rw [List.length_append]
      exact hroom
  · rw [if_neg hroom]
    have hheld : s.held.Perm (conn :: (s.on_destroy_connection conn).held) :=
      ((hvalues.append_right s.reuse_).append_left _).trans List.perm_middle
    refine ⟨_, rfl, h.freed rfl hheld, rfl, hshorter, rfl, ?_⟩
    intro hkept
    -- one that is freed was in the pool, and so not among those that are kept
    have hnodup := (List.nodup_append.mp h.nodup).2.1
    exact absurd rfl ((List.nodup_append.mp hnodup).2.2 conn hpool conn hkept)

end Owned

/-! ## §3. A step. -/

section Step

variable {s s' : TCP_Server}

theorem sound_prepare (h : Owned { s with conn_ := none }) (hlimit : Limited s) :
    ∃ s', s.prepare = some s' ∧ Sound s' ∧ s'.n_max_conn_ = s.n_max_conn_ := by
  obtain ⟨s', hs', howned, hconn, hpool, hmax⟩ := owned_prepare h
  refine ⟨s', hs', ⟨howned, hconn, ?_⟩, hmax⟩
  unfold Limited at hlimit ⊢
  rw [hpool, hmax]
  exact hlimit

/-- The connection waiting for `accept()` is given up, and another one waits. -/
theorem sound_refuse (h : Owned s) (hlimit : Limited s) :
    ∃ s', s.delete_conn.bind prepare = some s' ∧ Sound s' ∧ s'.n_max_conn_ = s.n_max_conn_ := by
  obtain ⟨s₁, hs₁, howned, hconn, hpool, hmax⟩ := owned_delete_conn h
  have hnone : Owned { s₁ with conn_ := none } := howned.moved rfl (by rw [← hconn])
  have hlimit₁ : Limited s₁ := by
    unfold Limited at hlimit ⊢
    rw [hpool, hmax]
    exact hlimit
  obtain ⟨s', hs', hsound, hmax'⟩ := sound_prepare hnone hlimit₁
  refine ⟨s', ?_, hsound, hmax'.trans hmax⟩
  rw [hs₁]
  exact hs'

theorem sound_accept (h : Sound s)
    (hroom : s.n_max_conn_ = 0 ∨ (s.pool_.length : Int) < s.n_max_conn_) (remote : Bytes) :
    ∃ s', ((s.follow s.conn_).map fun conn => s.on_create_connection conn remote).bind prepare
        = some s' ∧ Sound s' ∧ s'.n_max_conn_ = s.n_max_conn_ := by
  obtain ⟨conn, hconn⟩ := Option.ne_none_iff_exists'.mp h.conn_
  have hmem : conn ∈ s.held := by
    unfold held
    rw [hconn]
    exact List.mem_append_left _ (List.mem_singleton_self conn)
  have hlimit : Limited (s.on_create_connection conn remote) := by
    intro hpos
    have hlen := (Lib.Multimap.insert_perm s.pool_ remote conn).length_eq
    show ((Lib.Multimap.insert s.pool_ remote conn).length : Int) ≤ s.n_max_conn_
    change 0 < s.n_max_conn_ at hpos
    rw [hlen, List.length_cons]
    omega
  obtain ⟨s', hs', hsound, hmax⟩ := sound_prepare (owned_accept h.toOwned hconn remote) hlimit
  refine ⟨s', ?_, hsound, hmax⟩
  rw [hconn, h.toOwned.follow hmem]
  exact hs'

/-- **A step keeps every connection in its one place**, and is never undefined. -/
theorem sound_step (h : Sound s) (op : Op) (hop : Allowed s op) :
    ∃ s', step s op = some s' ∧ Sound s' ∧ s'.n_max_conn_ = s.n_max_conn_ := by
  cases op with
  | handle_accept error remote =>
      show ∃ s', handle_accept s error remote = some s' ∧ _
      unfold handle_accept
      split_ifs with herror hrunning hroom
      · exact sound_refuse h.toOwned h.limited
      · exact ⟨s, rfl, h, rfl⟩
      · exact sound_accept h hroom remote
      · exact sound_refuse h.toOwned h.limited
  | destroy_connection conn =>
      obtain ⟨s', hs', howned, hconn, hpool, hmax, _⟩ := owned_destroy h.toOwned hop
      refine ⟨s', hs', ⟨howned, hconn ▸ h.conn_, ?_⟩, hmax⟩
      intro hpos
      have hlimit := h.limited (hmax ▸ hpos)
      omega
  | max_reuse_connection n =>
      exact ⟨_, rfl, ⟨h.toOwned.moved rfl (List.Perm.refl _), h.conn_, h.limited⟩, rfl⟩
  | running b =>
      exact ⟨_, rfl, ⟨h.toOwned.moved rfl (List.Perm.refl _), h.conn_, h.limited⟩, rfl⟩

/-! ### The ends of a run. -/

theorem stopped_new : Stopped new := by
  refine ⟨⟨List.nodup_nil, fun i => ?_⟩, rfl, rfl⟩
  refine iff_of_false List.not_mem_nil ?_
  intro hlive
  exact absurd hlive.lt (Nat.not_lt_zero i)

/-- A stopped server may be started. -/
theorem sound_start (h : Stopped s) (activated : Bool) :
    ∃ s', s.start activated = some s' ∧ Sound s' := by
  have hnone : Owned { s with conn_ := none } := h.toOwned.moved rfl (by rw [← h.conn_])
  have hlimit : Limited s := by
    intro hpos
    rw [h.pool_]
    exact hpos.le
  obtain ⟨s', hs', hsound, _⟩ := sound_prepare hnone hlimit
  unfold start
  rw [hs']
  refine ⟨_, rfl, ?_⟩
  split_ifs
  · exact ⟨hsound.toOwned.moved rfl (List.Perm.refl _), hsound.conn_, hsound.limited⟩
  · exact hsound

/-- A server whose pool is empty stops. -/
theorem stopped_stop (h : Sound s) (hpool : s.pool_ = []) : ∃ s', s.stop = some s' ∧ Stopped s' := by
  have howned : Owned { s with is_running_ := false } := h.toOwned.moved rfl (List.Perm.refl _)
  obtain ⟨s', hs', howned', hconn, hpool', _⟩ := owned_delete_conn howned
  exact ⟨s', hs', howned', hconn, hpool'.trans hpool⟩

end Step

/-! ## §4. A run. -/

/-- What a started server promises of its connections. -/
structure Correct (limit : Int) (s : TCP_Server) : Prop where
  /-- a connection that is alive is in exactly one place -/
  once : ∀ i, Live s.heap i → s.held.count i = 1
  /-- one that was freed, or never made, is in none -/
  gone : ∀ i, ¬ Live s.heap i → i ∉ s.held
  limited : 0 < limit → (s.pool_.length : Int) ≤ limit
  /-- no handler follows a pointer to a connection that is gone -/
  defined : ∀ op, Allowed s op → ∃ s', step s op = some s'
  kept : ∀ conn s', conn ∈ s.pool_.map Prod.snd → s.destroy_connection conn = some s' →
    conn ∈ s'.reuse_ → s'.reuse_.length ≤ s'.n_max_reuse_

theorem Sound.correct {s : TCP_Server} (h : Sound s) : Correct s.n_max_conn_ s := by
  refine ⟨?_, ?_, h.limited, ?_, ?_⟩
  · intro i hi
    exact List.count_eq_one_of_mem h.nodup ((h.live i).mpr hi)
  · intro i hi hmem
    exact hi ((h.live i).mp hmem)
  · intro op hop
    obtain ⟨s', hs', _⟩ := sound_step h op hop
    exact ⟨s', hs'⟩
  · intro conn s' hpool hs' hkept
    obtain ⟨s₁, hs₁, _, _, _, _, hreuse⟩ := owned_destroy h.toOwned hpool
    obtain rfl : s₁ = s' := Option.some.inj (hs₁.symm.trans hs')
    exact hreuse hkept

theorem sound_run {s : TCP_Server} (h : Sound s) (ops : List Op) :
    Always next s (fun s' => Sound s' ∧ s'.n_max_conn_ = s.n_max_conn_) ops := by
  refine always_of_step _ ⟨h, rfl⟩ ?_ ops
  intro s₁ op s₂ hinv hstep
  unfold next at hstep
  split_ifs at hstep with hop
  obtain ⟨s', hs', hsound, hmax⟩ := sound_step hinv.1 op hop
  obtain rfl : s' = s₂ := Option.some.inj (hs'.symm.trans hstep)
  exact ⟨hsound, hmax.trans hinv.2⟩

/-- **Connection ownership**: in every run from a started server, every connection
    made and not yet freed is in exactly one of `conn_`, `pool_` and `reuse_`, a
    freed one in none; the pool keeps within a limit that is set, and a connection
    that is kept for reuse finds room. -/
theorem connections_owned {s₀ s₁ : TCP_Server} {activated : Bool} (hstopped : Stopped s₀)
    (hstart : s₀.start activated = some s₁) (ops : List Op) :
    Always next s₁ (Correct s₁.n_max_conn_) ops := by
  obtain ⟨s, hs, hsound⟩ := sound_start hstopped activated
  obtain rfl : s = s₁ := Option.some.inj (hs.symm.trans hstart)
  intro pre hpre s' hs'
  obtain ⟨hsound', hmax⟩ := sound_run hsound ops pre hpre s' hs'
  rw [← hmax]
  exact hsound'.correct

/-- A server with room for one, and two connections accepted. -/
theorem connections_owned_two :
    Always next ⟨[some ()], some 0, [], [], 1, 1, true⟩ (Correct 1)
      [.handle_accept false [49], .handle_accept false [50], .destroy_connection 0] :=
  @connections_owned ⟨[], none, [], [], 1, 1, false⟩ _ true
    ⟨⟨List.nodup_nil, fun i => iff_of_false List.not_mem_nil fun h =>
      absurd h.lt (Nat.not_lt_zero i)⟩, rfl, rfl⟩ rfl _

end TCP_Server

end Aos
