/-
  Aos.Net.TcpClient — the connection objects of `TCP_Client`, and who may have one.

  Several threads call `connect`.  The limit is read, the pool is measured and a
  connection is put into it under no common lock, so that other threads and the
  handlers run in between; `destroy_connection` takes its two locks one after the
  other as well.

  Main results:
    • `owned_step` — whatever the order, every connection that is alive is in one
      place, and no dangling pointer is followed;
    • `connections_kept` — so it is all along every run;
    • `pool_greatest` — n threads take the pool n - 1 connections over its limit, and
      never further.
-/
import Aos.Byte
import Aos.Lib.Multimap
import Aos.Lib.Ownership
import Aos.Lib.Runs

namespace Aos

open Lib.Heap Lib.Ownership Lib.Suffixes Lib.Runs

/-! ## §1. The client. -/

/-- Where a thread is in `connect`. -/
inductive TCP_Client.Caller
  | idle
  /-- it has read the limit -/
  | limited (max_conn : Int)
  /-- the pool is not full -/
  | checked
  | created (conn : Nat)
  /-- in `conn->connect(..)` -/
  | connecting (conn : Nat)
  deriving Repr, DecidableEq

structure TCP_Client where
  heap : Cells Unit
  callers : List TCP_Client.Caller
  /-- `std::multimap`, in the order of its keys -/
  pool_ : List (Bytes × Nat)
  n_max_conn_ : Int
  /-- between the two halves of `destroy_connection` -/
  destroying : List Nat
  /-- `std::vector` -/
  reuse_ : List Nat
  n_max_reuse_ : Nat
  deriving Repr, DecidableEq

namespace TCP_Client

/-- `TCP_Client()`, and `n` threads that are going to call it. -/
def new (n : Nat) (n_max_conn : Int) : TCP_Client :=
  ⟨[], List.replicate n .idle, [], n_max_conn, [], [], 0⟩

def seat (s : TCP_Client) (i : Nat) (c : Caller) : TCP_Client :=
  { s with callers := s.callers.set i c }

/-- `on_create_connection(conn, remote_endpoint)` -/
def on_create_connection (s : TCP_Client) (conn : Nat) (remote : Bytes) : TCP_Client :=
  { s with pool_ := Lib.Multimap.insert s.pool_ remote conn }

/-- `on_destroy_connection(conn)` -/
def on_destroy_connection (s : TCP_Client) (conn : Nat) : TCP_Client :=
  { s with pool_ := Lib.Multimap.eraseValue s.pool_ conn }

/-- `*conn`, which must be there. -/
def follow (s : TCP_Client) (conn : Nat) : Option Nat := (get s.heap conn).map fun _ => conn

/-- `create_connection()`, where a null pointer is `none`; `memory` says whether there is any. -/
def create_connection (s : TCP_Client) (memory : Bool) : Option (Option Nat × TCP_Client) :=
  match s.reuse_.getLast? with
  | some conn =>
      -- the socket of the connection is reset
      (s.follow conn).map fun conn => (some conn, { s with reuse_ := s.reuse_.dropLast })
  | none =>
      some (if memory then (some s.heap.length, { s with heap := alloc s.heap () }) else (none, s))

/-- `destroy_connection(conn)`, from `reuse_lock_` on. -/
def recycle (s : TCP_Client) (conn : Nat) : Option TCP_Client :=
  if s.reuse_.length < s.n_max_reuse_ then some { s with reuse_ := s.reuse_ ++ [conn] }
  else (delete s.heap conn).map fun heap => { s with heap := heap }

/-- `clear_all_reuse_connections()` -/
def clear_all_reuse_connections (s : TCP_Client) : Option TCP_Client :=
  (s.reuse_.foldlM delete s.heap).map fun heap => { s with heap := heap, reuse_ := [] }

/-- Who does something next. -/
inductive Event
  /-- a thread, which goes on in `connect` -/
  | connect (i : Nat) (memory : Bool) (remote : Bytes)
  /-- the last handler of a connection calls `destroy_connection` -/
  | remove (conn : Nat)
  | recycle (conn : Nat)
  | max_connection (n_max_conn : Int)
  | max_reuse_connection (n_max_reuse : Nat)
  | clear_all_reuse_connections
  deriving Repr, DecidableEq

/-- What a thread does next; where nothing is created `connect` fails. -/
def advance (s : TCP_Client) (i : Nat) (memory : Bool) (remote : Bytes) :
    Caller → Option TCP_Client
  | .idle => some (s.seat i (.limited s.n_max_conn_))
  | .limited max_conn =>
      some (s.seat i
        (if max_conn ≠ 0 ∧ (s.pool_.length : Int) ≥ max_conn then .idle else .checked))
  | .checked =>
      (s.create_connection memory).map fun r =>
        r.2.seat i (match r.1 with
          | some conn => .created conn
          | none => .idle)
  | .created conn =>
      (s.follow conn).map fun conn => (s.on_create_connection conn remote).seat i (.connecting conn)
  | .connecting conn => (s.follow conn).map fun _ => s.seat i .idle

/-- There is no next state where a pointer dangles. -/
def step (s : TCP_Client) : Event → Option TCP_Client
  | .connect i memory remote => (s.callers[i]?).bind (s.advance i memory remote)
  | .remove conn =>
      (s.follow conn).map fun conn =>
        { s.on_destroy_connection conn with destroying := conn :: s.destroying }
  | .recycle conn => { s with destroying := s.destroying.erase conn }.recycle conn
  | .max_connection n_max_conn => some { s with n_max_conn_ := n_max_conn }
  | .max_reuse_connection n_max_reuse => some { s with n_max_reuse_ := n_max_reuse }
  | .clear_all_reuse_connections => s.clear_all_reuse_connections

/-- A connection is destroyed by its last handler, once, and not before `conn->connect(..)`
    has begun the first and returned. -/
def Allowed (s : TCP_Client) : Event → Prop
  | .connect i _ _ => i < s.callers.length
  | .remove conn => conn ∈ s.pool_.map Prod.snd ∧ .connecting conn ∉ s.callers
  | .recycle conn => conn ∈ s.destroying
  | _ => True

instance (s : TCP_Client) (e : Event) : Decidable (Allowed s e) :=
  match e with
  | .connect i _ _ => inferInstanceAs (Decidable (i < s.callers.length))
  | .remove conn =>
      inferInstanceAs (Decidable (conn ∈ s.pool_.map Prod.snd ∧ .connecting conn ∉ s.callers))
  | .recycle conn => inferInstanceAs (Decidable (conn ∈ s.destroying))
  | .max_connection _ => instDecidableTrue
  | .max_reuse_connection _ => instDecidableTrue
  | .clear_all_reuse_connections => instDecidableTrue

def next (s : TCP_Client) (e : Event) : Option TCP_Client := if Allowed s e then step s e else none

/-! ## §2. Where the connections are. -/

/-- The connection that only the thread knows. -/
def Caller.conns : Caller → List Nat
  | .created conn => [conn]
  | _ => []

/-- Every pointer to a connection that is kept. -/
def held (s : TCP_Client) : List Nat :=
  s.callers.flatMap Caller.conns ++ (s.pool_.map Prod.snd ++ (s.destroying ++ s.reuse_))

structure Sound (s : TCP_Client) : Prop where
  owned : Owned s.heap s.held
  connecting : ∀ conn, .connecting conn ∈ s.callers → conn ∈ s.pool_.map Prod.snd

section Sound

variable {s s' : TCP_Client} {i conn : Nat}

theorem Sound.follow (h : Sound s) (hmem : conn ∈ s.held) : s.follow conn = some conn := by
  obtain ⟨c, hc⟩ := h.owned.get hmem
  show (get s.heap conn).map _ = _
  rw [hc]
  rfl

/-- The connections, with those of one thread first. -/
theorem held_perm {c : Caller} (hi : s.callers[i]? = some c) :
    s.held.Perm (c.conns ++ ((s.callers.eraseIdx i).flatMap Caller.conns ++
      (s.pool_.map Prod.snd ++ (s.destroying ++ s.reuse_)))) := by
  rw [← List.append_assoc]
  exact (seats_perm Caller.conns hi).append_right _

theorem held_seat {c : Caller} (hi : s.callers[i]? = some c) (d : Caller) :
    (s.seat i d).held.Perm (d.conns ++ ((s.callers.eraseIdx i).flatMap Caller.conns ++
      (s.pool_.map Prod.snd ++ (s.destroying ++ s.reuse_)))) := by
  rw [← List.append_assoc]
  exact (seats_set Caller.conns hi d).append_right _

/-- Another thread's connection stays in the pool. -/
theorem connecting_seat (h : Sound s) {d : Caller} (hd : ∀ conn, d ≠ .connecting conn) :
    ∀ conn, .connecting conn ∈ (s.seat i d).callers → conn ∈ s.pool_.map Prod.snd := by
  intro conn hconn
  cases List.mem_or_eq_of_mem_set hconn with
  | inl hold => exact h.connecting conn hold
  | inr hnew => exact absurd hnew.symm (hd conn)

/-- The thread goes on, and has what it had. -/
theorem sound_seat (h : Sound s) {c d : Caller} (hi : s.callers[i]? = some c)
    (hconns : d.conns = c.conns) (hd : ∀ conn, d ≠ .connecting conn) : Sound (s.seat i d) := by
  refine ⟨h.owned.perm ?_, connecting_seat h hd⟩
  refine (held_seat hi d).trans ?_
  rw [hconns]
  exact (held_perm hi).symm

/-- It gets a connection that was kept, or a new one. -/
theorem sound_create (h : Sound s) (hi : s.callers[i]? = some .checked) (memory : Bool) :
    ∃ s', s.advance i memory [] .checked = some s' ∧ Sound s' := by
  show ∃ s', (s.create_connection memory).map _ = some s' ∧ Sound s'
  unfold create_connection
  cases hlast : s.reuse_.getLast? with
  | none =>
      cases memory with
      | false => exact ⟨_, rfl, sound_seat h hi rfl (fun _ => Caller.noConfusion)⟩
      | true =>
          refine ⟨_, rfl, ⟨(h.owned.alloc ()).perm ?_, ?_⟩⟩
          · exact (held_seat hi _).trans ((held_perm hi).symm.cons _)
          · exact connecting_seat h (fun _ => Caller.noConfusion)
  | some conn =>
      have hsplit : s.reuse_ = s.reuse_.dropLast ++ [conn] :=
        (List.dropLast_append_getLast? conn hlast).symm
      have hmem : conn ∈ s.held := by
        unfold held
        rw [hsplit]
        simp
      simp only [h.follow hmem, Option.map_some]
      refine ⟨_, rfl, ⟨h.owned.perm ?_, ?_⟩⟩
      · -- it was the last of those that were kept
        have hheld := held_seat (s := { s with reuse_ := s.reuse_.dropLast }) hi (.created conn)
        refine hheld.trans (List.Perm.trans ?_ (held_perm hi).symm)
        show (conn :: _).Perm _
        conv_rhs => rw [hsplit]
        simp only [Caller.conns, List.nil_append, ← List.append_assoc]
        exact (List.perm_append_singleton _ _).symm
      · exact connecting_seat h (fun _ => Caller.noConfusion)

/-- Its connection gets into the pool. -/
theorem sound_insert (h : Sound s) (hi : s.callers[i]? = some (.created conn)) (remote : Bytes) :
    Sound ((s.on_create_connection conn remote).seat i (.connecting conn)) := by
  have hvalues := Lib.Multimap.insert_values s.pool_ remote conn
  refine ⟨h.owned.perm ?_, ?_⟩
  · refine (held_seat (s := s.on_create_connection conn remote) hi _).trans ?_
    refine List.Perm.trans ?_ (held_perm hi).symm
    exact ((hvalues.append_right _).append_left _).trans List.perm_middle
  · intro other hother
    refine hvalues.mem_iff.mpr (List.mem_cons.mpr ?_)
    cases List.mem_or_eq_of_mem_set hother with
    | inl hold => exact Or.inr (h.connecting other hold)
    | inr hnew => exact Or.inl (Caller.connecting.inj hnew)

theorem mem_held_of_pool (hpool : conn ∈ s.pool_.map Prod.snd) : conn ∈ s.held := by
  unfold held
  simp only [List.mem_append, hpool, true_or, or_true]

/-- **A thread goes on in `connect`.** -/
theorem sound_advance (h : Sound s) {c : Caller} (hi : s.callers[i]? = some c) (memory : Bool)
    (remote : Bytes) : ∃ s', s.advance i memory remote c = some s' ∧ Sound s' := by
  cases c with
  | idle => exact ⟨_, rfl, sound_seat h hi rfl (fun _ => Caller.noConfusion)⟩
  | limited max_conn =>
      refine ⟨_, rfl, ?_⟩
      split_ifs
      · exact sound_seat h hi rfl (fun _ => Caller.noConfusion)
      · exact sound_seat h hi rfl (fun _ => Caller.noConfusion)
  | checked => exact sound_create h hi memory
  | created conn =>
      have hmem : conn ∈ s.held := (held_perm hi).mem_iff.mpr List.mem_cons_self
      refine ⟨_, ?_, sound_insert h hi remote⟩
      show (s.follow conn).map _ = _
      rw [h.follow hmem]
      rfl
  | connecting conn =>
      have hpool := h.connecting conn (List.mem_of_getElem? hi)
      refine ⟨s.seat i .idle, ?_, sound_seat h hi rfl (fun _ => Caller.noConfusion)⟩
      show (s.follow conn).map _ = _
      rw [h.follow (mem_held_of_pool hpool)]
      rfl

/-! ### The end of a connection. -/

theorem sound_remove (h : Sound s) (hpool : conn ∈ s.pool_.map Prod.snd)
    (hidle : .connecting conn ∉ s.callers) :
    Sound { s.on_destroy_connection conn with destroying := conn :: s.destroying } := by
  have hvalues := Lib.Multimap.eraseValue_values hpool
  refine ⟨h.owned.perm (List.Perm.append_left _ ?_), ?_⟩
  · show ((Lib.Multimap.eraseValue s.pool_ conn).map Prod.snd ++ conn :: _).Perm _
    exact List.perm_middle.trans (hvalues.symm.append_right _)
  · intro other hother
    have hmem := hvalues.mem_iff.mp (h.connecting other hother)
    cases List.mem_cons.mp hmem with
    | inl heq => exact absurd (heq ▸ hother) hidle
    | inr hrest => exact hrest

/-- It is kept for reuse, or freed. -/
theorem sound_recycle (h : Sound s) (hconn : conn ∈ s.destroying) :
    ∃ s', step s (.recycle conn) = some s' ∧ Sound s' ∧
      (conn ∈ s'.reuse_ → s'.reuse_.length ≤ s'.n_max_reuse_) := by
  have herase := List.perm_cons_erase hconn
  show ∃ s', recycle { s with destroying := s.destroying.erase conn } conn = some s' ∧ _
  unfold recycle
  simp only
  split_ifs with hroom
  · refine ⟨_, rfl, ⟨h.owned.perm ?_, h.connecting⟩, fun _ => ?_⟩
    · refine List.Perm.append_left _ (List.Perm.append_left _ ?_)
      show (s.destroying.erase conn ++ (s.reuse_ ++ [conn])).Perm (s.destroying ++ s.reuse_)
      rw [← List.append_assoc]
      exact (List.perm_append_singleton _ _).trans (herase.symm.append_right _)
    · show (s.reuse_ ++ [conn]).length ≤ s.n_max_reuse_
      rw [List.length_append]
      exact hroom
  · have hheld : (conn :: { s with destroying := s.destroying.erase conn }.held).Perm s.held := by
      unfold held
      refine (List.perm_middle.symm.trans ?_)
      refine List.Perm.append_left _ (List.perm_middle.symm.trans ?_)
      exact (herase.symm.append_right _).append_left _
    obtain ⟨heap, hdelete, howned⟩ := (h.owned.perm hheld).delete
    rw [hdelete]
    refine ⟨_, rfl, ⟨howned, h.connecting⟩, ?_⟩
    intro hkept
    -- one that is freed is held no more
    have hnodup := (h.owned.perm hheld).nodup
    refine absurd ?_ (List.nodup_cons.mp hnodup).1
    unfold held
    change conn ∈ s.reuse_ at hkept
    simp only [List.mem_append, hkept, or_true]

theorem sound_clear (h : Sound s) :
    ∃ s', s.clear_all_reuse_connections = some s' ∧ Sound s' := by
  have hheld : (s.reuse_ ++ { s with reuse_ := [] }.held).Perm s.held := by
    refine List.perm_append_comm.trans ?_
    unfold held
    simp only [List.append_nil, List.append_assoc]
    exact List.Perm.refl _
  obtain ⟨heap, hall, howned⟩ := Owned.free_all s.reuse_ (h.owned.perm hheld)
  refine ⟨{ s with heap := heap, reuse_ := [] }, ?_, ⟨howned, h.connecting⟩⟩
  unfold clear_all_reuse_connections
  rw [hall]
  rfl

end Sound

/-- **Whoever does the next step, every connection that is alive stays in one place**,
    and no pointer that is followed dangles. -/
theorem owned_step {s : TCP_Client} (h : Sound s) (e : Event) (he : Allowed s e) :
    ∃ s', step s e = some s' ∧ Sound s' := by
  cases e with
  | connect i memory remote =>
      have hi : s.callers[i]? = some s.callers[i] := List.getElem?_eq_getElem he
      obtain ⟨s', hs', hsound⟩ := sound_advance h hi memory remote
      refine ⟨s', ?_, hsound⟩
      show (s.callers[i]?).bind _ = _
      rw [hi]
      exact hs'
  | remove conn =>
      refine ⟨_, ?_, sound_remove h he.1 he.2⟩
      show (s.follow conn).map _ = _
      rw [h.follow (mem_held_of_pool he.1)]
      rfl
  | recycle conn =>
      obtain ⟨s', hs', hsound, _⟩ := sound_recycle h he
      exact ⟨s', hs', hsound⟩
  | max_connection n_max_conn => exact ⟨_, rfl, h.owned, h.connecting⟩
  | max_reuse_connection n_max_reuse => exact ⟨_, rfl, h.owned, h.connecting⟩
  | clear_all_reuse_connections => exact sound_clear h

/-! ## §3. A run. -/

theorem sound_new (n : Nat) (n_max_conn : Int) : Sound (new n n_max_conn) := by
  have hidle : (List.replicate n Caller.idle).flatMap Caller.conns = [] := by
    rw [List.flatMap_eq_nil_iff]
    intro c hc
    rw [List.eq_of_mem_replicate hc]
    rfl
  refine ⟨owned_nil.perm (List.Perm.of_eq ?_), ?_⟩
  · unfold held
    show (List.replicate n Caller.idle).flatMap Caller.conns ++ [] = []
    rw [hidle]
    rfl
  · intro conn hconn
    exact absurd (List.eq_of_mem_replicate hconn) Caller.noConfusion

/-- What the client promises of its connections. -/
structure Correct (s : TCP_Client) : Prop where
  /-- a connection that is alive is in exactly one place -/
  once : ∀ conn, Live s.heap conn → s.held.count conn = 1
  gone : ∀ conn, ¬ Live s.heap conn → conn ∉ s.held
  /-- nobody follows a pointer to a connection that is gone -/
  defined : ∀ e, Allowed s e → ∃ s', step s e = some s'
  kept : ∀ conn s', conn ∈ s.destroying → step s (.recycle conn) = some s' →
    conn ∈ s'.reuse_ → s'.reuse_.length ≤ s'.n_max_reuse_
  /-- when none is in use, none is left behind by `~TCP_Client` -/
  cleared : s.callers.flatMap Caller.conns = [] → s.pool_ = [] → s.destroying = [] →
    ∃ s', s.clear_all_reuse_connections = some s' ∧ count s'.heap = 0

theorem Sound.correct {s : TCP_Client} (h : Sound s) : Correct s := by
  refine ⟨fun conn hconn => h.owned.count hconn, ?_, ?_, ?_, ?_⟩
  · intro conn hconn hmem
    exact hconn ((h.owned.live conn).mp hmem)
  · intro e he
    obtain ⟨s', hs', _⟩ := owned_step h e he
    exact ⟨s', hs'⟩
  · intro conn s' hconn hs' hkept
    obtain ⟨s₁, hs₁, _, hreuse⟩ := sound_recycle h hconn
    obtain rfl : s₁ = s' := Option.some.inj (hs₁.symm.trans hs')
    exact hreuse hkept
  · intro hcallers hpool hdestroying
    have hheld : (s.reuse_ ++ []).Perm s.held := by
      unfold held
      rw [hcallers, hpool, hdestroying, List.append_nil]
      exact List.Perm.refl _
    obtain ⟨heap, hall, howned⟩ := Owned.free_all s.reuse_ (h.owned.perm hheld)
    refine ⟨{ s with heap := heap, reuse_ := [] }, ?_, ?_⟩
    · unfold clear_all_reuse_connections
      rw [hall]
      rfl
    · rw [count_eq_zero]
      intro conn hconn
      exact absurd ((howned.live conn).mpr hconn) List.not_mem_nil

theorem sound_run {n : Nat} {n_max_conn : Int} {es : List Event} {s : TCP_Client}
    (hs : run next (new n n_max_conn) es = some s) : Sound s := by
  refine always_of_step Sound (sound_new n n_max_conn) ?_ es es List.prefix_rfl s hs
  intro s e s' h hs'
  unfold next at hs'
  split_ifs at hs' with he
  obtain ⟨s₁, hs₁, hsound⟩ := owned_step h e he
  obtain rfl : s₁ = s' := Option.some.inj (hs₁.symm.trans hs')
  exact hsound

/-- It was found that the pool is not full, and nothing was put into it since. -/
def Caller.admitted : Caller → Bool
  | .checked => true
  | .created _ => true
  | _ => false

/-- The limit stays what it is. -/
def Quiet (es : List Event) : Prop := ∀ n_max_conn, .max_connection n_max_conn ∉ es

structure Bounded (n limit : Nat) (s : TCP_Client) : Prop where
  n_max_conn_ : s.n_max_conn_ = limit
  callers : s.callers.length = n
  limited : ∀ max_conn : Int, .limited max_conn ∈ s.callers → max_conn = limit
  room : s.pool_.length + s.callers.countP Caller.admitted < limit + n

section Bounded

variable {n limit : Nat} {s s' : TCP_Client}

theorem bounded_new (hlimit : 0 < limit) : Bounded n limit (new n limit) := by
  refine ⟨rfl, List.length_replicate, ?_, ?_⟩
  · intro max_conn hmem
    exact absurd (List.eq_of_mem_replicate hmem) Caller.noConfusion
  · have hnone : (List.replicate n Caller.idle).countP Caller.admitted = 0 := by
      rw [List.countP_replicate]
      rfl
    show 0 + (List.replicate n Caller.idle).countP Caller.admitted < limit + n
    omega

/-- A thread goes on, and the pool with it. -/
theorem Bounded.seat (h : Bounded n limit s) {i : Nat} {c : Caller} (d : Caller)
    (hi : s.callers[i]? = some c) (hs : s'.callers = s.callers.set i d)
    (hmax : s'.n_max_conn_ = s.n_max_conn_) (hd : ∀ max_conn : Int, d = .limited max_conn → max_conn = limit)
    (hroom : s'.pool_.length + d.admitted.toNat ≤ s.pool_.length + c.admitted.toNat ∨
      s'.pool_.length < limit) : Bounded n limit s' := by
  have hbefore := seats_count Caller.admitted hi
  have hafter := seats_count_set Caller.admitted hi d
  have hothers : (s.callers.eraseIdx i).countP Caller.admitted + 1 ≤ n := by
    have hle := List.countP_le_length (p := Caller.admitted) (l := s.callers.eraseIdx i)
    have hlt : i < s.callers.length := (List.getElem?_eq_some_iff.mp hi).1
    have hlen := List.length_eraseIdx_of_lt hlt
    have hcallers := h.callers
    omega
  have hone : d.admitted.toNat ≤ 1 := Bool.toNat_le _
  refine ⟨hmax.trans h.n_max_conn_, ?_, ?_, ?_⟩
  · rw [hs, List.length_set]
    exact h.callers
  · intro max_conn hmem
    rw [hs] at hmem
    cases List.mem_or_eq_of_mem_set hmem with
    | inl hold => exact h.limited max_conn hold
    | inr hnew => exact hd max_conn hnew.symm
  · have hroom' := h.room
    rw [hs, hafter]
    cases hroom with
    | inl hkeep => omega
    | inr hless => omega

/-- `create_connection` leaves the rest of the client as it is. -/
theorem create_rest {memory : Bool} {r : Option Nat × TCP_Client}
    (hr : s.create_connection memory = some r) :
    r.2.callers = s.callers ∧ r.2.pool_ = s.pool_ ∧ r.2.n_max_conn_ = s.n_max_conn_ := by
  unfold create_connection at hr
  cases hlast : s.reuse_.getLast? with
  | some conn =>
      rw [hlast] at hr
      obtain ⟨_, _, rfl⟩ := Option.map_eq_some_iff.mp hr
      exact ⟨rfl, rfl, rfl⟩
  | none =>
      rw [hlast] at hr
      obtain rfl := Option.some.inj hr
      cases memory with
      | true => exact ⟨rfl, rfl, rfl⟩
      | false => exact ⟨rfl, rfl, rfl⟩

theorem bounded_advance (h : Bounded n limit s) (hlimit : 0 < limit) {i : Nat} {c : Caller}
    (hi : s.callers[i]? = some c) {memory : Bool} {remote : Bytes}
    (hs' : s.advance i memory remote c = some s') : Bounded n limit s' := by
  cases c with
  | idle =>
      obtain rfl := Option.some.inj hs'
      refine h.seat _ hi rfl rfl (fun max_conn hd => ?_) (Or.inl (le_refl _))
      exact (Caller.limited.inj hd).symm.trans h.n_max_conn_
  | limited max_conn =>
      obtain rfl := Option.some.inj hs'
      split_ifs with hfull
      · exact h.seat _ hi rfl rfl (fun _ => Caller.noConfusion) (Or.inl (le_refl _))
      · refine h.seat _ hi rfl rfl (fun _ => Caller.noConfusion) (Or.inr ?_)
        -- the limit it has read is still the limit
        have hmax := h.limited max_conn (List.mem_of_getElem? hi)
        show s.pool_.length < limit
        omega
  | checked =>
      change (s.create_connection memory).map _ = some s' at hs'
      obtain ⟨r, hr, rfl⟩ := Option.map_eq_some_iff.mp hs'
      have hrest := create_rest hr
      refine h.seat _ hi (by rw [← hrest.1]; rfl) hrest.2.2 ?_ (Or.inl ?_)
      · intro max_conn hd
        cases hconn : r.1 with
        | none => rw [hconn] at hd; exact Caller.noConfusion hd
        | some conn => rw [hconn] at hd; exact Caller.noConfusion hd
      · exact Nat.add_le_add (Nat.le_of_eq (congrArg List.length hrest.2.1)) (Bool.toNat_le _)
  | created conn =>
      obtain ⟨c, _, rfl⟩ := Option.map_eq_some_iff.mp hs'
      refine h.seat _ hi rfl rfl (fun _ => Caller.noConfusion) (Or.inl ?_)
      exact Nat.le_of_eq (Lib.Multimap.insert_perm s.pool_ remote c).length_eq
  | connecting conn =>
      obtain ⟨_, _, rfl⟩ := Option.map_eq_some_iff.mp hs'
      exact h.seat _ hi rfl rfl (fun _ => Caller.noConfusion) (Or.inl (le_refl _))

/-- No step takes the pool further over its limit than its threads reach. -/
theorem bounded_step (h : Bounded n limit s) (hlimit : 0 < limit) {e : Event}
    (he : ∀ n_max_conn, e ≠ .max_connection n_max_conn) (hs' : step s e = some s') :
    Bounded n limit s' := by
  cases e with
  | connect i memory remote =>
      obtain ⟨c, hi, hadvance⟩ := Option.bind_eq_some_iff.mp hs'
      exact bounded_advance h hlimit hi hadvance
  | remove conn =>
      obtain ⟨c, _, rfl⟩ := Option.map_eq_some_iff.mp hs'
      refine ⟨h.n_max_conn_, h.callers, h.limited, ?_⟩
      have hless : (Lib.Multimap.eraseValue s.pool_ c).length ≤ s.pool_.length :=
        List.length_eraseP_le
      have hroom := h.room
      show (Lib.Multimap.eraseValue s.pool_ c).length + s.callers.countP Caller.admitted < limit + n
      omega
  | recycle conn =>
      change recycle _ conn = some s' at hs'
      unfold recycle at hs'
      split_ifs at hs' with hroom
      · obtain rfl := Option.some.inj hs'
        exact ⟨h.n_max_conn_, h.callers, h.limited, h.room⟩
      · obtain ⟨heap, _, rfl⟩ := Option.map_eq_some_iff.mp hs'
        exact ⟨h.n_max_conn_, h.callers, h.limited, h.room⟩
  | max_connection n_max_conn => exact absurd rfl (he n_max_conn)
  | max_reuse_connection n_max_reuse =>
      obtain rfl := Option.some.inj hs'
      exact ⟨h.n_max_conn_, h.callers, h.limited, h.room⟩
  | clear_all_reuse_connections =>
      obtain ⟨heap, _, rfl⟩ := Option.map_eq_some_iff.mp hs'
      exact ⟨h.n_max_conn_, h.callers, h.limited, h.room⟩

end Bounded

theorem bounded_run {n limit : Nat} (hlimit : 0 < limit) {es : List Event} (hquiet : Quiet es)
    {s : TCP_Client} (hs : run next (new n limit) es = some s) : Bounded n limit s := by
  have hmeets : Meets next (new n limit) (fun _ e => ∀ m, e ≠ .max_connection m) es := by
    intro pre e hpre _ _ _ _ m he
    exact hquiet m (hpre.subset (by simp [he]))
  refine always_of_meets (Bounded n limit) (bounded_new hlimit) ?_ hmeets es List.prefix_rfl s hs
  intro s e s' h hs' he
  unfold next at hs'
  split_ifs at hs'
  exact bounded_step h hlimit he hs'

/-! ### The threads that reach it. -/

/-- The threads are there, with so many connections in the pool, so many made, and none kept
    for reuse. -/
structure At (limit : Nat) (callers : Nat → Option Caller) (k made : Nat) (s : TCP_Client) :
    Prop where
  callers : ∀ i, s.callers[i]? = callers i
  pool_ : s.pool_.length = k
  heap : s.heap.length = made
  n_max_conn_ : s.n_max_conn_ = limit
  reuse_ : s.reuse_ = []

/-- A run leads there. -/
def Reached (n limit : Nat) (callers : Nat → Option Caller) (k made : Nat) : Prop :=
  ∃ es s, Quiet es ∧ run next (new n limit) es = some s ∧ At limit callers k made s

section Reached

variable {n limit k made : Nat} {callers : Nat → Option Caller} {i : Nat}

/-- One thread goes on. -/
theorem Reached.connect (h : Reached n limit callers k made) {c : Caller} (hi : callers i = some c)
    (d : Caller) (k' made' : Nat)
    (hstep : ∀ s, Sound s → At limit callers k made s → ∃ s', s.advance i true [] c = some s' ∧
      s'.callers = s.callers.set i d ∧ s'.pool_.length = k' ∧ s'.heap.length = made' ∧
      s'.n_max_conn_ = s.n_max_conn_ ∧ s'.reuse_ = []) :
    Reached n limit (Function.update callers i (some d)) k' made' := by
  obtain ⟨es, s, hquiet, hrun, hat⟩ := h
  obtain ⟨s', hs', hcallers, hpool, hheap, hmax, hreuse⟩ := hstep s (sound_run hrun) hat
  have hc : s.callers[i]? = some c := (hat.callers i).trans hi
  have hlt : i < s.callers.length := (List.getElem?_eq_some_iff.mp hc).1
  refine ⟨es ++ [.connect i true []], s', ?_, ?_, ?_, hpool, hheap, hmax.trans hat.n_max_conn_,
    hreuse⟩
  · intro m hm
    cases List.mem_append.mp hm with
    | inl hold => exact hquiet m hold
    | inr hnew => exact absurd (List.mem_singleton.mp hnew) Event.noConfusion
  · have hallowed : Allowed s (.connect i true []) := hlt
    rw [run_concat, hrun]
    show next s _ = some s'
    unfold next
    rw [if_pos hallowed]
    show (s.callers[i]?).bind _ = some s'
    rw [hc]
    exact hs'
  · intro j
    rw [hcallers]
    by_cases hj : i = j
    · subst hj
      rw [List.getElem?_set_self hlt, Function.update_self]
    · rw [List.getElem?_set_ne hj, Function.update_of_ne (Ne.symm hj)]
      exact hat.callers j

/-- A thread finds that the pool is not full. -/
theorem Reached.enter (h : Reached n limit callers k made) (hi : callers i = some .idle)
    (hroom : k < limit) : Reached n limit (Function.update callers i (some .checked)) k made := by
  have hlimited := h.connect hi (.limited limit) k made fun s _ hat => by
    refine ⟨_, rfl, ?_, hat.pool_, hat.heap, rfl, hat.reuse_⟩
    rw [hat.n_max_conn_]
    rfl
  have hchecked := hlimited.connect (Function.update_self ..) .checked k made
    fun s _ hat => by
      refine ⟨_, rfl, ?_, hat.pool_, hat.heap, rfl, hat.reuse_⟩
      have hlen := hat.pool_
      rw [if_neg (by omega)]
      rfl
  rw [Function.update_idem] at hchecked
  exact hchecked

/-- A thread makes a connection, which gets into the pool. -/
theorem Reached.settle (h : Reached n limit callers k made) (hi : callers i = some .checked) :
    Reached n limit (Function.update callers i (some .idle)) (k + 1) (made + 1) := by
  have hcreated := h.connect hi (.created made) k (made + 1) fun s _ hat => by
      have hcreate : s.create_connection true
          = some (some s.heap.length, { s with heap := alloc s.heap () }) := by
        unfold create_connection
        rw [hat.reuse_]
        rfl
      refine ⟨{ s with heap := alloc s.heap () }.seat i (.created s.heap.length), ?_, ?_,
        hat.pool_, ?_, rfl, hat.reuse_⟩
      · show (s.create_connection true).map _ = _
        rw [hcreate]
        rfl
      · rw [hat.heap]
        rfl
      · show (alloc s.heap ()).length = made + 1
        unfold alloc
        rw [List.length_append, hat.heap]
        rfl
  have hinserted := hcreated.connect (Function.update_self ..) (.connecting made) (k + 1)
    (made + 1) fun s hsound hat => by
      have hc : s.callers[i]? = some (.created made) :=
        (hat.callers i).trans (Function.update_self ..)
      have hmem : made ∈ s.held := (held_perm hc).mem_iff.mpr List.mem_cons_self
      refine ⟨_, congrArg (Option.map _) (hsound.follow hmem), rfl, ?_, hat.heap, rfl, hat.reuse_⟩
      exact (Lib.Multimap.insert_perm s.pool_ [] made).length_eq.trans (congrArg (· + 1) hat.pool_)
  have hreturned := hinserted.connect (Function.update_self ..) .idle (k + 1) (made + 1)
    fun s hsound hat => by
      have hc : s.callers[i]? = some (.connecting made) :=
        (hat.callers i).trans (Function.update_self ..)
      have hpool := hsound.connecting made (List.mem_of_getElem? hc)
      exact ⟨s.seat i .idle, congrArg (Option.map _) (hsound.follow (mem_held_of_pool hpool)), rfl,
        hat.pool_, hat.heap, rfl, hat.reuse_⟩
  rw [Function.update_idem, Function.update_idem] at hreturned
  exact hreturned

/-- The first `j` of the threads are there, and the others here. -/
def turned (n j : Nat) (there here : Caller) (i : Nat) : Option Caller :=
  if i < j then some there else if i < n then some here else none

theorem turned_next {j : Nat} (hj : j < n) (there here : Caller) :
    Function.update (turned n j there here) j (some there) = turned n (j + 1) there here := by
  funext i
  unfold turned
  by_cases hi : i = j
  · subst hi
    rw [Function.update_self, if_pos (Nat.lt_succ_self i)]
  · rw [Function.update_of_ne hi]
    split_ifs
    any_goals omega
    all_goals rfl

theorem turned_here {j : Nat} (hj : j < n) (there here : Caller) :
    turned n j there here j = some here := by
  unfold turned
  rw [if_neg (lt_irrefl j), if_pos hj]

/-- When all of them are there, they can come back. -/
theorem turned_all (there here : Caller) : turned n n there here = turned n 0 here there := by
  funext i
  unfold turned
  split_ifs
  any_goals omega
  all_goals rfl

/-- One thread fills the pool up to the limit. -/
theorem reached_idle (hn : 0 < n) :
    ∀ k, k ≤ limit → Reached n limit (turned n 0 .checked .idle) k k := by
  intro k
  induction k with
  | zero =>
      intro _
      refine ⟨[], _, fun _ => List.not_mem_nil, rfl, fun i => ?_, rfl, rfl, rfl, rfl⟩
      show (List.replicate n Caller.idle)[i]? = _
      rw [List.getElem?_replicate]
      rfl
  | succ k ih =>
      intro hk
      have hhere := turned_here hn .checked .idle
      have hnext := ((ih (by omega)).enter hhere hk).settle (Function.update_self ..)
      rw [Function.update_idem, ← hhere, Function.update_eq_self] at hnext
      exact hnext

/-- All threads find that there is room for one more. -/
theorem reached_checked (hn : 0 < n) (hlimit : 0 < limit) :
    ∀ j, j ≤ n → Reached n limit (turned n j .checked .idle) (limit - 1) (limit - 1) := by
  intro j
  induction j with
  | zero =>
      intro _
      exact reached_idle hn _ (Nat.sub_le limit 1)
  | succ j ih =>
      intro hj
      have hnext := (ih (by omega)).enter (turned_here hj ..) (by omega)
      rw [turned_next hj] at hnext
      exact hnext

/-- Each of them puts one more into the pool. -/
theorem reached_over (hn : 0 < n) (hlimit : 0 < limit) :
    ∀ j, j ≤ n → Reached n limit (turned n j .idle .checked) (limit - 1 + j) (limit - 1 + j) := by
  intro j
  induction j with
  | zero =>
      intro _
      have hall := reached_checked hn hlimit n (le_refl n)
      rw [turned_all] at hall
      exact hall
  | succ j ih =>
      intro hj
      have hnext := (ih (by omega)).settle (turned_here hj ..)
      rw [turned_next hj] at hnext
      exact hnext

end Reached

/-- **So many connections the pool can have, and no more**: with `n` threads in `connect`
    it gets `n - 1` over the limit, in one thread it keeps it. -/
theorem pool_greatest {n limit : Nat} (hn : 0 < n) (hlimit : 0 < limit) :
    IsGreatest {k | ∃ es s, Quiet es ∧ run next (new n limit) es = some s ∧ s.pool_.length = k}
      (limit - 1 + n) := by
  constructor
  · obtain ⟨es, s, hquiet, hrun, hat⟩ := reached_over hn hlimit n (le_refl n)
    exact ⟨es, s, hquiet, hrun, hat.pool_⟩
  · rintro _ ⟨es, s, hquiet, hrun, rfl⟩
    have hroom := (bounded_run hlimit hquiet hrun).room
    omega

theorem pool_greatest_two :
    IsGreatest {k | ∃ es s, Quiet es ∧ run next (new 2 (3 : Nat)) es = some s ∧ s.pool_.length = k} 4 :=
  pool_greatest (by omega) (by omega)

end TCP_Client
end Aos
