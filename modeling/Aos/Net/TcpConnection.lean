/-
  Aos.Net.TcpConnection — the last handler of a `TCP_Server_Connection`.

  A connection without SSL is its socket, its timer, and the handlers that wait
  to be run: the completion of a read, that of a write, and waits for the timer.
  The pending handlers run in any order.  Closing the socket makes the reads and
  writes that are pending fail; setting the expiry of the timer aborts the waits
  that are pending, and they run nevertheless.

  `close` leaves the destruction of the connection to a wait of its own, and
  counts on it to be the last handler.

  Main results:
    • `callback_pending` — what a callback adds to the pending handlers;
    • `destroyed_last_iff` — in which runs the connection is destroyed once and last.
-/
import Aos.Byte
import Aos.Lib.Runs

namespace Aos

open Lib.Suffixes Lib.Runs

/-! ## §1. The connection. -/

namespace TCP_Server_Connection

/-- The operation a timeout is set for. -/
inductive Operation
  | READ
  | WRITE
  deriving Repr, DecidableEq

inductive Handler
  | handle_socket_timeout (pending_operation : Operation)
  | handle_destroy
  deriving Repr, DecidableEq

/-- A handler that waits for the timer. -/
structure Wait where
  handler : Handler
  /-- the expiry was set since: the wait runs with `operation_aborted` -/
  aborted : Bool
  deriving Repr, DecidableEq

end TCP_Server_Connection

open TCP_Server_Connection in
structure TCP_Server_Connection where
  timeout_ : Int
  opened : Bool
  /-- a call of `handle_read` (`handle_write`) is pending -/
  reading : Bool
  writing : Bool
  waits : List Wait
  /-- the socket is closed -/
  closed : Bool
  /-- the calls of `server_.destroy_connection(this)` -/
  destroyed : Nat
  deriving Repr, DecidableEq

namespace TCP_Server_Connection

/-- An accepted connection. -/
def accepted (timeout : Int) : TCP_Server_Connection := ⟨timeout, false, false, false, [], false, 0⟩

/-- `timer_.expires_from_now(..)` or `timer_.expires_at(..)` -/
def expires (c : TCP_Server_Connection) : TCP_Server_Connection :=
  { c with waits := c.waits.map fun w => { w with aborted := true } }

/-- `timer_.async_wait(handler)` -/
def async_wait (c : TCP_Server_Connection) (handler : Handler) : TCP_Server_Connection :=
  { c with waits := c.waits ++ [⟨handler, false⟩] }

/-- The timeout that `read` and `write` set. -/
def set_timeout (c : TCP_Server_Connection) (op : Operation) : TCP_Server_Connection :=
  if c.timeout_ > 0 then c.expires.async_wait (.handle_socket_timeout op) else c

/-- `read(mb)`, one at a time. -/
def read (c : TCP_Server_Connection) : Option TCP_Server_Connection :=
  if c.reading then none else some { c.set_timeout .READ with reading := true }

/-- `write(mb)`, one at a time. -/
def write (c : TCP_Server_Connection) : Option TCP_Server_Connection :=
  if c.writing then none else some { c.set_timeout .WRITE with writing := true }

/-- `close()` -/
def close (c : TCP_Server_Connection) : TCP_Server_Connection :=
  { c with closed := true }.expires.async_wait .handle_destroy

/-- What a callback calls of the connection. -/
inductive Call
  | read
  | write
  | close
  deriving Repr, DecidableEq

def call (c : TCP_Server_Connection) : Call → Option TCP_Server_Connection
  | .read => c.read
  | .write => c.write
  | .close => some c.close

def callback (c : TCP_Server_Connection) (calls : List Call) : Option TCP_Server_Connection :=
  run call c calls

/-- `handle_read(error, ..)` and `handle_write(error, ..)`, once they are no longer pending. -/
def handle_io (c : TCP_Server_Connection) (error : Bool) (calls : List Call) :
    Option TCP_Server_Connection :=
  if error then some c.expires.close else c.expires.callback calls

/-- `handle_socket_timeout(error, ..)` -/
def handle_socket_timeout (c : TCP_Server_Connection) (error : Bool) (calls : List Call) :
    Option TCP_Server_Connection :=
  if ¬ error then (c.callback calls).map fun c => { c with closed := true } else some c

/-- `handle_destroy()`, aborted or not. -/
def handle_destroy (c : TCP_Server_Connection) : TCP_Server_Connection :=
  { c with destroyed := c.destroyed + 1 }

/-- The handler of a wait, once it is no longer pending. -/
def handle_wait (c : TCP_Server_Connection) (w : Wait) (calls : List Call) :
    Option TCP_Server_Connection :=
  match w.handler with
  | .handle_socket_timeout _ => c.handle_socket_timeout w.aborted calls
  | .handle_destroy => some c.handle_destroy

/-- A handler runs, with the calls of its callback if it has one. -/
inductive Event
  | open_connection (calls : List Call)
  | handle_read (error : Bool) (calls : List Call)
  | handle_write (error : Bool) (calls : List Call)
  /-- the wait at that place among those that are pending -/
  | wait (i : Nat) (calls : List Call)
  deriving Repr, DecidableEq

def step (c : TCP_Server_Connection) : Event → Option TCP_Server_Connection
  | .open_connection calls =>
      if c.opened then none else { c with opened := true }.callback calls
  | .handle_read error calls =>
      if ¬ c.reading ∨ (c.closed ∧ ¬ error) then none
      else { c with reading := false }.handle_io error calls
  | .handle_write error calls =>
      if ¬ c.writing ∨ (c.closed ∧ ¬ error) then none
      else { c with writing := false }.handle_io error calls
  | .wait i calls =>
      (c.waits[i]?).bind fun w => { c with waits := c.waits.eraseIdx i }.handle_wait w calls

/-! ## §2. What is to hold. -/

/-- How many handlers are pending. -/
def pending (c : TCP_Server_Connection) : Nat :=
  c.reading.toNat + c.writing.toNat + c.waits.length

/-- How many of them are going to destroy the connection. -/
def dying (c : TCP_Server_Connection) : Nat := c.waits.countP fun w => w.handler = .handle_destroy

/-- The connection was not destroyed, or once, when nothing else was pending. -/
def Last (c : TCP_Server_Connection) : Prop := c.destroyed = 0 ∨ (c.destroyed = 1 ∧ c.pending = 0)

instance (c : TCP_Server_Connection) : Decidable (Last c) := inferInstanceAs (Decidable (_ ∨ _))

/-- So it is, and so it will be whichever handler runs next. -/
def Safe (c : TCP_Server_Connection) : Prop := Last c ∧ ∀ e c', step c e = some c' → Last c'

/-- The calls of the handler of a wait, which has a callback if it is not aborted. -/
def Wait.calls (w : Wait) (calls : List Call) : List Call :=
  match w.handler with
  | .handle_socket_timeout _ => if w.aborted then [] else calls
  | .handle_destroy => []

/-- The calls that the handler makes of the connection, those of its callback or
    `close()` after an error. -/
def calls_of (c : TCP_Server_Connection) : Event → List Call
  | .open_connection calls => calls
  | .handle_read error calls => if error then [.close] else calls
  | .handle_write error calls => if error then [.close] else calls
  | .wait i calls => ((c.waits[i]?).map fun w => w.calls calls).getD []

/-- The handlers that are pending beside the one that runs. -/
def others (c : TCP_Server_Connection) : Event → Nat
  | .open_connection _ => c.pending
  | _ => c.pending - 1

/-- **`close()` is all that the handler calls, and nothing else is pending.** -/
def Clean (c : TCP_Server_Connection) (e : Event) : Prop :=
  .close ∈ c.calls_of e → c.calls_of e = [.close] ∧ c.others e = 0

/-! ## §3. What a handler adds. -/

section Pending

variable {c c' : TCP_Server_Connection}

theorem expires_length (c : TCP_Server_Connection) : c.expires.waits.length = c.waits.length :=
  List.length_map _

theorem expires_dying (c : TCP_Server_Connection) : c.expires.dying = c.dying := by
  unfold dying expires
  rw [List.countP_map]
  rfl

theorem async_wait_length (c : TCP_Server_Connection) (handler : Handler) :
    (c.async_wait handler).waits.length = c.waits.length + 1 := List.length_append

theorem async_wait_dying (c : TCP_Server_Connection) (handler : Handler) :
    (c.async_wait handler).dying = c.dying + if handler = .handle_destroy then 1 else 0 := by
  unfold dying async_wait
  rw [List.countP_append, List.countP_singleton]
  simp only [decide_eq_true_eq]

/-- A timeout is one more wait, or none, and destroys nothing. -/
theorem set_timeout_spec (c : TCP_Server_Connection) (op : Operation) :
    c.waits.length ≤ (c.set_timeout op).waits.length ∧ (c.set_timeout op).dying = c.dying ∧
      (c.set_timeout op).reading = c.reading ∧ (c.set_timeout op).writing = c.writing ∧
      (c.set_timeout op).destroyed = c.destroyed ∧ (c.set_timeout op).opened = c.opened := by
  unfold set_timeout
  split_ifs
  · refine ⟨?_, ?_, rfl, rfl, rfl, rfl⟩
    · rw [async_wait_length, expires_length]
      omega
    · rw [async_wait_dying, expires_dying]
      rfl
  · exact ⟨le_rfl, rfl, rfl, rfl, rfl, rfl⟩

theorem close_spec (c : TCP_Server_Connection) :
    c.close.pending = c.pending + 1 ∧ c.close.dying = c.dying + 1 := by
  constructor
  · show _ + _ + (({ c with closed := true }.expires).async_wait .handle_destroy).waits.length = _
    rw [async_wait_length, expires_length]
    rfl
  · show (({ c with closed := true }.expires).async_wait .handle_destroy).dying = _
    rw [async_wait_dying, expires_dying]
    rfl

/-- A call adds a handler, and `close` one that destroys the connection. -/
theorem call_pending {a : Call} (h : c.call a = some c') :
    c.pending + 1 ≤ c'.pending ∧ c'.dying = c.dying + [a].count .close ∧
      c'.destroyed = c.destroyed ∧ c'.opened = c.opened := by
  cases a with
  | read =>
      change c.read = some c' at h
      unfold read at h
      obtain ⟨hfree, h⟩ := Option.ite_none_left_eq_some.mp h
      obtain ⟨hwaits, hdying, _, hwriting, hdestroyed, hopened⟩ := set_timeout_spec c .READ
      obtain rfl := Option.some.inj h
      refine ⟨?_, hdying, hdestroyed, hopened⟩
      unfold pending
      simp only [hwriting, Bool.toNat_true, eq_false_of_ne_true hfree, Bool.toNat_false]
      omega
  | write =>
      change c.write = some c' at h
      unfold write at h
      obtain ⟨hfree, h⟩ := Option.ite_none_left_eq_some.mp h
      obtain ⟨hwaits, hdying, hreading, _, hdestroyed, hopened⟩ := set_timeout_spec c .WRITE
      obtain rfl := Option.some.inj h
      refine ⟨?_, hdying, hdestroyed, hopened⟩
      unfold pending
      simp only [hreading, Bool.toNat_true, eq_false_of_ne_true hfree, Bool.toNat_false]
      omega
  | close =>
      obtain rfl := Option.some.inj h
      obtain ⟨hpending, hdying⟩ := close_spec c
      exact ⟨hpending.ge, hdying, rfl, rfl⟩

/-- **What a callback adds**: a handler for each call at least, and one that
    destroys the connection for each `close`. -/
theorem callback_pending {calls : List Call} (h : c.callback calls = some c') :
    c.pending + calls.length ≤ c'.pending ∧ c'.dying = c.dying + calls.count .close ∧
      c'.destroyed = c.destroyed ∧ c'.opened = c.opened := by
  induction calls generalizing c with
  | nil =>
      obtain rfl := Option.some.inj h
      exact ⟨le_rfl, rfl, rfl, rfl⟩
  | cons a calls ih =>
      change (c.call a).bind (run call · calls) = some c' at h
      obtain ⟨c₁, hcall, hrest⟩ := Option.bind_eq_some_iff.mp h
      obtain ⟨hpending, hdying, hdestroyed, hopened⟩ := call_pending hcall
      obtain ⟨hpending', hdying', hdestroyed', hopened'⟩ := ih hrest
      rw [List.count_singleton] at hdying
      refine ⟨?_, ?_, hdestroyed'.trans hdestroyed, hopened'.trans hopened⟩
      · rw [List.length_cons]
        omega
      · rw [hdying', hdying, List.count_cons]
        omega

theorem dying_le (c : TCP_Server_Connection) : c.dying ≤ c.pending := by
  have hle : c.dying ≤ c.waits.length := List.countP_le_length
  unfold pending
  omega

/-- A wait that is taken out. -/
theorem erase_wait {i : Nat} {w : Wait} (hw : c.waits[i]? = some w) :
    (c.waits.eraseIdx i).length + 1 = c.waits.length ∧
      (c.waits.eraseIdx i).countP (fun w => w.handler = .handle_destroy)
        + (if w.handler = .handle_destroy then 1 else 0) = c.dying := by
  obtain ⟨hi, rfl⟩ := List.getElem?_eq_some_iff.mp hw
  have hperm := List.getElem_cons_eraseIdx_perm hi
  constructor
  · rw [← hperm.length_eq, List.length_cons]
  · unfold dying
    rw [← hperm.countP_eq, List.countP_cons]
    simp only [decide_eq_true_eq]

/-! ### A handler as a whole. -/

/-- A handler that makes the calls while `n` others are pending, and destroys nothing. -/
structure Acts (c c' : TCP_Server_Connection) (calls : List Call) (n : Nat) : Prop where
  destroyed : c'.destroyed = c.destroyed
  dying : c'.dying = c.dying + calls.count .close
  pending : n + calls.length ≤ c'.pending
  closes : calls = [.close] → c'.pending = n + 1
  before : c.dying ≤ n

theorem acts_callback {c₁ : TCP_Server_Connection} {calls : List Call} {n : Nat}
    (hcalls : c₁.callback calls = some c') (hdying : c₁.dying = c.dying)
    (hdestroyed : c₁.destroyed = c.destroyed) (hpending : c₁.pending = n) : Acts c c' calls n := by
  obtain ⟨hmore, hdying', hdestroyed', _⟩ := callback_pending hcalls
  have hbefore := c₁.dying_le
  refine ⟨hdestroyed'.trans hdestroyed, hdying ▸ hdying', hpending ▸ hmore, ?_, by omega⟩
  intro hclose
  rw [hclose] at hcalls
  obtain rfl : c₁.close = c' := Option.some.inj hcalls
  rw [(close_spec c₁).1, hpending]

/-- The completion of a read or a write. -/
theorem acts_io {c₁ : TCP_Server_Connection} {error : Bool} {calls : List Call} {n : Nat}
    (hio : c₁.handle_io error calls = some c') (hdying : c₁.dying = c.dying)
    (hdestroyed : c₁.destroyed = c.destroyed) (hpending : c₁.pending = n) :
    Acts c c' (if error then [.close] else calls) n ∧ c'.opened = c₁.opened := by
  have hdying' : c₁.expires.dying = c.dying := (expires_dying c₁).trans hdying
  have hpending' : c₁.expires.pending = n := by
    rw [← hpending]
    unfold pending
    rw [expires_length]
    rfl
  have hcalls : c₁.expires.callback (if error then [.close] else calls) = some c' := by
    unfold handle_io at hio
    cases error with
    | true => exact hio
    | false => exact hio
  exact ⟨acts_callback hcalls hdying' hdestroyed hpending', (callback_pending hcalls).2.2.2⟩

/-- A wait destroys the connection, or does what its callback calls. -/
theorem wait_cases {i : Nat} {w : Wait} {calls : List Call} (hw : c.waits[i]? = some w)
    (h : { c with waits := c.waits.eraseIdx i }.handle_wait w calls = some c') :
    (w.calls calls = [] ∧ 0 < c.dying ∧ c'.destroyed = c.destroyed + 1 ∧
        c'.pending + 1 = c.pending ∧ c'.opened = c.opened) ∨
      (Acts c c' (w.calls calls) (c.others (.wait i calls)) ∧
        ((c.opened = false ∧ c'.opened = true) ∨ (0 < c.pending ∧ c'.opened = c.opened))) := by
  obtain ⟨handler, aborted⟩ := w
  obtain ⟨hlen, hcount⟩ := erase_wait hw
  have hless : ({ c with waits := c.waits.eraseIdx i } : TCP_Server_Connection).pending + 1
      = c.pending := by
    show c.reading.toNat + c.writing.toNat + (c.waits.eraseIdx i).length + 1
      = c.reading.toNat + c.writing.toNat + c.waits.length
    omega
  have hothers : ({ c with waits := c.waits.eraseIdx i } : TCP_Server_Connection).pending
      = c.others (.wait i calls) := by
    show _ = c.pending - 1
    omega
  cases handler with
  | handle_destroy =>
      obtain rfl := Option.some.inj h
      rw [if_pos rfl] at hcount
      exact Or.inl ⟨rfl, by omega, rfl, hless, rfl⟩
  | handle_socket_timeout op =>
      rw [if_neg (by simp), Nat.add_zero] at hcount
      refine Or.inr ?_
      cases aborted with
      | true =>
          have hcalls : callback { c with waits := c.waits.eraseIdx i } [] = some c' := h
          exact ⟨acts_callback hcalls hcount rfl hothers,
            Or.inr ⟨by omega, (callback_pending hcalls).2.2.2⟩⟩
      | false =>
          obtain ⟨c₂, hcalls, rfl⟩ := Option.map_eq_some_iff.mp h
          obtain ⟨h₁, h₂, h₃, h₄, h₅⟩ := acts_callback (c := c) hcalls hcount rfl hothers
          exact ⟨⟨h₁, h₂, h₃, h₄, h₅⟩, Or.inr ⟨by omega, (callback_pending hcalls).2.2.2⟩⟩

/-- **A handler destroys the connection, or does what it calls.** -/
theorem step_cases {e : Event} (h : step c e = some c') :
    (c.calls_of e = [] ∧ 0 < c.dying ∧ c'.destroyed = c.destroyed + 1 ∧
        c'.pending + 1 = c.pending ∧ c'.opened = c.opened) ∨
      (Acts c c' (c.calls_of e) (c.others e) ∧
        ((c.opened = false ∧ c'.opened = true) ∨ (0 < c.pending ∧ c'.opened = c.opened))) := by
  cases e with
  | open_connection calls =>
      change (if c.opened then none else { c with opened := true }.callback calls) = some c' at h
      obtain ⟨hfirst, h⟩ := Option.ite_none_left_eq_some.mp h
      have hopened := (callback_pending h).2.2.2
      exact Or.inr ⟨acts_callback h rfl rfl rfl, Or.inl ⟨eq_false_of_ne_true hfirst, hopened⟩⟩
  | handle_read error calls =>
      change (if ¬ c.reading ∨ (c.closed ∧ ¬ error) then none
        else { c with reading := false }.handle_io error calls) = some c' at h
      obtain ⟨hpending, h⟩ := Option.ite_none_left_eq_some.mp h
      have hreading : c.reading = true := not_not.mp fun hnot => hpending (Or.inl hnot)
      have hcount : c.pending = ({ c with reading := false } : TCP_Server_Connection).pending + 1 := by
        show c.reading.toNat + _ + _ = false.toNat + c.writing.toNat + c.waits.length + 1
        rw [hreading, Bool.toNat_true, Bool.toNat_false]
        omega
      have hothers : ({ c with reading := false } : TCP_Server_Connection).pending
          = c.others (.handle_read error calls) := by
        show _ = c.pending - 1
        omega
      obtain ⟨hacts, hopened⟩ := acts_io (c := c) h rfl rfl hothers
      exact Or.inr ⟨hacts, Or.inr ⟨by omega, hopened⟩⟩
  | handle_write error calls =>
      change (if ¬ c.writing ∨ (c.closed ∧ ¬ error) then none
        else { c with writing := false }.handle_io error calls) = some c' at h
      obtain ⟨hpending, h⟩ := Option.ite_none_left_eq_some.mp h
      have hwriting : c.writing = true := not_not.mp fun hnot => hpending (Or.inl hnot)
      have hcount : c.pending = ({ c with writing := false } : TCP_Server_Connection).pending + 1 := by
        show _ + c.writing.toNat + _ = c.reading.toNat + false.toNat + c.waits.length + 1
        rw [hwriting, Bool.toNat_true, Bool.toNat_false]
        omega
      have hothers : ({ c with writing := false } : TCP_Server_Connection).pending
          = c.others (.handle_write error calls) := by
        show _ = c.pending - 1
        omega
      obtain ⟨hacts, hopened⟩ := acts_io (c := c) h rfl rfl hothers
      exact Or.inr ⟨hacts, Or.inr ⟨by omega, hopened⟩⟩
  | wait i calls =>
      change ((c.waits[i]?).bind fun w =>
        { c with waits := c.waits.eraseIdx i }.handle_wait w calls) = some c' at h
      obtain ⟨w, hw, h⟩ := Option.bind_eq_some_iff.mp h
      have hcalls_of : c.calls_of (.wait i calls) = w.calls calls := by
        show ((c.waits[i]?).map fun w => w.calls calls).getD [] = _
        rw [hw]
        rfl
      rw [hcalls_of]
      exact wait_cases hw h

end Pending

/-! ## §4. Runs. -/

/-- A connection in order: alive, about to be destroyed by the only handler that is
    pending, or destroyed. -/
structure Sound (c : TCP_Server_Connection) : Prop where
  fresh : c.opened = false → c.pending = 0 ∧ c.destroyed = 0
  phase : (c.destroyed = 0 ∧ c.dying = 0) ∨ (c.destroyed = 0 ∧ c.dying = 1 ∧ c.pending = 1) ∨
    (c.destroyed = 1 ∧ c.pending = 0)

section Runs

variable {c c' : TCP_Server_Connection} {e : Event}

theorem sound_accepted (timeout : Int) : Sound (accepted timeout) :=
  ⟨fun _ => ⟨rfl, rfl⟩, Or.inl ⟨rfl, rfl⟩⟩

theorem Sound.last (h : Sound c) : Last c := by
  rcases h.phase with halive | hclosing | hgone
  · exact Or.inl halive.1
  · exact Or.inl hclosing.1
  · exact Or.inr hgone

/-- A handler of a connection in order that does not destroy it finds it alive. -/
theorem Sound.alive (h : Sound c)
    (hacts : Acts c c' (c.calls_of e) (c.others e))
    (hopened : (c.opened = false ∧ c'.opened = true) ∨ (0 < c.pending ∧ c'.opened = c.opened))
    (hstep : step c e = some c') : c.destroyed = 0 ∧ c.dying = 0 := by
  have hbefore := hacts.before
  rcases hopened with ⟨hfirst, _⟩ | ⟨hpending, _⟩
  · obtain ⟨hnone, hlive⟩ := h.fresh hfirst
    have hle := c.dying_le
    exact ⟨hlive, by omega⟩
  · rcases h.phase with halive | hclosing | hgone
    · exact halive
    · -- the only handler that is pending is the one that destroys
      have hothers : c.others e = 0 := by
        cases e with
        | open_connection calls =>
            have hfirst : c.opened = false := by
              change (if c.opened then none else _) = some c' at hstep
              exact eq_false_of_ne_true (Option.ite_none_left_eq_some.mp hstep).1
            have hnone := (h.fresh hfirst).1
            omega
        | handle_read error calls => exact Nat.sub_eq_zero_of_le hclosing.2.2.le
        | handle_write error calls => exact Nat.sub_eq_zero_of_le hclosing.2.2.le
        | wait i calls => exact Nat.sub_eq_zero_of_le hclosing.2.2.le
      omega
    · omega

theorem opened_step
    (hopened : (c.opened = false ∧ c'.opened = true) ∨ (0 < c.pending ∧ c'.opened = c.opened))
    (h : Sound c) : c'.opened = true := by
  rcases hopened with ⟨_, htrue⟩ | ⟨hpending, hsame⟩
  · exact htrue
  · by_contra hfalse
    rw [hsame] at hfalse
    have hnone := (h.fresh (eq_false_of_ne_true hfalse)).1
    omega

/-- A destruction finds nothing else pending. -/
theorem Sound.destroys (h : Sound c) (hdying : 0 < c.dying) :
    c.destroyed = 0 ∧ c.dying = 1 ∧ c.pending = 1 := by
  have hle := c.dying_le
  rcases h.phase with halive | hclosing | hgone
  · omega
  · exact hclosing
  · omega

/-- A connection in order is safe: if its destruction is pending, nothing else is. -/
theorem Sound.safe (h : Sound c) : Safe c := by
  refine ⟨h.last, fun e c' hstep => ?_⟩
  rcases step_cases hstep with ⟨_, hdying, hdestroyed, hpending, _⟩ | ⟨hacts, hopened⟩
  · obtain ⟨hzero, _, hone⟩ := h.destroys hdying
    exact Or.inr ⟨by omega, by omega⟩
  · exact Or.inl (hacts.destroyed.trans (h.alive hacts hopened hstep).1)

/-- **A clean step keeps the connection in order.** -/
theorem sound_step (h : Sound c) (hstep : step c e = some c') (hclean : Clean c e) : Sound c' := by
  rcases step_cases hstep with ⟨_, hdying, hdestroyed, hpending, hsame⟩ | ⟨hacts, hopened⟩
  · obtain ⟨hzero, _, hone⟩ := h.destroys hdying
    refine ⟨fun hfirst => ?_, Or.inr (Or.inr ⟨by omega, by omega⟩)⟩
    have hnone := (h.fresh (hsame ▸ hfirst)).1
    omega
  · obtain ⟨hzero, hnone⟩ := h.alive hacts hopened hstep
    have htrue := opened_step hopened h
    have hdestroyed := hacts.destroyed
    have hdying := hacts.dying
    refine ⟨fun hfirst => ?_, ?_⟩
    · rw [htrue] at hfirst
      cases hfirst
    · by_cases hclose : Call.close ∈ c.calls_of e
      · obtain ⟨honly, halone⟩ := hclean hclose
        have hpending := hacts.closes honly
        rw [honly] at hdying
        have hone : c'.dying = 1 := by
          rw [hdying, hnone]
          rfl
        exact Or.inr (Or.inl ⟨by omega, hone, by omega⟩)
      · rw [List.count_eq_zero_of_not_mem hclose] at hdying
        exact Or.inl ⟨by omega, by omega⟩

/-- Where the destruction is pending beside another handler, it may come first. -/
theorem not_safe (hdying : 0 < c.dying) (hpending : 1 < c.pending) :
    ¬ Safe c := by
  intro hsafe
  unfold dying at hdying
  rw [List.countP_pos_iff] at hdying
  obtain ⟨w, hmem, hdestroy⟩ := hdying
  obtain ⟨i, hw⟩ := List.mem_iff_getElem?.mp hmem
  have hstep : step c (.wait i [])
      = some { c with waits := c.waits.eraseIdx i, destroyed := c.destroyed + 1 } := by
    show ((c.waits[i]?).bind fun w => handle_wait _ w []) = _
    rw [hw, Option.bind_some]
    unfold handle_wait
    rw [decide_eq_true_eq.mp hdestroy]
    rfl
  rcases step_cases hstep with ⟨_, _, _, hless, _⟩ | ⟨hacts, _⟩
  · rcases hsafe.2 _ _ hstep with hnone | hgone
    · exact absurd hnone (Nat.succ_ne_zero _)
    · omega
  · exact absurd hacts.destroyed (Nat.succ_ne_self _)

/-- **A step that is not clean loses the order at once.** -/
theorem not_safe_step (h : Sound c) (hstep : step c e = some c') (hclean : ¬ Clean c e) :
    ¬ Safe c' := by
  unfold Clean at hclean
  obtain ⟨hclose, hmore⟩ := Classical.not_imp.mp hclean
  rcases step_cases hstep with ⟨hcalls, _⟩ | ⟨hacts, hopened⟩
  · rw [hcalls] at hclose
    exact absurd hclose List.not_mem_nil
  · obtain ⟨hzero, hnone⟩ := h.alive hacts hopened hstep
    have hdestroyed := hacts.destroyed
    have hdying := hacts.dying
    have hpending := hacts.pending
    have hcount : 0 < (c.calls_of e).count .close := List.count_pos_iff.mpr hclose
    have htwo : 1 < c'.pending := by
      by_contra hfew
      have hpos := List.length_pos_of_mem hclose
      -- one call and no other handler: the call is `close`
      obtain ⟨a, ha⟩ := List.length_eq_one_iff.mp (show (c.calls_of e).length = 1 by omega)
      rw [ha, List.mem_singleton] at hclose
      exact hmore ⟨by rw [ha, ← hclose], by omega⟩
    exact not_safe (by omega) htwo

/-- **Destroyed once and last**: in a run, the connection is destroyed at most once,
    when no other handler of it is pending, and would be so whichever pending
    handler ran next, exactly if every handler that closes it leaves no other one
    pending and calls nothing else. -/
theorem destroyed_last_iff (timeout : Int) (events : List Event) :
    Always step (accepted timeout) Safe events ↔ Meets step (accepted timeout) Clean events :=
  always_iff_meets Sound (sound_accepted timeout) (fun _ => Sound.safe)
    (fun _ _ _ => sound_step) (fun _ _ _ => not_safe_step) events

/-- A read and a write are pending, and both fail: the connection is destroyed twice. -/
theorem destroyed_twice :
    ¬ Always step (accepted 0) Last
      [.open_connection [.read, .write], .handle_read true [], .handle_write true [],
        .wait 0 [], .wait 0 []] := by
  intro h
  have hend := h _ List.prefix_rfl ⟨0, true, false, false, [], true, 2⟩ (by decide)
  exact absurd hend (by decide)

end Runs

end TCP_Server_Connection

end Aos
