/-
  Aos.Net.Session — how long an `AIO_Session` lives.

  The session counts its pending reads and writes, and adds eight to both counts
  for a pause.  Four of its handlers end by destroying it when nothing counts any
  more.  Beside the counts the model keeps what they stand for: the operations
  that were started and have not completed, and the pauses nobody has resumed.

  An event on a session that was destroyed has no meaning, and neither has a
  count that leaves the range of an `int`: both give `none`.

  Main results:
    • `sound_step` — the counts stay exact, and the session is destroyed when
      they are all that kept it;
    • `session_lifetime` — so they do in every run that pauses an open session
      only and starts nothing in `on_close`.
-/
import Aos.Byte
import Aos.Lib.Runs

namespace Aos.Session

open Lib.Suffixes Lib.Runs

/-! ## §1. The session. -/

structure AIO_Session where
  n_op_r_ : Int
  n_op_w_ : Int
  /-- whether `stream_.open` was tried, and what came of it -/
  opened : Option Bool
  /-- the reads that were started and have not completed -/
  reads : Nat
  writes : Nat
  /-- the calls of `pause` that no `resume` has followed -/
  pauses : Nat
  /-- the calls of `manager_->destroy_session(this)` -/
  destroyed : Nat
  deriving Repr, DecidableEq

namespace AIO_Session

/-- `AIO_Session()` -/
def new : AIO_Session := ⟨-1, -1, none, 0, 0, 0, 0⟩

def has_pending_io (s : AIO_Session) : Bool := s.n_op_r_ > 0 ∨ s.n_op_w_ > 0

def is_safe_to_delete (s : AIO_Session) : Bool := ¬ s.has_pending_io

def is_paused (s : AIO_Session) : Bool := s.n_op_r_ ≥ 8 ∨ s.n_op_w_ ≥ 8

/-- `read(mb)`; `started` says whether `stream_.read` starts one. -/
def read (s : AIO_Session) (started : Bool) : AIO_Session × Int :=
  if s.n_op_r_ ≠ 0 then (s, s.n_op_r_)
  else if ¬ started then (s, -1)
  else ({ s with n_op_r_ := s.n_op_r_ + 1, reads := s.reads + 1 }, 0)

/-- `write(mb)` of a block of `n_byte` bytes. -/
def write (s : AIO_Session) (n_byte : Nat) (started : Bool) : AIO_Session × Int :=
  if s.n_op_w_ ≠ 0 then (s, s.n_op_w_)
  else if n_byte = 0 then (s, -1)
  else if ¬ started then (s, -1)
  else ({ s with n_op_w_ := s.n_op_w_ + 1, writes := s.writes + 1 }, 0)

/-- The counts of `pause()`. -/
def pause (s : AIO_Session) : Option AIO_Session :=
  if s.n_op_r_ + 8 < 2 ^ 31 ∧ s.n_op_w_ + 8 < 2 ^ 31 then
    some { s with n_op_r_ := s.n_op_r_ + 8, n_op_w_ := s.n_op_w_ + 8, pauses := s.pauses + 1 }
  else none

/-- What a callback calls of the session it was called by. -/
inductive Call
  | read (started : Bool)
  | write (n_byte : Nat) (started : Bool)
  | pause
  deriving Repr, DecidableEq

def call (s : AIO_Session) : Call → Option AIO_Session
  | .read started => some (s.read started).1
  | .write n_byte started => some (s.write n_byte started).1
  | .pause => s.pause

/-- A callback; those that `pause` calls back come after its own call. -/
def callback (s : AIO_Session) (calls : List Call) : Option AIO_Session := run call s calls

/-- The end of a handler: `on_close()` and `destroy_session`. -/
def finish (on_close : List Call) (s : AIO_Session) : Option AIO_Session :=
  if ¬ s.is_safe_to_delete then some s
  else (s.callback on_close).map fun s => { s with destroyed := s.destroyed + 1 }

/-- `open(handle, mb)`, with the calls of `on_open` or `on_open_error`. -/
def open_stream (s : AIO_Session) (ok : Bool) (calls on_close : List Call) : Option AIO_Session :=
  let s := { s with opened := some ok }
  let s := if ok then { s with n_op_r_ := 0, n_op_w_ := 0 } else s
  (s.callback calls).bind (finish on_close)

/-- `handle_read_stream(result)` -/
def handle_read_stream (s : AIO_Session) (error : Bool) (bytes_transferred : Nat)
    (calls on_close : List Call) : Option AIO_Session :=
  let s := { s with n_op_r_ := s.n_op_r_ - 1, reads := s.reads - 1 }
  if ¬ error ∧ bytes_transferred ≠ 0 then (s.callback calls).bind (finish on_close)
  else finish on_close s

/-- `handle_write_stream(result)` -/
def handle_write_stream (s : AIO_Session) (error : Bool) (bytes_transferred : Nat)
    (calls on_close : List Call) : Option AIO_Session :=
  let s := { s with n_op_w_ := s.n_op_w_ - 1, writes := s.writes - 1 }
  if ¬ error ∧ bytes_transferred > 0 then (s.callback calls).bind (finish on_close)
  else finish on_close s

/-- `resume()` -/
def resume (s : AIO_Session) (calls on_close : List Call) : Option AIO_Session :=
  if ¬ s.is_paused then some { s with pauses := s.pauses - 1 }
  else
    let s := { s with
      n_op_r_ := s.n_op_r_ - 8, n_op_w_ := s.n_op_w_ - 8, pauses := s.pauses - 1 }
    (s.callback calls).bind (finish on_close)

inductive Event
  | open_stream (ok : Bool) (calls on_close : List Call)
  | handle_read_stream (error : Bool) (bytes_transferred : Nat) (calls on_close : List Call)
  | handle_write_stream (error : Bool) (bytes_transferred : Nat) (calls on_close : List Call)
  /-- with the calls of `on_pause` -/
  | pause (calls : List Call)
  | resume (calls on_close : List Call)
  /-- the stream is cancelled and closed; what is pending completes later -/
  | cancel
  deriving Repr, DecidableEq

/-- An event: a session is opened once, and an operation completes once. -/
def step (s : AIO_Session) (e : Event) : Option AIO_Session :=
  if s.destroyed ≠ 0 then none
  else
    match e with
    | .open_stream ok calls on_close =>
        if s.opened = none then s.open_stream ok calls on_close else none
    | .handle_read_stream error bytes calls on_close =>
        if s.reads ≠ 0 then s.handle_read_stream error bytes calls on_close else none
    | .handle_write_stream error bytes calls on_close =>
        if s.writes ≠ 0 then s.handle_write_stream error bytes calls on_close else none
    | .pause calls => s.pause.bind fun s => s.callback calls
    | .resume calls on_close => s.resume calls on_close
    | .cancel => some s

/-! ## §2. What is to hold. -/

/-- The counts say what is pending: one read and one write at most, and eight for a pause. -/
structure Exact (s : AIO_Session) : Prop where
  n_op_r_ : s.n_op_r_ = s.reads + 8 * s.pauses
  n_op_w_ : s.n_op_w_ = s.writes + 8 * s.pauses
  reads : s.reads ≤ 1
  writes : s.writes ≤ 1

/-- Nothing is outstanding and nobody has paused. -/
def Idle (s : AIO_Session) : Prop := s.reads = 0 ∧ s.writes = 0 ∧ s.pauses = 0

/-- The call starts nothing, whatever the counts. -/
def Call.Quiet : Call → Prop
  | .read started => started = false
  | .write n_byte started => n_byte = 0 ∨ started = false
  | .pause => False

/-- `pause` is called on an open session, and `on_close` starts nothing. -/
def Proper (s : AIO_Session) : Event → Prop
  | .open_stream ok calls on_close =>
      (ok = false → Call.pause ∉ calls) ∧ ∀ c ∈ on_close, c.Quiet
  | .handle_read_stream _ _ _ on_close => ∀ c ∈ on_close, c.Quiet
  | .handle_write_stream _ _ _ on_close => ∀ c ∈ on_close, c.Quiet
  | .pause _ => s.opened = some true
  | .resume _ on_close => ∀ c ∈ on_close, c.Quiet
  | .cancel => True

/-! ## §3. Callbacks. -/

section Callback

variable {s s' : AIO_Session} {calls on_close : List Call}

/-- What a callback of an open session keeps: the counts stay exact, and no pause
    is taken back. -/
structure Goes (s s' : AIO_Session) : Prop where
  exact : Exact s'
  pauses : s.pauses ≤ s'.pauses
  opened : s'.opened = s.opened
  destroyed : s'.destroyed = s.destroyed

theorem Exact.goes (h : Exact s) : Goes s s := ⟨h, le_rfl, rfl, rfl⟩

/-- A read is started only where none is pending and nobody has paused. -/
theorem goes_call (h : Exact s) {c : Call} (hcall : s.call c = some s') : Goes s s' := by
  cases c with
  | read started =>
      obtain rfl := Option.some.inj hcall
      show Goes s (s.read started).1
      unfold read
      split_ifs with hpending hstart
      · exact h.goes
      · have hr := h.n_op_r_
        refine ⟨⟨?_, h.n_op_w_, ?_, h.writes⟩, le_rfl, rfl, rfl⟩
        · show s.n_op_r_ + 1 = ((s.reads + 1 : Nat) : Int) + 8 * s.pauses
          omega
        · show s.reads + 1 ≤ 1
          omega
      · exact h.goes
  | write n_byte started =>
      obtain rfl := Option.some.inj hcall
      show Goes s (s.write n_byte started).1
      unfold write
      split_ifs with hpending hempty hstart
      · exact h.goes
      · exact h.goes
      · have hw := h.n_op_w_
        refine ⟨⟨h.n_op_r_, ?_, h.reads, ?_⟩, le_rfl, rfl, rfl⟩
        · show s.n_op_w_ + 1 = ((s.writes + 1 : Nat) : Int) + 8 * s.pauses
          omega
        · show s.writes + 1 ≤ 1
          omega
      · exact h.goes
  | pause =>
      change s.pause = some s' at hcall
      unfold pause at hcall
      split_ifs at hcall
      obtain rfl := Option.some.inj hcall
      have hr := h.n_op_r_
      have hw := h.n_op_w_
      refine ⟨⟨?_, ?_, h.reads, h.writes⟩, Nat.le_succ _, rfl, rfl⟩
      · show s.n_op_r_ + 8 = s.reads + 8 * ((s.pauses + 1 : Nat) : Int)
        omega
      · show s.n_op_w_ + 8 = s.writes + 8 * ((s.pauses + 1 : Nat) : Int)
        omega

theorem goes_callback (h : Exact s) (hcalls : s.callback calls = some s') : Goes s s' := by
  refine always_of_step (Goes s) h.goes ?_ calls calls List.prefix_rfl s' hcalls
  intro s₁ c s₂ hgoes hcall
  have hnext := goes_call hgoes.exact hcall
  exact ⟨hnext.exact, hgoes.pauses.trans hnext.pauses, hnext.opened.trans hgoes.opened,
    hnext.destroyed.trans hgoes.destroyed⟩

/-- Before the stream is open every read and write is refused. -/
theorem callback_refused (hr : s.n_op_r_ = -1) (hw : s.n_op_w_ = -1) (hcalls : Call.pause ∉ calls) :
    s.callback calls = some s := by
  induction calls with
  | nil => rfl
  | cons c calls ih =>
      have hcall : s.call c = some s := by
        cases c with
        | read started =>
            show some (s.read started).1 = some s
            rw [read, if_pos (by omega)]
        | write n_byte started =>
            show some (s.write n_byte started).1 = some s
            rw [write, if_pos (by omega)]
        | pause => exact absurd List.mem_cons_self hcalls
      show (s.call c).bind (run call · calls) = some s
      rw [hcall]
      exact ih fun h => hcalls (List.mem_cons_of_mem c h)

theorem callback_quiet (hcalls : ∀ c ∈ calls, c.Quiet) : s.callback calls = some s := by
  induction calls with
  | nil => rfl
  | cons c calls ih =>
      have hquiet := hcalls c List.mem_cons_self
      have hcall : s.call c = some s := by
        cases c with
        | read started =>
            obtain rfl : started = false := hquiet
            show some (s.read false).1 = some s
            unfold read
            split
            next => rfl
            next => rw [if_pos (by decide)]
        | write n_byte started =>
            change n_byte = 0 ∨ started = false at hquiet
            show some (s.write n_byte started).1 = some s
            unfold write
            split_ifs with hpending hempty hstart
            · rfl
            · rfl
            · rw [hquiet.resolve_left hempty] at hstart
              cases hstart
            · rfl
        | pause => exact False.elim hquiet
      show (s.call c).bind (run call · calls) = some s
      rw [hcall]
      exact ih fun d hd => hcalls d (List.mem_cons_of_mem c hd)

theorem finish_quiet (hclose : ∀ c ∈ on_close, c.Quiet) :
    s.finish on_close
      = some (if s.has_pending_io then s else { s with destroyed := s.destroyed + 1 }) := by
  unfold finish is_safe_to_delete
  rw [callback_quiet hclose]
  cases s.has_pending_io <;> rfl

end Callback

/-! ## §4. The four handlers. -/

/-- Where a session stands between two events: not opened yet, given up, or open
    and alive as long as something counts. -/
structure Sound (s : AIO_Session) : Prop where
  fresh : s.opened = none → s.n_op_r_ = -1 ∧ s.n_op_w_ = -1 ∧ Idle s ∧ s.destroyed = 0
  failed : s.opened = some false → Idle s ∧ s.destroyed = 1
  exact : s.opened = some true → Exact s ∧ s.destroyed ≤ 1 ∧ (s.destroyed = 1 ↔ Idle s)

section Step

variable {s s' : AIO_Session} {calls on_close : List Call}

theorem Exact.pending_iff (h : Exact s) : s.has_pending_io = true ↔ ¬ Idle s := by
  have hr := h.n_op_r_
  have hw := h.n_op_w_
  unfold has_pending_io Idle
  rw [decide_eq_true_eq]
  omega

/-- The end of a handler of an open session. -/
theorem sound_finish (h : Exact s) (hopen : s.opened = some true) (halive : s.destroyed = 0)
    (hclose : ∀ c ∈ on_close, c.Quiet) (hs' : s.finish on_close = some s') : Sound s' := by
  rw [finish_quiet hclose, Option.some.injEq] at hs'
  have hpending := h.pending_iff
  split_ifs at hs' with hkeep
  · subst hs'
    refine ⟨fun hnone => ?_, fun hfail => ?_, fun _ => ⟨h, by omega, ?_⟩⟩
    · rw [hopen] at hnone
      cases hnone
    · rw [hopen] at hfail
      cases hfail
    · exact iff_of_false (by omega) (hpending.mp hkeep)
  · have hidle : Idle s := by
      by_contra hbusy
      exact hkeep (hpending.mpr hbusy)
    subst hs'
    have hone : s.destroyed + 1 = 1 := by omega
    refine ⟨fun hnone => ?_, fun _ => ⟨hidle, hone⟩, fun _ => ⟨?_, hone.le, iff_of_true hone hidle⟩⟩
    · rw [hopen] at hnone
      cases hnone
    · exact ⟨h.n_op_r_, h.n_op_w_, h.reads, h.writes⟩

/-- A callback of an open session, and the end of the handler. -/
theorem sound_callback (h : Exact s) (hopen : s.opened = some true) (halive : s.destroyed = 0)
    (hclose : ∀ c ∈ on_close, c.Quiet)
    (hs' : (s.callback calls).bind (finish on_close) = some s') : Sound s' := by
  obtain ⟨s₁, hs₁, hfinish⟩ := Option.bind_eq_some_iff.mp hs'
  have hgoes := goes_callback h hs₁
  exact sound_finish hgoes.exact (hgoes.opened.trans hopen) (hgoes.destroyed.trans halive) hclose
    hfinish

theorem sound_open (h : Sound s) (hfresh : s.opened = none) {ok : Bool}
    (hproper : Proper s (.open_stream ok calls on_close))
    (hs' : s.open_stream ok calls on_close = some s') : Sound s' := by
  obtain ⟨hr, hw, hidle, halive⟩ := h.fresh hfresh
  obtain ⟨hreads, hwrites, hpauses⟩ := hidle
  unfold open_stream at hs'
  cases ok with
  | true =>
      refine sound_callback (s := { s with opened := some true, n_op_r_ := 0, n_op_w_ := 0 })
        ⟨?_, ?_, ?_, ?_⟩ rfl halive hproper.2 hs'
      · show (0 : Int) = s.reads + 8 * s.pauses
        omega
      · show (0 : Int) = s.writes + 8 * s.pauses
        omega
      · exact hreads.le.trans (by decide)
      · exact hwrites.le.trans (by decide)
  | false =>
      have hrefused := callback_refused (s := { s with opened := some false }) hr hw (hproper.1 rfl)
      simp only [Bool.false_eq_true, if_false] at hs'
      rw [hrefused, Option.bind_some, finish_quiet hproper.2] at hs'
      have hnone : ({ s with opened := some false } : AIO_Session).has_pending_io = false := by
        unfold has_pending_io
        rw [decide_eq_false_iff_not]
        show ¬ (s.n_op_r_ > 0 ∨ s.n_op_w_ > 0)
        omega
      rw [hnone, Option.some.injEq] at hs'
      subst hs'
      refine ⟨fun h => ?_, fun _ => ⟨⟨hreads, hwrites, hpauses⟩, ?_⟩, fun h => ?_⟩
      · cases h
      · show s.destroyed + 1 = 1
        omega
      · cases h

/-- Where something is outstanding, the session is open. -/
theorem Sound.open_of_busy (h : Sound s) (hbusy : ¬ Idle s) : s.opened = some true := by
  cases hopened : s.opened with
  | none => exact absurd (h.fresh hopened).2.2.1 hbusy
  | some ok =>
      cases ok with
      | false => exact absurd (h.failed hopened).1 hbusy
      | true => rfl

theorem sound_read_complete (h : Sound s) (halive : s.destroyed = 0) (hpending : s.reads ≠ 0)
    (hclose : ∀ c ∈ on_close, c.Quiet) {error : Bool} {bytes : Nat}
    (hs' : s.handle_read_stream error bytes calls on_close = some s') : Sound s' := by
  have hopen := h.open_of_busy fun hidle => hpending hidle.1
  obtain ⟨hexact, _⟩ := h.exact hopen
  have hdone : Exact { s with n_op_r_ := s.n_op_r_ - 1, reads := s.reads - 1 } := by
    have hr := hexact.n_op_r_
    refine ⟨?_, hexact.n_op_w_, (Nat.sub_le _ _).trans hexact.reads, hexact.writes⟩
    show s.n_op_r_ - 1 = ((s.reads - 1 : Nat) : Int) + 8 * s.pauses
    omega
  unfold handle_read_stream at hs'
  simp only at hs'
  split at hs'
  next => exact sound_callback hdone hopen halive hclose hs'
  next => exact sound_finish hdone hopen halive hclose hs'

theorem sound_write_complete (h : Sound s) (halive : s.destroyed = 0) (hpending : s.writes ≠ 0)
    (hclose : ∀ c ∈ on_close, c.Quiet) {error : Bool} {bytes : Nat}
    (hs' : s.handle_write_stream error bytes calls on_close = some s') : Sound s' := by
  have hopen := h.open_of_busy fun hidle => hpending hidle.2.1
  obtain ⟨hexact, _⟩ := h.exact hopen
  have hdone : Exact { s with n_op_w_ := s.n_op_w_ - 1, writes := s.writes - 1 } := by
    have hw := hexact.n_op_w_
    refine ⟨hexact.n_op_r_, ?_, hexact.reads, (Nat.sub_le _ _).trans hexact.writes⟩
    show s.n_op_w_ - 1 = ((s.writes - 1 : Nat) : Int) + 8 * s.pauses
    omega
  unfold handle_write_stream at hs'
  simp only at hs'
  split at hs'
  next => exact sound_callback hdone hopen halive hclose hs'
  next => exact sound_finish hdone hopen halive hclose hs'

/-- A paused session is not idle, whatever `on_pause` does. -/
theorem sound_pause (h : Sound s) (halive : s.destroyed = 0) (hopen : s.opened = some true)
    (hs' : (s.pause.bind fun s => s.callback calls) = some s') : Sound s' := by
  obtain ⟨hexact, _⟩ := h.exact hopen
  obtain ⟨s₁, hpause, hcalls⟩ := Option.bind_eq_some_iff.mp hs'
  have hgoes₁ : Goes s s₁ := goes_call hexact (c := .pause) hpause
  have hgoes := goes_callback hgoes₁.exact hcalls
  have hopen' : s'.opened = some true := hgoes.opened.trans (hgoes₁.opened.trans hopen)
  have halive' : s'.destroyed = 0 := hgoes.destroyed.trans (hgoes₁.destroyed.trans halive)
  have hpauses : s₁.pauses = s.pauses + 1 := by
    unfold pause at hpause
    split_ifs at hpause
    rw [← Option.some.inj hpause]
  have hmore := hgoes.pauses
  refine ⟨fun hnone => ?_, fun hfail => ?_, fun _ => ⟨hgoes.exact, by omega, ?_⟩⟩
  · rw [hopen'] at hnone
    cases hnone
  · rw [hopen'] at hfail
    cases hfail
  · refine iff_of_false (by omega) ?_
    intro hidle
    have hzero := hidle.2.2
    omega

theorem sound_resume (h : Sound s) (halive : s.destroyed = 0)
    (hclose : ∀ c ∈ on_close, c.Quiet) (hs' : s.resume calls on_close = some s') : Sound s' := by
  unfold resume at hs'
  by_cases hidle : s.pauses = 0
  · -- nobody has paused
    have hnot : s.is_paused = false := by
      unfold is_paused
      rw [decide_eq_false_iff_not]
      cases hopened : s.opened with
      | none =>
          obtain ⟨hr, hw, _⟩ := h.fresh hopened
          omega
      | some ok =>
          cases ok with
          | false =>
              have hgone := (h.failed hopened).2
              omega
          | true =>
              obtain ⟨hexact, _⟩ := h.exact hopened
              have hr := hexact.n_op_r_
              have hw := hexact.n_op_w_
              have hreads := hexact.reads
              have hwrites := hexact.writes
              omega
    rw [hnot, if_pos (by decide), Option.some.injEq] at hs'
    have hsame : { s with pauses := s.pauses - 1 } = s := by
      rw [hidle, Nat.zero_sub, ← hidle]
    rw [← hs', hsame]
    exact h
  · have hopen := h.open_of_busy fun hall => hidle hall.2.2
    obtain ⟨hexact, _⟩ := h.exact hopen
    have hr := hexact.n_op_r_
    have hw := hexact.n_op_w_
    have hpaused : s.is_paused = true := by
      unfold is_paused
      rw [decide_eq_true_eq]
      omega
    rw [hpaused, if_neg (by decide)] at hs'
    refine sound_callback (s := { s with
      n_op_r_ := s.n_op_r_ - 8, n_op_w_ := s.n_op_w_ - 8, pauses := s.pauses - 1 })
      ⟨?_, ?_, hexact.reads, hexact.writes⟩ hopen halive hclose hs'
    · show s.n_op_r_ - 8 = s.reads + 8 * ((s.pauses - 1 : Nat) : Int)
      omega
    · show s.n_op_w_ - 8 = s.writes + 8 * ((s.pauses - 1 : Nat) : Int)
      omega

/-- **An event keeps the session in order.** -/
theorem sound_step (h : Sound s) {e : Event} (hproper : Proper s e) (hs' : step s e = some s') :
    Sound s' := by
  unfold step at hs'
  obtain ⟨hgone, hs'⟩ := Option.ite_none_left_eq_some.mp hs'
  have halive : s.destroyed = 0 := not_not.mp hgone
  cases e with
  | open_stream ok calls on_close =>
      obtain ⟨hfresh, hs'⟩ := Option.ite_none_right_eq_some.mp hs'
      exact sound_open h hfresh hproper hs'
  | handle_read_stream error bytes calls on_close =>
      obtain ⟨hpending, hs'⟩ := Option.ite_none_right_eq_some.mp hs'
      exact sound_read_complete h halive hpending hproper hs'
  | handle_write_stream error bytes calls on_close =>
      obtain ⟨hpending, hs'⟩ := Option.ite_none_right_eq_some.mp hs'
      exact sound_write_complete h halive hpending hproper hs'
  | pause calls => exact sound_pause h halive hproper hs'
  | resume calls on_close => exact sound_resume h halive hproper hs'
  | cancel =>
      obtain rfl := Option.some.inj hs'
      exact h

end Step

/-! ## §5. A run. -/

theorem sound_new : Sound new := by
  refine ⟨fun _ => ⟨rfl, rfl, ⟨rfl, rfl, rfl⟩, rfl⟩, fun h => ?_, fun h => ?_⟩
  · cases h
  · cases h

theorem sound_run (events : List Event) (hproper : Meets step new Proper events) :
    Always step new Sound events :=
  always_of_meets Sound sound_new (fun _ _ _ hsound hstep hop => sound_step hsound hop hstep)
    hproper

end AIO_Session

end Aos.Session
