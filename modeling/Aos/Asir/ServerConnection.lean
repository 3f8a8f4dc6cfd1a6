/-
  Aos.Asir.ServerConnection — a client's connection to the reputation server.

  Bytes are collected until they end with an empty line; this is looked for at
  the end of every read.  The request is then cut into words, and the first two
  are looked at; `params[0]` is a null pointer when there is no word.

  A null pointer that is dereferenced, an index outside the vector of maps and a
  division by zero give `none`.  Where `atoi` has no value, any number may be
  looked up, and `lost` says which one.

  Main results:
    • `parse_request_eq` — the parameters are the first two words;
    • `handle_request_isSome_iff` — the requests that are answered or refused;
    • `find_score_eq` — what is answered is what is stored;
    • `connection_isSome_iff` — whole runs of a connection.
-/
import Aos.Asir.IPv4
import Aos.Asir.Sbrs
import Aos.Lib.Runs
import Aos.Str.Compare
import Aos.Str.Explode

namespace Aos.SBRS

open Multi_String (tokens tokens_step)
open Lib.Suffixes (run run_concat)
open Lib.Runs

/-! ## §1. `read_request`. -/

inductive Read where
  | RD_MORE
  | RD_OK
  deriving DecidableEq

structure SBRS_Server_IO where
  buf_ : Bytes
  rd_state_ : Read

/-- `const char* delimiter = "\r\n\r\n"`. -/
def DELIMITER : Bytes := [CR, LF, CR, LF]

namespace SBRS_Server_IO

def read_reset : SBRS_Server_IO := ⟨[], .RD_MORE⟩

/-- The object, and what is left in the block. -/
def read_request (io : SBRS_Server_IO) (mb : Bytes) : SBRS_Server_IO × Bytes :=
  let buf := if io.rd_state_ ≠ .RD_MORE then [] else io.buf_
  let data := mb
  let buf := if data.length > 0 then buf ++ data else buf
  let mb := if data.length > 0 then mb.drop data.length else mb
  let n_delimiter := DELIMITER.length
  let rd_state := if buf.length ≥ n_delimiter ∧
      strncmp (buf.drop (buf.length - n_delimiter)) DELIMITER n_delimiter = 0 then Read.RD_OK
    else Read.RD_MORE
  (⟨buf, rd_state⟩, mb)

theorem read_request_rest (io : SBRS_Server_IO) (mb : Bytes) : (read_request io mb).2 = [] := by
  show (if mb.length > 0 then mb.drop mb.length else mb) = []
  split_ifs with hpos
  · exact List.drop_length
  · exact List.eq_nil_of_length_eq_zero (by omega)

/-- `while( mb_.length() > 0 )`. -/
def read_requests (io : SBRS_Server_IO) (mb : Bytes) : SBRS_Server_IO :=
  if mb.length > 0 then read_requests (read_request io mb).1 (read_request io mb).2 else io
termination_by mb.length
decreasing_by
  rw [read_request_rest]
  assumption

end SBRS_Server_IO

/-! ## §2. The request. -/

/-- `toker.set_separator(" \t\r\n")`. -/
def SEPARATOR : Bytes := [SP, TAB, CR, LF]

/-- "parse command". -/
def parse_request (buf : Bytes) : Multi_String :=
  let params := Multi_String.new
  let toker := (((Char_Tokenizer.new buf).set_separator SEPARATOR).next).1
  if toker.token.length ≠ 0 then
    let params := params.push_back toker.token
    let toker := toker.next.1
    if toker.token.length ≠ 0 then params.push_back toker.token else params
  else params

section Server

variable {M : Type} (F : Sbrs.Finite_Map M) (maps : List M) (lost : Bytes → UInt32)
  (print : Option Byte → Bytes)

/-- `idx = ipv4 % n_map` and `maps_[idx]->find(ipv4)`. -/
def find_score (ipv4 : UInt32) : Option (Option Byte) :=
  if maps.length = 0 then none
  else
    let idx := Sbrs.server_idx maps.length ipv4.toNat
    if 0 ≤ idx then (maps[idx.toNat]?).map (F.find · ipv4.toNat) else none

/-- What follows upon a request: nothing, and the connection is closed, or the score. -/
def handle_request (buf : Bytes) : Option (Option (Option Byte)) :=
  let params := parse_request buf
  (params.at_ 0).bind fun p0 =>
    if os_strncasecmp p0 (lit "SRL") 3 = 0 ∧ params.count = 2 then
      (params.at_ 1).bind fun p1 =>
        let ipv4 := (IPv4.to_uint32 (c_str p1)).getD (lost (c_str p1))
        (find_score F maps ipv4).map some
    else some none

/-! ## §3. The connection. -/

inductive Phase where
  | READING
  | WRITING
  | CLOSED
  deriving DecidableEq

structure SBRS_Server_Connection where
  io_ : SBRS_Server_IO
  mb_ : Bytes
  phase : Phase

/-- What comes in from the socket. -/
inductive Event where
  | read (bytes : Bytes)
  | read_error
  | written (bytes_transferred : Nat)
  | write_error

namespace SBRS_Server_Connection

def accept : SBRS_Server_Connection := ⟨.read_reset, [], .READING⟩

/-- `handle_read` without an error; `print` is what `write_score` puts into the block. -/
def handle_read (self : SBRS_Server_Connection) (bytes : Bytes) :
    Option SBRS_Server_Connection :=
  let io := self.io_.read_requests (self.mb_ ++ bytes)
  if io.rd_state_ ≠ .RD_OK then some ⟨io, [], .READING⟩
  else
    (handle_request F maps lost io.buf_).map fun
      | none => ⟨io, [], .CLOSED⟩
      | some score => ⟨io, print score, .WRITING⟩

/-- `handle_write` without an error. -/
def handle_write (self : SBRS_Server_Connection) (bytes_transferred : Nat) :
    SBRS_Server_Connection :=
  let mb := self.mb_.drop bytes_transferred
  if mb.length > 0 then { self with mb_ := mb } else ⟨.read_reset, [], .READING⟩

/-- One event; a connection waits for a read or for a write, or for none of them. -/
def step (self : SBRS_Server_Connection) : Event → Option SBRS_Server_Connection
  | .read bytes =>
      if self.phase = .READING then handle_read F maps lost print self bytes else some self
  | .read_error => some (if self.phase = .READING then { self with phase := .CLOSED } else self)
  | .written n => some (if self.phase = .WRITING then handle_write self n else self)
  | .write_error => some (if self.phase = .WRITING then { self with phase := .CLOSED } else self)

end SBRS_Server_Connection

/-! ## §4. Words. -/

/-- The words of a request. -/
def words (buf : Bytes) : List Bytes := tokens (Char_Map.set (c_str SEPARATOR)) buf

/-- The address that is looked up, where one is asked for. -/
def address_asked (buf : Bytes) : Option UInt32 :=
  match words buf with
  | cmd :: addr :: _ =>
      if os_strncasecmp cmd (lit "SRL") 3 = 0 then
        some ((IPv4.to_uint32 (c_str addr)).getD (lost (c_str addr)))
      else none
  | _ => none

/-- **The parameters are the first two words.** -/
theorem parse_request_eq (buf : Bytes) : parse_request buf = packed ((words buf).take 2) := by
  have hnew : ∀ t : Char_Tokenizer, t.cm_ = Char_Map.set (c_str SEPARATOR) →
      tokens (Char_Map.set (c_str SEPARATOR)) t.ahead =
        if t.next.1.token = [] then []
        else t.next.1.token :: tokens (Char_Map.set (c_str SEPARATOR)) t.next.1.ahead := by
    intro t hcm
    obtain ⟨htoken, hahead⟩ := t.next_split
    have hstep := tokens_step t.cm_ t.ahead
    dsimp only at hstep
    rw [← htoken, ← hahead, hcm] at hstep
    exact hstep
  -- the two calls of `next`
  have hfirst := hnew ((Char_Tokenizer.new buf).set_separator SEPARATOR) rfl
  have hsecond := hnew ((Char_Tokenizer.new buf).set_separator SEPARATOR).next.1 rfl
  unfold parse_request words
  dsimp only
  have hstart : buf = ((Char_Tokenizer.new buf).set_separator SEPARATOR).ahead := rfl
  conv_rhs => rw [hstart, hfirst, hsecond]
  simp only [ne_eq, List.length_eq_zero_iff, ite_not]
  split_ifs with h₁ h₂
  · rfl
  · exact push_back_packed [] _
  · exact (congrArg (fun m => Multi_String.push_back m _) (push_back_packed [] _)).trans
      (push_back_packed [_] _)

/-- There is no word in a request of separators alone. -/
theorem words_eq_nil_iff (buf : Bytes) : words buf = [] ↔ ∀ c ∈ buf, c ∈ SEPARATOR := by
  have hhas : ∀ c, (Char_Map.set (c_str SEPARATOR)).has c = true ↔ c ∈ SEPARATOR := by
    intro c
    rw [Char_Map.has_set, c_str_of_no_nul (by decide), decide_eq_true_iff]
  have hstep := tokens_step (Char_Map.set (c_str SEPARATOR)) buf
  dsimp only at hstep
  unfold words
  rw [hstep]
  constructor
  · intro h c hc
    by_contra hno
    -- a byte that is no separator starts a word
    have hall := Char_Tokenizer.dropWhile_nil_of_takeWhile_nil (s := buf)
      (p := (Char_Map.set (c_str SEPARATOR)).has) (by
        by_contra hne
        rw [if_neg hne] at h
        exact List.cons_ne_nil _ _ h)
    exact hno ((hhas c).mp (List.dropWhile_eq_nil_iff.mp hall c hc))
  · intro h
    have hall := List.dropWhile_eq_nil_iff.mpr fun c hc => (hhas c).mpr (h c hc)
    rw [hall]
    rfl

/-! ## §5. What a request comes to. -/

variable {F maps lost print}

/-- **What follows upon a request.** -/
theorem handle_request_eq (buf : Bytes) :
    handle_request F maps lost buf =
      if words buf = [] then none
      else match address_asked lost buf with
        | none => some none
        | some ipv4 => (find_score F maps ipv4).map some := by
  have hrep := represents_packed ((words buf).take 2)
  have hcount : (packed ((words buf).take 2)).count = ((words buf).take 2).length := by
    unfold Multi_String.count
    rw [hrep.offs, Lib.Packed.offsets_length]
  unfold handle_request address_asked
  rw [parse_request_eq]
  dsimp only
  rw [hcount]
  cases hwords : words buf with
  | nil => rfl
  | cons cmd rest =>
      rw [hwords] at hrep
      obtain ⟨tail₀, hat₀⟩ : ∃ tail, (packed (List.take 2 (cmd :: rest))).at_ 0
          = some (cmd ++ NUL :: tail) := hrep.at_ 0 (by simp)
      rw [hat₀, Option.bind_some, if_neg (List.cons_ne_nil _ _), os_strncasecmp_nul]
      cases rest with
      -- a command alone is not looked at any further
      | nil => exact if_neg fun h => absurd h.2 (by simp)
      | cons addr rest =>
          obtain ⟨tail₁, hat₁⟩ : ∃ tail, (packed (List.take 2 (cmd :: addr :: rest))).at_ 1
              = some (addr ++ NUL :: tail) := hrep.at_ 1 (by simp)
          have htwo : (List.take 2 (cmd :: addr :: rest)).length = 2 := by simp
          rw [htwo, hat₁, Option.bind_some, c_str_append_nul]
          dsimp only
          by_cases hsrl : os_strncasecmp cmd (lit "SRL") 3 = 0
          · rw [if_pos ⟨hsrl, rfl⟩, if_pos hsrl]
          · rw [if_neg fun h => hsrl h.1, if_neg hsrl]

/-- An index is found where it is an `int`. -/
theorem find_score_isSome_iff (ipv4 : UInt32) :
    (find_score F maps ipv4).isSome ↔
      0 < maps.length ∧ ipv4.toNat % maps.length < 2 ^ 31 := by
  have hle : ipv4.toNat % maps.length ≤ ipv4.toNat := Nat.mod_le _ _
  have hlt := ipv4.toNat_lt
  unfold find_score Sbrs.server_idx
  by_cases hnone : maps.length = 0
  · rw [if_pos hnone]
    exact iff_of_false (by simp) fun h => absurd h.1 (by omega)
  · have hmod : ipv4.toNat % maps.length < maps.length := Nat.mod_lt _ (by omega)
    rw [if_neg hnone]
    by_cases hint : ipv4.toNat % maps.length < 2 ^ 31
    · dsimp only
      rw [toInt_of_lt (by omega) (by omega), if_pos (Int.natCast_nonneg _), Int.toNat_natCast,
        List.getElem?_eq_getElem hmod]
      exact iff_of_true rfl ⟨by omega, hint⟩
    -- from 2^31 on the remainder is negative as an int
    · have hneg : ¬ 0 ≤ toInt ((ipv4.toNat % maps.length : Nat) : Int) := by
        unfold toInt
        rw [Int.bmod_def]
        omega
      dsimp only
      rw [if_neg hneg]
      exact iff_of_false (by simp) fun h => hint h.2

/-- **What is answered is what is stored.** -/
theorem find_score_eq {ipv4 : UInt32} {score : Option Byte}
    (h : find_score F maps ipv4 = some score) : score = Sbrs.lookup F maps ipv4.toNat := by
  unfold find_score at h
  unfold Sbrs.lookup
  dsimp only at h ⊢
  split_ifs at h ⊢ with hnone hidx
  obtain ⟨m, hm, rfl⟩ := Option.map_eq_some_iff.mp h
  rw [hm]
  rfl

variable (lost) in
/-- A request with a word in it, and an index to be found where it asks for an address. -/
def Answerable (n_map : Nat) (buf : Bytes) : Prop :=
  (∃ c ∈ buf, c ∉ SEPARATOR) ∧
    ∀ ipv4, address_asked lost buf = some ipv4 → 0 < n_map ∧ ipv4.toNat % n_map < 2 ^ 31

/-- **The requests that are answered or refused.** -/
theorem handle_request_isSome_iff (buf : Bytes) :
    (handle_request F maps lost buf).isSome ↔ Answerable lost maps.length buf := by
  have hword : (∃ c ∈ buf, c ∉ SEPARATOR) ↔ words buf ≠ [] := by
    rw [ne_eq, words_eq_nil_iff]
    simp only [not_forall, exists_prop]
  unfold Answerable
  rw [hword, handle_request_eq]
  by_cases hnone : words buf = []
  · rw [if_pos hnone]
    exact iff_of_false (by simp) fun h => h.1 hnone
  · rw [if_neg hnone, and_iff_right hnone]
    cases address_asked lost buf with
    | none => exact iff_of_true rfl fun ipv4 h => absurd h (by simp)
    | some ipv4 =>
        dsimp only
        rw [Option.isSome_map, find_score_isSome_iff]
        exact ⟨fun h ipv4' heq => Option.some.inj heq ▸ h, fun h => h ipv4 rfl⟩

/-- With up to 2³¹ maps a word is enough. -/
theorem answerable_of_word {n_map : Nat} (h0 : 0 < n_map) (hle : n_map ≤ 2 ^ 31) {buf : Bytes}
    (h : ∃ c ∈ buf, c ∉ SEPARATOR) : Answerable lost n_map buf :=
  ⟨h, fun _ _ => ⟨h0, lt_of_lt_of_le (Nat.mod_lt _ h0) hle⟩⟩

/-! ## §6. Reads. -/

namespace SBRS_Server_IO

/-- The test for the empty line. -/
theorem ends_with_delimiter_iff (buf : Bytes) :
    (buf.length ≥ DELIMITER.length ∧
      strncmp (buf.drop (buf.length - DELIMITER.length)) DELIMITER DELIMITER.length = 0) ↔
      DELIMITER <:+ buf := by
  rw [strncmp_prefix_iff DELIMITER (by decide), List.suffix_iff_eq_drop]
  constructor
  · rintro ⟨hlen, hpre⟩
    refine hpre.eq_of_length ?_
    rw [List.length_drop]
    omega
  · intro heq
    have hlen := congrArg List.length heq
    rw [List.length_drop] at hlen
    have hfour : DELIMITER.length = 4 := by decide
    exact ⟨by omega, heq ▸ List.prefix_rfl⟩

/-- **One read.** -/
theorem read_requests_eq {io : SBRS_Server_IO} (hmore : io.rd_state_ = .RD_MORE) {mb : Bytes}
    (hne : mb ≠ []) :
    read_requests io mb =
      ⟨io.buf_ ++ mb, if DELIMITER <:+ io.buf_ ++ mb then .RD_OK else .RD_MORE⟩ := by
  have hpos : mb.length > 0 := List.length_pos_iff.mpr hne
  have hfirst : (read_request io mb).1 =
      ⟨io.buf_ ++ mb, if DELIMITER <:+ io.buf_ ++ mb then .RD_OK else .RD_MORE⟩ := by
    unfold read_request
    simp only [hmore, ne_eq, not_true_eq_false, if_false, if_pos hpos]
    simp only [ends_with_delimiter_iff]
  rw [read_requests, if_pos hpos, read_request_rest, read_requests, if_neg (by simp), hfirst]

theorem read_requests_nil (io : SBRS_Server_IO) : read_requests io [] = io := by
  rw [read_requests, if_neg (by simp)]

end SBRS_Server_IO

/-! ## §7. Runs. -/

namespace SBRS_Server_Connection

/-- A connection that reads has collected bytes, and they do not end with an empty line. -/
def Collecting (self : SBRS_Server_Connection) : Prop :=
  self.phase = .READING →
    self.io_.rd_state_ = .RD_MORE ∧ self.mb_ = [] ∧ ¬ DELIMITER <:+ self.io_.buf_

theorem collecting_reset (phase : Phase) : Collecting ⟨.read_reset, [], phase⟩ :=
  fun _ => ⟨rfl, rfl, (by decide : ¬ DELIMITER <:+ [])⟩

/-- **A read** is followed by another one, or a request is handled. -/
theorem handle_read_cases {self : SBRS_Server_Connection} (hphase : self.phase = .READING)
    (hinv : Collecting self) (bytes : Bytes) :
    (¬ DELIMITER <:+ self.io_.buf_ ++ bytes ∧
      ∃ self', handle_read F maps lost print self bytes = some self' ∧ Collecting self') ∨
    (DELIMITER <:+ self.io_.buf_ ++ bytes ∧
      ((handle_read F maps lost print self bytes).isSome ↔
        (handle_request F maps lost (self.io_.buf_ ++ bytes)).isSome) ∧
      ∀ self', handle_read F maps lost print self bytes = some self' → Collecting self') := by
  obtain ⟨hmore, hmb, hnot⟩ := hinv hphase
  unfold handle_read
  rw [hmb, List.nil_append]
  by_cases hne : bytes = []
  · -- nothing has come in
    rw [hne, List.append_nil, SBRS_Server_IO.read_requests_nil]
    dsimp only
    rw [if_pos (by rw [hmore]; decide)]
    exact Or.inl ⟨hnot, _, rfl, fun _ => ⟨hmore, rfl, hnot⟩⟩
  · rw [ SBRS_Server_IO.read_requests_eq hmore hne]
    dsimp only
    by_cases hend : DELIMITER <:+ self.io_.buf_ ++ bytes
    · rw [if_pos hend, if_neg (by decide), Option.isSome_map]
      refine Or.inr ⟨hend, Iff.rfl, fun self' h => ?_⟩
      obtain ⟨outcome, _, rfl⟩ := Option.map_eq_some_iff.mp h
      cases outcome with
      | none => exact fun hreading => absurd hreading (by simp)
      | some score => exact fun hreading => absurd hreading (by simp)
    · rw [if_neg hend, if_pos (by decide)]
      exact Or.inl ⟨hend, _, rfl, fun _ => ⟨rfl, rfl, hend⟩⟩

theorem step_collecting {self self' : SBRS_Server_Connection} {event : Event}
    (h : step F maps lost print self event = some self') (hinv : Collecting self) :
    Collecting self' := by
  cases event with
  | read bytes =>
      rw [step] at h
      by_cases hphase : self.phase = .READING
      · rw [if_pos hphase] at h
        rcases handle_read_cases hphase hinv bytes with ⟨_, next, hnext, hcollecting⟩ | ⟨_, _, hall⟩
        · obtain rfl := Option.some.inj (hnext.symm.trans h)
          exact hcollecting
        · exact hall self' h
      · rw [if_neg hphase] at h
        obtain rfl := Option.some.inj h
        exact hinv
  | read_error =>
      obtain rfl := Option.some.inj h
      split_ifs
      · exact fun hreading => absurd hreading (by simp)
      · exact hinv
  | written n =>
      obtain rfl := Option.some.inj h
      split_ifs with hphase
      · unfold handle_write
        dsimp only
        split_ifs
        · exact fun hreading => absurd (hphase.symm.trans hreading) (by decide)
        · exact collecting_reset _
      · exact hinv
  | write_error =>
      obtain rfl := Option.some.inj h
      split_ifs
      · exact fun hreading => absurd hreading (by simp)
      · exact hinv

/-- **No event but a completed request** has a chance to crash. -/
theorem step_isSome_iff {self : SBRS_Server_Connection} (hinv : Collecting self) (event : Event) :
    (step F maps lost print self event).isSome ↔
      ∀ bytes, event = .read bytes → self.phase = .READING →
        DELIMITER <:+ self.io_.buf_ ++ bytes →
          Answerable lost maps.length (self.io_.buf_ ++ bytes) := by
  cases event with
  | read bytes =>
      rw [step]
      by_cases hphase : self.phase = .READING
      · rw [if_pos hphase]
        constructor
        · intro h bytes' heq _ hend
          obtain rfl := Event.read.inj heq
          rcases handle_read_cases hphase hinv bytes with ⟨hnot, _⟩ | ⟨_, hsome, _⟩
          · exact absurd hend hnot
          · exact (handle_request_isSome_iff _).mp (hsome.mp h)
        · intro h
          rcases handle_read_cases hphase hinv bytes with ⟨_, next, hnext, _⟩ | ⟨hend, hsome, _⟩
          · rw [hnext]
            rfl
          · exact hsome.mpr ((handle_request_isSome_iff _).mpr (h bytes rfl hphase hend))
      -- what comes while an answer is written is not read
      · rw [if_neg hphase]
        exact iff_of_true rfl fun _ _ h => absurd h hphase
  | read_error => exact iff_of_true rfl fun _ h => absurd h (by simp)
  | written n => exact iff_of_true rfl fun _ h => absurd h (by simp)
  | write_error => exact iff_of_true rfl fun _ h => absurd h (by simp)

/-- **No request crashes the server**, as long as every request that is completed has a word
    in it, and an index to be found where it asks for an address. -/
theorem connection_isSome_iff (F : Sbrs.Finite_Map M) (maps : List M) (lost : Bytes → UInt32)
    (print : Option Byte → Bytes) (events : List Event) :
    (run (step F maps lost print) accept events).isSome ↔
      ∀ pre bytes self, pre ++ [.read bytes] <+: events →
        run (step F maps lost print) accept pre = some self → self.phase = .READING →
          DELIMITER <:+ self.io_.buf_ ++ bytes →
            Answerable lost maps.length (self.io_.buf_ ++ bytes) := by
  have hall : ∀ pre self, run (step F maps lost print) accept pre = some self →
      Collecting self := by
    intro pre self hrun
    exact always_of_step Collecting (collecting_reset _)
      (fun _ _ _ hinv hstep => step_collecting hstep hinv) pre pre List.prefix_rfl self hrun
  rw [run_isSome_iff_steps]
  constructor
  · intro h pre bytes self hpre hrun
    exact (step_isSome_iff (hall pre self hrun) _).mp (h pre _ self hpre hrun) bytes rfl
  · intro h pre event self hpre hrun
    refine (step_isSome_iff (hall pre self hrun) event).mpr fun bytes heq => ?_
    subst heq
    exact h pre bytes self hpre hrun

/-- An empty line is a request without a word: the first parameter is a null pointer. -/
theorem connection_empty_line : ¬ ∀ events : List Event,
    (run (step Sbrs.entries [Sbrs.entries.empty] (fun _ => 0) fun _ => []) accept
      events).isSome := by
  intro h
  have hread : (step Sbrs.entries [Sbrs.entries.empty] (fun _ => 0) (fun _ => []) accept
      (.read DELIMITER)).isSome := by
    have hrun := h ([] ++ [.read DELIMITER])
    rw [run_concat] at hrun
    exact hrun
  have hcollecting : Collecting accept := collecting_reset _
  obtain ⟨⟨c, hc, hno⟩, _⟩ := (step_isSome_iff hcollecting _).mp hread DELIMITER rfl rfl
    (List.suffix_append [] DELIMITER)
  -- both of its bytes are separators
  have hall : ∀ c ∈ DELIMITER, c ∈ SEPARATOR := by simp [DELIMITER, SEPARATOR]
  exact hno (hall c hc)

end SBRS_Server_Connection

end Server

end Aos.SBRS
