/-
  Aos.Net.Smtp.WouldBlock — the loop in which `SMTP_Client_IO` waits for a reply,
  and what becomes of it when `recv` would block.

  The loop is the same in every command.  It leaves on an error of `recv`, but
  not on EWOULDBLOCK: then the -1 is added to the write position, the block
  seems to hold 2⁶⁴ - 1 bytes, and `std::string::append` throws.

  Main results:
    • `response_ends` — what a loop comes to on any results of `recv`;
    • `would_block_throws` — a result that would block ends every loop it meets;
    • `harmless_iff` — whole loops: such results change nothing exactly when
      the loop has ended before the first of them.
-/
import Aos.Lib.Loop
import Aos.Net.Smtp.ClientIO

namespace Aos.SMTP_Client_IO

open Lib.Loop

/-! ## §1. The loop. -/

/-- What `recv` gives. -/
inductive Recv where
  | data (bytes : Bytes) (hne : bytes ≠ []) (hlt : bytes.length < 2 ^ 63)
  /-- -1, and the error is EWOULDBLOCK -/
  | would_block
  /-- 0, where the last error of an earlier call is EWOULDBLOCK -/
  | nothing
  /-- less than 1, and the last error is another one -/
  | failed (n : Int) (hn : n < 1)

namespace Recv

def n_recv : Recv → Int
  | .data bytes _ _ => bytes.length
  | .would_block => -1
  | .nothing => 0
  | .failed n _ => n

def bytes : Recv → Bytes
  | .data bytes _ _ => bytes
  | _ => []

/-- `ACE_OS::last_error() != EWOULDBLOCK`; it is asked only of a result below 1. -/
def other_error : Recv → Bool
  | .failed _ _ => true
  | _ => false

def is_would_block : Recv → Bool
  | .would_block => true
  | _ => false

end Recv

/-- `std::string::max_size()`; `append` throws `std::length_error` where it is exceeded. -/
def STRING_MAX : Nat := 2 ^ 63 - 1

/-- How a loop is left. -/
inductive Outcome where
  /-- the reply is complete: its code, where `atoi` has a value -/
  | replied (code : Option Int) (io : SMTP_Client_IO)
  /-- an error of `recv`: the value returned -/
  | failed (n_io : Int) (io : SMTP_Client_IO)
  /-- an exception, with the length the block has then -/
  | thrown (io : SMTP_Client_IO) (length : UInt64)
  /-- a read behind the end of the string -/
  | undefined
  /-- `recv` does not return -/
  | waiting (io : SMTP_Client_IO)

structure Loop_State (B : Type) where
  io : SMTP_Client_IO
  mb : B
  n_recv : Int
  /-- what `recv` is going to give -/
  results : List Recv

section Loop

variable {B : Type} (MB : Input_Block B) (n_io : Int)

/-- Behind the loop: `if ( n_recv < 1 ) return n_io; return parse_cmd_response();` -/
def leave (io : SMTP_Client_IO) (n_recv : Int) : Outcome :=
  if n_recv < 1 then .failed n_io io else .replied io.parse_cmd_response io

/-- "process buffer" -/
def process (s : Loop_State B) : Loop_State B ⊕ Outcome :=
  if MB.length s.mb > 0 then
    if s.io.buf_.length + (MB.length s.mb).toNat > STRING_MAX then
      .inr (.thrown s.io (MB.length s.mb))
    else
      match s.io.read_line (MB.text s.mb) 0 with
      | none => .inr .undefined
      | some (io, _, _) => .inl { s with io := io, mb := MB.rd_ptr s.mb (MB.length s.mb).toNat }
  else .inl s

/-- One pass of `while( this->read_state() != SMTP_Client_IO::RD_OK )`. -/
def response_pass (s : Loop_State B) : Loop_State B ⊕ Outcome :=
  if s.io.rd_state_ = .RD_OK then .inr (leave n_io s.io s.n_recv)
  else if MB.length s.mb = 0 then
    -- buffer consumed, read more...
    match s.results with
    | [] => .inr (.waiting s.io)
    | r :: results =>
        let mb := MB.reset s.mb
        if r.n_recv < 1 ∧ r.other_error = true then .inr (leave n_io s.io r.n_recv)
        else
          process MB ⟨s.io, MB.wr_ptr (MB.store mb r.bytes) (UInt64.ofInt r.n_recv), r.n_recv,
            results⟩
  else process MB s

/-- `this->read_reset(mb)`, in front of the loop. -/
def response_start (io : SMTP_Client_IO) (mb : B) (results : List Recv) : Loop_State B :=
  ⟨io.read_reset, MB.reset mb, -1, results⟩

/-- The loop is left with `o`. -/
def Response (io : SMTP_Client_IO) (mb : B) (results : List Recv) (o : Outcome) : Prop :=
  Ends (response_pass MB n_io) (response_start MB io mb results) o

/-! ## §2. The commands. -/

variable (io : SMTP_Client_IO) (mb : B) (n_send : Int) (results : List Recv) (o : Outcome)

/-- What all commands do: a command that is in the block is sent, and where `send_n` succeeds
    the response is read. -/
def Exchange (cmd : B × Write) : Prop :=
  if cmd.2 = .WR_OK ∧ n_send ≥ 1 then Response MB (-2) io cmd.1 results o
  else o = .failed (-1) io

def Greetings : Prop := Response MB (-1) io mb results o

def Helo (host : Bytes) : Prop :=
  Exchange MB io n_send results o (cmd_helo MB.toMessage_Block mb host)

def Ehlo (host : Bytes) : Prop :=
  Exchange MB io n_send results o (cmd_ehlo MB.toMessage_Block mb host)

def Starttls : Prop := Exchange MB io n_send results o (cmd_starttls MB.toMessage_Block mb)

def Mail_From (email : Bytes) (size : Int) : Prop :=
  Exchange MB io n_send results o (cmd_mail_from MB.toMessage_Block mb email size)

def Rcpt_To (email : Bytes) : Prop :=
  Exchange MB io n_send results o (cmd_rcpt_to MB.toMessage_Block mb email)

def Data : Prop := Exchange MB io n_send results o (cmd_data MB.toMessage_Block mb)

def Data_Completed : Prop :=
  Exchange MB io n_send results o (cmd_data_completed MB.toMessage_Block mb)

def Rset : Prop := Exchange MB io n_send results o (cmd_rset MB.toMessage_Block mb)

def Noop : Prop := Exchange MB io n_send results o (cmd_noop MB.toMessage_Block mb)

def Quit : Prop := Exchange MB io n_send results o (cmd_quit MB.toMessage_Block mb)

def Auth (scheme : Bytes) (arg : Option Bytes) : Prop :=
  Exchange MB io n_send results o (cmd_auth MB.toMessage_Block mb scheme arg)

/-- `bdat(.., buf, len, last)`: `n_data` is what `write_data` gives for the message. -/
def Bdat (len : Nat) (last : Bool) (n_data : Int) : Prop :=
  let cmd := cmd_bdat MB.toMessage_Block mb len last
  if cmd.2 = .WR_OK ∧ n_send ≥ 1 then
    if n_data ≥ 1 then Response MB (-3) io cmd.1 results o else o = .failed (-2) io
  else o = .failed (-1) io

/-- `auth_login(.., user, pass)`, a loop behind each of three messages: `n_user` and `n_pass`
    are what `send_n` gives for the last two, `users` and `passes` what `recv` gives behind
    them.  Neither of the first two codes is looked at. -/
def Auth_Login (n_user n_pass : Int) (users passes : List Recv) : Prop :=
  let cmd := cmd_auth MB.toMessage_Block mb (lit "LOGIN") none
  if cmd.2 = .WR_OK ∧ n_send ≥ 1 then
    ∃ o₁, Response MB (-2) io cmd.1 results o₁ ∧
      match o₁ with
      | .replied _ io =>
          if n_user ≥ 1 then
            ∃ o₂, Response MB (-4) io cmd.1 users o₂ ∧
              match o₂ with
              | .replied _ io =>
                  if n_pass ≥ 1 then Response MB (-6) io cmd.1 passes o else o = .failed (-5) io
              | o₂ => o = o₂
          else o = .failed (-3) io
      | o₁ => o = o₁
  else o = .failed (-1) io

end Loop

/-! ## §3. What a loop comes to. -/

/-- A buffer with which the loop is left: a reply that is complete, or one that is read
    behind its end, or a string that is too long. -/
def Stops (buf : Bytes) : Prop :=
  buf.length > STRING_MAX ∨ (buf.getLast? = some LF ∧ wants_more buf ≠ some true)

/-- What the results come to, where the block is empty and `io` waits for more. -/
def verdict (n_io : Int) : SMTP_Client_IO → List Recv → Outcome
  | io, [] => .waiting io
  | io, .failed _ _ :: _ => .failed n_io io
  | io, .nothing :: results => verdict n_io io results
  | io, .would_block :: _ => .thrown io (UInt64.ofInt (-1))
  | io, .data bytes _ _ :: results =>
      if io.buf_.length + bytes.length > STRING_MAX then .thrown io (UInt64.ofNat bytes.length)
      else
        match io.read_line bytes 0 with
        | none => .undefined
        | some (io, _, _) =>
            if io.rd_state_ = .RD_OK then .replied io.parse_cmd_response io
            else verdict n_io io results

/-- **What `read_line` does with data**: the reply ends here, or there is more to come. -/
theorem read_line_cases {io : SMTP_Client_IO} (hmore : io.rd_state_ = .RD_MORE) {bytes : Bytes}
    (hne : bytes ≠ []) :
    (((io.buf_ ++ bytes).getLast? = some LF ∧ wants_more (io.buf_ ++ bytes) ≠ some true) ∧
      ∀ io' line rest, io.read_line bytes 0 = some (io', line, rest) → io'.rd_state_ = .RD_OK) ∨
    (¬ ((io.buf_ ++ bytes).getLast? = some LF ∧ wants_more (io.buf_ ++ bytes) ≠ some true) ∧
      io.read_line bytes 0 = some (⟨io.buf_ ++ bytes, .RD_MORE⟩, [], [])) := by
  have hpos : bytes.length > 0 := List.length_pos_iff.mpr hne
  have hlen : 0 < (io.buf_ ++ bytes).length := by
    rw [List.length_append]
    omega
  obtain ⟨last, hlast⟩ : ∃ last, (io.buf_ ++ bytes).getLast? = some last :=
    Option.isSome_iff_exists.mp (by rw [List.getLast?_isSome]; exact List.length_pos_iff.mp hlen)
  have hindex : index (io.buf_ ++ bytes) ((io.buf_ ++ bytes).length - 1) = some last := by
    unfold index
    rw [if_neg (by omega), ← List.getLast?_eq_getElem?]
    exact hlast
  unfold read_line
  rw [if_neg (not_not.mpr hmore), if_pos hpos, hlast]
  dsimp only
  rw [hindex]
  simp only [Option.bind_eq_bind, Option.bind_some, ne_eq, not_true_eq_false, false_and, or_false,
    Option.some.injEq]
  by_cases hlf : last = LF
  · rw [if_pos hlf, if_pos hlf]
    cases hwants : wants_more (io.buf_ ++ bytes) with
    | none => exact Or.inl ⟨⟨hlf, by simp⟩, fun io' line rest h => absurd h (by simp)⟩
    | some more =>
        cases more with
        | true => exact Or.inr ⟨fun h => h.2 rfl, rfl⟩
        | false =>
            refine Or.inl ⟨⟨hlf, by simp⟩, fun io' line rest h => ?_⟩
            obtain ⟨rfl, _⟩ := Prod.mk.inj (Option.some.inj h)
            rfl
  · rw [if_neg hlf]
    exact Or.inr ⟨fun h => hlf h.1, rfl⟩

section Verdict

variable {B : Type} (MB : Input_Block B) (n_io : Int)

/-- **A result that would block** ends every loop it meets: with an exception. -/
theorem would_block_throws (s : Loop_State B) (results : List Recv)
    (hmore : s.io.rd_state_ = .RD_MORE) (hlength : MB.length s.mb = 0)
    (hresults : s.results = .would_block :: results) :
    response_pass MB n_io s = .inr (.thrown s.io (UInt64.ofInt (-1))) := by
  have hpointer : MB.length (MB.wr_ptr (MB.store (MB.reset s.mb) []) (UInt64.ofInt (-1)))
      = UInt64.ofInt (-1) := by
    rw [MB.length_wr_ptr, MB.length_store, MB.length_reset]
    rfl
  have hlong : s.io.buf_.length + (UInt64.ofInt (-1)).toNat > STRING_MAX := by
    have hnum : (UInt64.ofInt (-1)).toNat = 2 ^ 64 - 1 := by decide
    rw [hnum]
    unfold STRING_MAX
    omega
  unfold response_pass
  rw [if_neg (by rw [hmore]; decide), if_pos hlength, hresults]
  show process MB ⟨s.io, MB.wr_ptr (MB.store (MB.reset s.mb) []) (UInt64.ofInt (-1)), -1, results⟩
    = _
  unfold process
  dsimp only
  rw [hpointer, if_pos (by decide), if_pos hlong]

/-- A pass that receives something, or nothing, over an empty block. -/
theorem response_pass_next {io : SMTP_Client_IO} (hmore : io.rd_state_ = .RD_MORE) {mb : B}
    (hlength : MB.length mb = 0) (n_recv : Int) (r : Recv) (results : List Recv) :
    response_pass MB n_io ⟨io, mb, n_recv, r :: results⟩ =
      if r.n_recv < 1 ∧ r.other_error = true then .inr (leave n_io io r.n_recv)
      else process MB ⟨io, MB.wr_ptr (MB.store (MB.reset mb) r.bytes)
        (UInt64.ofInt r.n_recv), r.n_recv, results⟩ := by
  unfold response_pass
  rw [if_neg (by rw [hmore]; decide), if_pos hlength]

/-- Nothing received: the block stays empty. -/
theorem nothing_received {io : SMTP_Client_IO} (hmore : io.rd_state_ = .RD_MORE) {mb : B}
    (hlength : MB.length mb = 0) (n_recv : Int) (results : List Recv) :
    ∃ mb', MB.length mb' = 0 ∧ MB.size mb' = MB.size mb ∧
      response_pass MB n_io ⟨io, mb, n_recv, .nothing :: results⟩ = .inl ⟨io, mb', 0, results⟩ := by
  have hzero : MB.length (MB.wr_ptr (MB.store (MB.reset mb) []) (UInt64.ofInt 0)) = 0 := by
    rw [MB.length_wr_ptr, MB.length_store, MB.length_reset]
    rfl
  refine ⟨MB.wr_ptr (MB.store (MB.reset mb) []) (UInt64.ofInt 0), hzero, ?_, ?_⟩
  · rw [MB.size_wr_ptr, MB.size_store, MB.size_reset]
  · rw [response_pass_next MB n_io hmore hlength, if_neg (fun h => absurd h.2 (by decide))]
    unfold process
    exact if_neg (by
      show ¬ MB.length (MB.wr_ptr (MB.store (MB.reset mb) []) (UInt64.ofInt 0)) > 0
      rw [hzero]
      decide)

/-- **Data received**: the block holds these bytes, and `read_line` gets all of them. -/
theorem data_received {io : SMTP_Client_IO} (hmore : io.rd_state_ = .RD_MORE) {mb : B}
    (hlength : MB.length mb = 0) (n_recv : Int) (results : List Recv) {bytes : Bytes}
    (hne : bytes ≠ []) (hlt : bytes.length < 2 ^ 63) (hfit : bytes.length ≤ MB.size mb) :
    ∃ mb', MB.length mb' = 0 ∧ MB.size mb' = MB.size mb ∧
      response_pass MB n_io ⟨io, mb, n_recv, .data bytes hne hlt :: results⟩ =
        if io.buf_.length + bytes.length > STRING_MAX then
          .inr (.thrown io (UInt64.ofNat bytes.length))
        else
          match io.read_line bytes 0 with
          | none => .inr .undefined
          | some (io', _, _) => .inl ⟨io', mb', bytes.length, results⟩ := by
  have hpos := List.length_pos_iff.mpr hne
  have hnat : (UInt64.ofNat bytes.length).toNat = bytes.length := by
    rw [UInt64.toNat_ofNat', Nat.mod_eq_of_lt (by omega)]
  have hsize : UInt64.ofInt (bytes.length : Int) = UInt64.ofNat bytes.length := by
    apply UInt64.toNat_inj.mp
    unfold UInt64.ofInt
    rw [UInt64.toNat_ofNat', UInt64.toNat_ofNat']
    omega
  -- the block behind `recv`
  have hlen : MB.length (MB.wr_ptr (MB.store (MB.reset mb) bytes) (UInt64.ofNat bytes.length))
      = UInt64.ofNat bytes.length := by
    rw [MB.length_wr_ptr, MB.length_store, MB.length_reset, UInt64.zero_add]
  have htext : MB.text (MB.wr_ptr (MB.store (MB.reset mb) bytes) (UInt64.ofNat bytes.length))
      = bytes := by
    rw [MB.text_wr_ptr, MB.text_reset, List.nil_append]
    rw [MB.space_reset]
    exact hfit
  have hgt : UInt64.ofNat bytes.length > 0 := by
    rw [gt_iff_lt, UInt64.lt_iff_toNat_lt, hnat]
    exact hpos
  have hpass : response_pass MB n_io ⟨io, mb, n_recv, .data bytes hne hlt :: results⟩ =
      process MB ⟨io, MB.wr_ptr (MB.store (MB.reset mb) bytes) (UInt64.ofNat bytes.length),
        bytes.length, results⟩ := by
    rw [response_pass_next MB n_io hmore hlength,
      if_neg (fun h => absurd h.2 (by simp [Recv.other_error])), ← hsize]
    rfl
  refine ⟨MB.rd_ptr (MB.wr_ptr (MB.store (MB.reset mb) bytes) (UInt64.ofNat bytes.length))
    bytes.length, ?_, ?_, ?_⟩
  · rw [MB.length_rd_ptr, hlen, UInt64.sub_self]
  · rw [MB.size_rd_ptr, MB.size_wr_ptr, MB.size_store, MB.size_reset]
  · rw [hpass]
    unfold process
    dsimp only
    rw [hlen, if_pos hgt, htext, hnat]

/-- **The loop ends**, with what the results come to.  The induction is on the results; the
    block is empty at the start of each pass. -/
theorem response_ends (results : List Recv) : ∀ (io : SMTP_Client_IO) (mb : B) (n_recv : Int),
    io.rd_state_ = .RD_MORE → MB.length mb = 0 →
      (∀ bytes hne hlt, .data bytes hne hlt ∈ results → bytes.length ≤ MB.size mb) →
        Ends (response_pass MB n_io) ⟨io, mb, n_recv, results⟩ (verdict n_io io results) := by
  induction results with
  | nil =>
      intro io mb n_recv hmore hlength _
      refine (ends_exit _ (r := .waiting io) ?_).mpr rfl
      unfold response_pass
      rw [if_neg (by rw [hmore]; decide), if_pos hlength]
  | cons r results ih =>
      intro io mb n_recv hmore hlength hfit
      have hrest : ∀ mb' : B, MB.size mb' = MB.size mb →
          ∀ bytes hne hlt, .data bytes hne hlt ∈ results → bytes.length ≤ MB.size mb' :=
        fun mb' hsize bytes hne hlt hmem =>
          hsize ▸ hfit bytes hne hlt (List.mem_cons_of_mem r hmem)
      cases r with
      | failed n hn =>
          have hpass := response_pass_next MB n_io hmore hlength n_recv (.failed n hn) results
          rw [if_pos ⟨hn, rfl⟩] at hpass
          refine (ends_exit _ hpass).mpr ?_
          unfold leave
          exact (if_pos hn).symm
      | would_block =>
          exact (ends_exit _ (would_block_throws MB n_io _ results hmore hlength rfl)).mpr rfl
      | nothing =>
          obtain ⟨mb', hlength', hsize, hpass⟩ :=
            nothing_received MB n_io hmore hlength n_recv results
          rw [ends_next _ hpass]
          exact ih io mb' 0 hmore hlength' (hrest mb' hsize)
      | data bytes hne hlt =>
          obtain ⟨mb', hlength', hsize, hpass⟩ := data_received MB n_io hmore hlength n_recv results
            hne hlt (hfit bytes hne hlt List.mem_cons_self)
          rw [verdict]
          -- the reply is too long, undefined, complete, or to be continued
          by_cases hlong : io.buf_.length + bytes.length > STRING_MAX
          · rw [if_pos hlong] at hpass ⊢
            exact (ends_exit _ hpass).mpr rfl
          · rw [if_neg hlong] at hpass ⊢
            cases hread : io.read_line bytes 0 with
            | none =>
                rw [hread] at hpass
                exact (ends_exit _ hpass).mpr rfl
            | some r =>
                obtain ⟨io', line, rest⟩ := r
                rw [hread] at hpass
                dsimp only at hpass ⊢
                rw [ends_next _ hpass]
                by_cases hok : io'.rd_state_ = .RD_OK
                · have hpos := List.length_pos_iff.mpr hne
                  rw [if_pos hok]
                  refine (ends_exit _ (r := .replied io'.parse_cmd_response io') ?_).mpr rfl
                  unfold response_pass leave
                  rw [if_pos hok, if_neg (by show ¬ (bytes.length : Int) < 1; omega)]
                · have hmore' : io'.rd_state_ = .RD_MORE := by
                    cases hstate : io'.rd_state_ with
                    | RD_MORE => rfl
                    | RD_OK => exact absurd hstate hok
                  rw [if_neg hok]
                  exact ih io' mb' _ hmore' hlength' (hrest mb' hsize)

end Verdict

/-! ## §4. Where the loop is left. -/

/-- The loop has been left on these results, where `buf` was collected before. -/
def Over : Bytes → List Recv → Prop
  | _, [] => False
  | _, .failed _ _ :: _ => True
  | buf, .data bytes _ _ :: results => Stops (buf ++ bytes) ∨ Over (buf ++ bytes) results
  | buf, _ :: results => Over buf results

/-- A result that would block is met before the loop is left. -/
def Met (buf : Bytes) (results : List Recv) : Prop :=
  ∃ pre rest, results = pre ++ .would_block :: rest ∧ ¬ Over buf pre

theorem met_cons (buf : Bytes) (r : Recv) (results : List Recv) :
    Met buf (r :: results) ↔ r = .would_block ∨
      ∃ pre rest, results = pre ++ .would_block :: rest ∧ ¬ Over buf (r :: pre) := by
  constructor
  · rintro ⟨pre, rest, heq, hover⟩
    cases pre with
    | nil => exact Or.inl (List.cons.inj heq).1
    | cons r' pre =>
        obtain ⟨rfl, hrest⟩ := List.cons.inj heq
        exact Or.inr ⟨pre, rest, hrest, hover⟩
  · rintro (rfl | ⟨pre, rest, rfl, hover⟩)
    · exact ⟨[], results, rfl, id⟩
    · exact ⟨r :: pre, rest, rfl, hover⟩

section Met

variable (n_io : Int)

/-- **Met before the end**, such a result is the end. -/
theorem verdict_of_met (results : List Recv) : ∀ io : SMTP_Client_IO, io.rd_state_ = .RD_MORE →
    Met io.buf_ results → ∃ io', verdict n_io io results = .thrown io' (UInt64.ofInt (-1)) := by
  induction results with
  | nil =>
      rintro io _ ⟨pre, rest, heq, _⟩
      exact absurd heq (by simp)
  | cons r results ih =>
      intro io hmore hmet
      rw [met_cons] at hmet
      cases r with
      | would_block => exact ⟨io, rfl⟩
      | failed n hn =>
          rcases hmet with h | ⟨pre, rest, _, hover⟩
          · exact absurd h (by simp)
          · exact absurd trivial hover
      | nothing =>
          rcases hmet with h | ⟨pre, rest, heq, hover⟩
          · exact absurd h (by simp)
          · exact ih io hmore ⟨pre, rest, heq, hover⟩
      | data bytes hne hlt =>
          rcases hmet with h | ⟨pre, rest, heq, hover⟩
          · exact absurd h (by simp)
          · rw [Over, not_or] at hover
            obtain ⟨hgoes, hover⟩ := hover
            unfold Stops at hgoes
            -- the reply goes on: no end in it, and not too long
            rw [not_or, List.length_append] at hgoes
            obtain ⟨hshort, hopen⟩ := hgoes
            rcases read_line_cases hmore hne with ⟨hends, _⟩ | ⟨_, hread⟩
            · exact absurd hends hopen
            · rw [verdict, if_neg hshort, hread]
              exact ih ⟨io.buf_ ++ bytes, .RD_MORE⟩ rfl ⟨pre, rest, heq, hover⟩

/-- **Not met**, it may as well be left out. -/
theorem verdict_of_not_met (results : List Recv) : ∀ io : SMTP_Client_IO,
    io.rd_state_ = .RD_MORE → ¬ Met io.buf_ results →
      verdict n_io io (results.filter fun r => ! r.is_would_block) = verdict n_io io results := by
  induction results with
  | nil => intro io _ _; rfl
  | cons r results ih =>
      intro io hmore hnot
      rw [met_cons, not_or] at hnot
      obtain ⟨hr, hrest⟩ := hnot
      cases r with
      | would_block => exact absurd rfl hr
      | failed n hn => rfl
      | nothing => exact ih io hmore hrest
      | data bytes hne hlt =>
          rw [List.filter_cons_of_pos (by rfl), verdict, verdict]
          split_ifs with hlong
          · rfl
          · rcases read_line_cases hmore hne with ⟨_, hok⟩ | ⟨hopen, hread⟩
            · -- the loop is left here, or the read is undefined
              cases hread : io.read_line bytes 0 with
              | none => rfl
              | some r =>
                  obtain ⟨io', line, rest⟩ := r
                  dsimp only
                  rw [if_pos (hok io' line rest hread), if_pos (hok io' line rest hread)]
            · rw [hread]
              dsimp only
              rw [if_neg (by simp), if_neg (by simp)]
              refine ih ⟨io.buf_ ++ bytes, .RD_MORE⟩ rfl ?_
              rintro ⟨pre, rest, heq, hover⟩
              refine hrest ⟨pre, rest, heq, ?_⟩
              rw [Over, not_or]
              refine ⟨?_, hover⟩
              unfold Stops
              rw [not_or, List.length_append]
              exact ⟨hlong, hopen⟩

/-- Without such results no block has 2⁶⁴ - 1 bytes. -/
theorem verdict_not_thrown (results : List Recv) : ∀ io : SMTP_Client_IO,
    (∀ r ∈ results, r.is_would_block = false) →
      ∀ io', verdict n_io io results ≠ .thrown io' (UInt64.ofInt (-1)) := by
  induction results with
  | nil => intro io _ io' h; exact Outcome.noConfusion h
  | cons r results ih =>
      intro io hnone io'
      have hrest : ∀ r ∈ results, r.is_would_block = false :=
        fun r' hr' => hnone r' (List.mem_cons_of_mem r hr')
      cases r with
      | would_block => exact absurd (hnone _ List.mem_cons_self) (by decide)
      | failed n hn => exact fun h => Outcome.noConfusion h
      | nothing => exact ih io hrest io'
      | data bytes hne hlt =>
          rw [verdict]
          split_ifs with hlong
          · intro h
            have hlen := congrArg UInt64.toNat (Outcome.thrown.inj h).2
            rw [UInt64.toNat_ofNat', Nat.mod_eq_of_lt (by omega)] at hlen
            have hnum : (UInt64.ofInt (-1)).toNat = 2 ^ 64 - 1 := by decide
            omega
          · cases io.read_line bytes 0 with
            | none => exact fun h => Outcome.noConfusion h
            | some r =>
                obtain ⟨io₁, line, rest⟩ := r
                dsimp only
                split_ifs with hok
                · exact fun h => Outcome.noConfusion h
                · exact ih io₁ hrest io'

end Met

/-! ## §5. Whole loops. -/

section Harmless

variable {B : Type} (MB : Input_Block B) (n_io : Int)

/-- A result that would block changes nothing: neither the object, nor the distance of the
    pointers. -/
def Unchanged (s : Loop_State B) : Prop :=
  ∃ s', response_pass MB n_io s = .inl s' ∧ s'.io = s.io ∧ MB.length s'.mb = MB.length s.mb

/-- **What is asked of a loop**: no result that would block changes anything where it is met,
    and the loop comes to what it comes to on the other results. -/
def Harmless (io : SMTP_Client_IO) (mb : B) (results : List Recv) : Prop :=
  (∀ s rest, Passes (response_pass MB n_io) (response_start MB io mb results) s →
    s.io.rd_state_ = .RD_MORE → MB.length s.mb = 0 → s.results = .would_block :: rest →
      Unchanged MB n_io s) ∧
  ∀ o, Response MB n_io io mb results o ↔
    Response MB n_io io mb (results.filter fun r => ! r.is_would_block) o

theorem response_eq_verdict (io : SMTP_Client_IO) (mb : B) (results : List Recv)
    (hfit : ∀ bytes hne hlt, .data bytes hne hlt ∈ results → bytes.length ≤ MB.size mb)
    (o : Outcome) :
    Response MB n_io io mb results o ↔ o = verdict n_io io.read_reset results := by
  have hends := response_ends MB n_io results io.read_reset (MB.reset mb) (-1) rfl
    (MB.length_reset mb) (by rw [MB.size_reset]; exact hfit)
  constructor
  · exact fun h => Ends.unique _ h hends
  · rintro rfl
    exact hends

/-- **Whole loops.**  Results that would block change nothing exactly when none of them is met
    before the loop is left. -/
theorem harmless_iff (io : SMTP_Client_IO) (mb : B) (results : List Recv)
    (hfit : ∀ bytes hne hlt, .data bytes hne hlt ∈ results → bytes.length ≤ MB.size mb) :
    Harmless MB n_io io mb results ↔
      ∀ pre rest, results = pre ++ .would_block :: rest → Over [] pre := by
  have hmet : (∀ pre rest, results = pre ++ .would_block :: rest → Over [] pre) ↔
      ¬ Met [] results := by
    unfold Met
    simp only [not_exists, not_and, not_not]
  have hfit' : ∀ bytes hne hlt, .data bytes hne hlt ∈ results.filter (fun r => ! r.is_would_block) →
      bytes.length ≤ MB.size mb := fun bytes hne hlt hmem =>
    hfit bytes hne hlt (List.mem_filter.mp hmem).1
  have hothers : ∀ r ∈ results.filter (fun r => ! r.is_would_block), r.is_would_block = false := by
    intro r hr
    simpa using (List.mem_filter.mp hr).2
  rw [hmet]
  constructor
  · rintro ⟨_, hsame⟩ hblocked
    obtain ⟨io', hthrown⟩ := verdict_of_met n_io results io.read_reset rfl hblocked
    have hresponse := (response_eq_verdict MB n_io io mb results hfit _).mpr rfl
    rw [hsame, response_eq_verdict MB n_io io mb _ hfit', hthrown] at hresponse
    exact verdict_not_thrown n_io _ io.read_reset hothers io' hresponse.symm
  · intro hnot
    have hverdict := verdict_of_not_met n_io results io.read_reset rfl hnot
    constructor
    · intro s rest hpasses hmore hlength hresults
      -- the loop would end with the exception
      exfalso
      have hthrows := (ends_exit _ (would_block_throws MB n_io s rest hmore hlength hresults)).mpr rfl
      have hstart : Response MB n_io io mb results (.thrown s.io (UInt64.ofInt (-1))) :=
        (Passes.ends_iff _ hpasses _).mpr hthrows
      rw [response_eq_verdict MB n_io io mb results hfit, ← hverdict] at hstart
      exact verdict_not_thrown n_io _ io.read_reset hothers s.io hstart.symm
    · intro o
      rw [response_eq_verdict MB n_io io mb results hfit, response_eq_verdict MB n_io io mb _ hfit',
        hverdict]

/-- **A command** whose loop is not harmed comes to what it comes to on the other results. -/
theorem exchange_of_harmless {io : SMTP_Client_IO} {results : List Recv} {cmd : B × Write}
    (h : Harmless MB (-2) io cmd.1 results) (n_send : Int) (o : Outcome) :
    Exchange MB io n_send results o cmd ↔
      Exchange MB io n_send (results.filter fun r => ! r.is_would_block) o cmd := by
  unfold Exchange
  split_ifs
  · exact h.2 o
  · exact Iff.rfl

/-- A reply, and a result that would block behind it. -/
theorem harmless_iff_behind :
    Harmless offset_block (-1) ⟨[], .RD_OK⟩ (offset_block.new 100)
        [.data (lit "220\n") (by decide) (by decide), .would_block] ↔
      ∀ pre rest, ([.data (lit "220\n") (by decide) (by decide), .would_block] : List Recv)
        = pre ++ .would_block :: rest → Over [] pre :=
  harmless_iff offset_block (-1) ⟨[], .RD_OK⟩ (offset_block.new 100) _ (by
    intro bytes hne hlt hmem
    rcases List.mem_cons.mp hmem with h | h
    · obtain rfl := (Recv.data.inj h)
      decide
    · exact absurd h (by simp))

/-- A result that would block, and the greeting behind it: `append` throws. -/
theorem would_block_harms : ¬ ∀ results : List Recv,
    Harmless offset_block (-1) ⟨[], .RD_MORE⟩ (offset_block.new 100) results := by
  intro h
  have hunchanged := (h [.would_block]).1 (response_start offset_block ⟨[], .RD_MORE⟩
    (offset_block.new 100) [.would_block]) [] Relation.ReflTransGen.refl rfl rfl rfl
  obtain ⟨s', hpass, _⟩ := hunchanged
  rw [would_block_throws offset_block (-1) _ [] rfl rfl rfl] at hpass
  exact absurd hpass (by simp)

end Harmless

end Aos.SMTP_Client_IO
