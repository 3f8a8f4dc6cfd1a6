/-
  Aos.Net.Smtp.ServerIO — `SMTP_Server_IO`, the server's side of an SMTP session.

  The object reads command lines and mail data out of a block, parses a command
  into its parameters, and executes it: a reply is written and the protocol
  state moves on.  A reader takes the bytes between the block's two positions
  and returns what is left of them.

  Main results:
    • `reader_ends` — the server's loop ends, whatever comes.
-/
import Aos.Str.Line
import Aos.Str.Compare
import Aos.Str.Tokenizer
import Aos.Str.MultiString
import Aos.Lib.Feed
import Aos.Net.MessageBlock

namespace Aos

namespace SMTP_Server_IO

/-- The protocol state, with the command that is expected next. -/
inductive State where
  | START -- HELO
  | RESET -- MAIL
  | AUTH
  | SSL
  | MAIL -- RCPT
  | DATA
  deriving DecidableEq

inductive Read where
  | RD_MORE
  | RD_DATA
  | RD_OK
  deriving DecidableEq

inductive Write where
  | WR_MORE
  | WR_OK
  deriving DecidableEq

end SMTP_Server_IO

open SMTP_Server_IO in
structure SMTP_Server_IO where
  state_ : State
  buf_ : Bytes
  rd_state_ : Read
  rd_byte_ : Nat
  wr_state_ : Write
  params_ : Multi_String
  emails_ : Multi_String

namespace SMTP_Server_IO

def open_ (io : SMTP_Server_IO) : SMTP_Server_IO := { io with state_ := .START }

def read_reset (io : SMTP_Server_IO) : SMTP_Server_IO :=
  { io with rd_state_ := .RD_MORE, rd_byte_ := 0, buf_ := [] }

/-! ## §1. Reading. -/

/-- `read_line(mb, max_size)`: the object, the line, and what is left in the block. -/
def read_line (io : SMTP_Server_IO) (mb : Bytes) (max_size : Nat) :
    SMTP_Server_IO × Bytes × Bytes :=
  let buf := if io.rd_state_ ≠ .RD_MORE then [] else io.buf_
  let line := get_line mb LF
  if line.length > 0 then
    let buf := buf ++ line
    if line.getLast? = some LF ∨ (max_size ≠ 0 ∧ buf.length > max_size) then
      ({ io with buf_ := buf, rd_state_ := .RD_OK }, buf, mb.drop line.length)
    else ({ io with buf_ := buf, rd_state_ := .RD_MORE }, line, mb.drop line.length)
  else ({ io with buf_ := buf, rd_state_ := .RD_MORE }, line, mb)

/-- CRLF '.' CRLF. -/
def END_OF_DATA : Bytes := [CR, LF, 46, CR, LF]

/-- `read_data(mb)`: the object, the data, and what is left in the block. -/
def read_data (io : SMTP_Server_IO) (mb : Bytes) : SMTP_Server_IO × Bytes × Bytes :=
  if io.state_ = .DATA then
    let buf := if mb.length ≥ 5 then mb.drop (mb.length - 5) else io.buf_ ++ mb
    let rd_state :=
      -- data end with <CR><LF>.<CR><LF>
      if buf.length ≥ 5 ∧ strncmp (buf.drop (buf.length - 5)) END_OF_DATA 5 = 0 then .RD_OK
      else io.rd_state_
    ({ io with buf_ := buf, rd_byte_ := io.rd_byte_ + mb.length, rd_state_ := rd_state }, mb, [])
  else (io, [], mb)

/-- The server's loop: `read_line` for a command, `read_data` for mail data. -/
def reader : Lib.Feed.Reader SMTP_Server_IO Byte where
  read io mb :=
    if io.state_ ≠ .DATA then
      let r := io.read_line mb 0
      some (r.1, r.2.2)
    else
      let r := io.read_data mb
      some (r.1, r.2.2)
  done io := io.rd_state_ = .RD_OK

/-- A call of `read_line` takes something. -/
theorem read_line_shrinks (io : SMTP_Server_IO) (mb : Bytes) (max_size : Nat) (h : mb ≠ []) :
    (io.read_line mb max_size).2.2.length < mb.length := by
  have hrest : (io.read_line mb max_size).2.2 = mb.drop (get_line mb LF).length := by
    unfold read_line
    simp only
    rw [if_pos (get_line_pos mb LF h)]
    by_cases hend : (get_line mb LF).getLast? = some LF ∨ (max_size ≠ 0 ∧
        ((if io.rd_state_ ≠ .RD_MORE then [] else io.buf_) ++ get_line mb LF).length > max_size)
    · rw [if_pos hend]
    · rw [if_neg hend]
  rw [hrest]
  exact get_line_shrinks mb LF h

/-- **The server's loop ends**, whatever comes. -/
theorem reader_ends : ∀ c : Lib.Feed.Conn SMTP_Server_IO Byte, ∃ r, reader.Runs c r := by
  apply reader.ends_of_progress
  intro io mb io' mb' hmb _ hread
  refine Or.inl ?_
  by_cases hstate : io.state_ = .DATA
  · -- the data is taken as a whole
    have hcall : reader.read io mb = some ((io.read_data mb).1, (io.read_data mb).2.2) :=
      if_neg (fun h => h hstate)
    have hrest : (io.read_data mb).2.2 = [] := by
      unfold read_data
      rw [if_pos hstate]
    rw [hcall, hrest] at hread
    obtain rfl : [] = mb' := congrArg Prod.snd (Option.some.inj hread)
    exact List.length_pos_iff.mpr hmb
  · have hcall : reader.read io mb = some ((io.read_line mb 0).1, (io.read_line mb 0).2.2) :=
      if_pos hstate
    rw [hcall] at hread
    obtain rfl : (io.read_line mb 0).2.2 = mb' := congrArg Prod.snd (Option.some.inj hread)
    exact read_line_shrinks io mb 0 hmb

/-! ## §2. Parsing. -/

/-- `*ptr == '\r' || *ptr == '\n'`. -/
def line_end (c : Byte) : Bool := c = CR ∨ c = LF

/-- The address behind " FROM:" or " TO:", up to the end of the line. -/
def parse_addr (params : Multi_String) (ptr : Bytes) : Multi_String × Int :=
  let str := ptr.takeWhile (fun c => !line_end c)
  if str ≠ [] then
    let email := trim_set (lit " <>") str
    if email ≠ [] then (params.push_back email, 0) else (params, -1)
  else (params, -1)

/-- `strncasecmp(params[0], cmd, 4) == 0`. -/
def is_cmd (params : Multi_String) (cmd : Bytes) : Bool :=
  os_strncasecmp ((params.at_ 0).getD []) cmd 4 == 0

/-- The rest of a command line, from the end of the command on. -/
def parse_args (params : Multi_String) (ptr : Bytes) : Multi_String × Int :=
  if is_cmd params (lit "HELO") then
    let host := (ptr.dropWhile (· = SP)).takeWhile (fun c => !line_end c)
    if host ≠ [] then (params.push_back host, 0) else (params, -1)
  else if is_cmd params (lit "MAIL") then
    if os_strncasecmp ptr (lit " FROM:") 6 = 0 then parse_addr params (ptr.drop 6)
    else (params, -1)
  else if is_cmd params (lit "RCPT") then
    if os_strncasecmp ptr (lit " TO:") 4 = 0 then parse_addr params (ptr.drop 4)
    else (params, -1)
  else (params, 0) -- default command parser

/-- `parse_cmd(params, buf, len)`: the parameters and the result code. -/
def parse_cmd (buf : Bytes) : Multi_String × Int :=
  let toker := ((Char_Tokenizer.new buf).set_separator (lit " \r\n")).next.1
  if toker.token ≠ [] then
    -- store command as params_[0]
    parse_args (Multi_String.new.push_back toker.token) (toker.str.drop toker.end_)
  else (Multi_String.new, -1) -- null command!

/-! ## §3. Executing. -/

/-- What a command does: the object, the text of the reply, the return value. -/
structure Reply where
  io : SMTP_Server_IO
  text : Bytes
  rc : Int

def helo (io : SMTP_Server_IO) : Reply :=
  if io.params_.count ≥ 2 then ⟨{ io with state_ := .RESET }, lit "250 domain.com\r\n", 0⟩
  else ⟨io, lit "501 Syntax: HELO hostname\r\n", 0⟩

/-- `params_[1]`, the memory at the pointer. -/
def param1 (io : SMTP_Server_IO) : Bytes := (io.params_.at_ 1).getD []

def mail (io : SMTP_Server_IO) : Reply :=
  if io.state_ = .RESET ∧ io.params_.count ≥ 2 then
    ⟨{ io with
        state_ := .MAIL
        -- clear any previous addr, store "MAIL FROM:" addr
        emails_ := (io.emails_.clear true).push_back (c_str io.param1) },
      lit "250 OK\r\n", 0⟩
  else ⟨io, lit "501 Syntax: MAIL FROM\r\n", 0⟩

def rcpt (io : SMTP_Server_IO) : Reply :=
  if io.state_ = .MAIL ∧ io.params_.count ≥ 2 then
    ⟨{ io with
        state_ := .MAIL
        emails_ := io.emails_.push_back (c_str io.param1) }, -- store "RCPT TO:" addr
      lit "250 OK\r\n", 0⟩
  else ⟨io, lit "501 Syntax: RCPT TO\r\n", 0⟩

def data (io : SMTP_Server_IO) : Reply :=
  if io.state_ = .MAIL ∧ io.params_.count ≥ 1 then
    ⟨{ io with state_ := .DATA, rd_byte_ := 0 },
      lit "354 End data with <CR><LF>.<CR><LF>\r\n", 0⟩
  else ⟨io, lit "501 Syntax: DATA\r\n", 0⟩

def data_completed (io : SMTP_Server_IO) : Reply :=
  ⟨{ io with state_ := .RESET }, lit "250 OK: queued as <mail_id>\r\n", 0⟩

def noop (io : SMTP_Server_IO) : Reply := ⟨io, lit "250 OK\r\n", 0⟩

def quit (io : SMTP_Server_IO) : Reply := ⟨io, lit "221 BYE\r\n", -1⟩

/-- The commands `exec_cmd` looks for, outside the state DATA. -/
def dispatch (io : SMTP_Server_IO) : Reply :=
  if io.params_.count ≠ 0 then
    if is_cmd io.params_ (lit "HELO") then io.helo
    else if is_cmd io.params_ (lit "MAIL") then io.mail
    else if is_cmd io.params_ (lit "RCPT") then io.rcpt
    else if is_cmd io.params_ (lit "DATA") then io.data
    else if is_cmd io.params_ (lit "NOOP") then io.noop
    else if is_cmd io.params_ (lit "QUIT") then io.quit
    else ⟨io, lit "502 Error: command not recognized\r\n", 0⟩
  else ⟨io, lit "500 Error: bad syntax\r\n", 0⟩ -- null command!

/-- `exec_cmd` up to the writing of the reply. -/
def exec (io : SMTP_Server_IO) : Reply :=
  let io := { io with params_ := (parse_cmd io.buf_).1 }
  if io.state_ ≠ .DATA then io.dispatch
  else io.data_completed -- DATA completed

/-- What every command does with its reply: `mb.reset()`, `snprintf`, and the
    write state by the space that is left. -/
def write {B : Type} (MB : Message_Block B) (r : Reply) (mb : B) : SMTP_Server_IO × B × Int :=
  let mb := MB.print (MB.reset mb) r.text
  ({ r.io with wr_state_ := if MB.space mb > 0 then .WR_OK else .WR_MORE }, mb, r.rc)

/-- `exec_cmd(mb)`. -/
def exec_cmd {B : Type} (MB : Message_Block B) (io : SMTP_Server_IO) (mb : B) :
    SMTP_Server_IO × B × Int :=
  write MB io.exec mb

end SMTP_Server_IO

end Aos
