/-
  Aos.Mailer.Script — the dialogue of the mailer and the test receiver.

  `SMTP_Mailer_Connection` writes one command in each of its states, and `SMTP_Server`
  has one answer to each of them; RSET is a command it does not know.  Each entry of the
  script is read off the code of both sides here, once for the side that writes it and
  once for the side that reads it.

  Main results:
    • `mailer_writes` — what a complete answer makes the mailer write;
    • `server_answers` — what the server does with a command of the script.
-/
import Aos.Net.Smtp.Service
import Aos.Mailer.DataPhase

namespace Aos

open SMTP_Server_IO (END_OF_DATA Argument parse_cmd parse_addr is_cmd addr)
open SMTP_Client_IO (cmd_text)

namespace SMTP_Delivery

open SMTP_Mailer_Connection (State rank Session MAX_BUF)

/-! ## §1. The script. -/

/-- A job whose addresses are arguments of a command, and whose mail goes into the block
    with its end, which is its first. -/
structure Sendable (job : SMTP_Mailer_Job) : Prop where
  from_ : Argument job.from_
  to_ : Argument job.to_
  from_fits : job.from_.length + 14 < MAX_BUF
  to_fits : job.to_.length + 12 < MAX_BUF
  eml_fits : job.eml.length + 5 ≤ MAX_BUF
  ends_once : ∀ pre, pre <+: job.eml ++ END_OF_DATA → pre ≠ job.eml ++ END_OF_DATA →
    ¬ END_OF_DATA <:+ pre

/-- What the mailer writes in a state. -/
def command (job : SMTP_Mailer_Job) : State → Bytes
  | .TRY_HELO => lit "HELO smtp_mailer\r\n"
  | .TRY_RSET => lit "RSET \r\n"
  | .TRY_MAIL_FROM => lit "MAIL FROM:<" ++ job.from_ ++ lit ">\r\n"
  | .TRY_RCPT_TO => lit "RCPT TO:<" ++ job.to_ ++ lit ">\r\n"
  | .TRY_DATA => lit "DATA \r\n"
  | .TRY_DATA_TRANSFER => job.eml ++ END_OF_DATA
  | .TRY_QUIT => lit "QUIT \r\n"
  | _ => []

/-- What the server answers; a connection is answered with the greeting. -/
def answer : State → Bytes
  | .TRY_CONNECT => lit "220 domain.com ESMTP product_name\r\n"
  | .TRY_HELO => lit "250 domain.com\r\n"
  | .TRY_RSET => lit "502 Error: command not recognized\r\n"
  | .TRY_MAIL_FROM => lit "250 OK\r\n"
  | .TRY_RCPT_TO => lit "250 OK\r\n"
  | .TRY_DATA => lit "354 End data with <CR><LF>.<CR><LF>\r\n"
  | .TRY_DATA_TRANSFER => lit "250 OK: queued as <mail_id>\r\n"
  | .TRY_QUIT => lit "221 BYE\r\n"
  | _ => []

/-- The code in front of it. -/
def code : State → Int
  | .TRY_CONNECT => 220
  | .TRY_RSET => 502
  | .TRY_DATA => 354
  | .TRY_QUIT => 221
  | _ => 250

def next : State → State
  | .TRY_CONNECT => .TRY_HELO
  | .TRY_HELO => .TRY_RSET
  | .TRY_RSET => .TRY_MAIL_FROM
  | .TRY_MAIL_FROM => .TRY_RCPT_TO
  | .TRY_RCPT_TO => .TRY_DATA
  | .TRY_DATA => .TRY_DATA_TRANSFER
  | .TRY_DATA_TRANSFER => .TRY_QUIT
  | _ => .INACTIVE

/-- The states in which the mailer waits for an answer. -/
def Talks (st : State) : Prop := st ≠ .INACTIVE ∧ st ≠ .TRY_WAIT

instance (st : State) : Decidable (Talks st) := inferInstanceAs (Decidable (_ ∧ _))

/-- The state of a server that reads the command. -/
def expects : State → SMTP_Server_IO.State
  | .TRY_CONNECT => .START
  | .TRY_HELO => .START
  | .TRY_RCPT_TO => .MAIL
  | .TRY_DATA => .MAIL
  | .TRY_DATA_TRANSFER => .DATA
  | _ => .RESET

/-- The addresses it has stored, once MAIL has cleared those of before. -/
def mails (job : SMTP_Mailer_Job) (st : State) : List Bytes :=
  if rank st = 4 then [job.from_] else [job.from_, job.to_]

/-- Every answer is one line, with its code in front. -/
theorem answer_line {st : State} (h : Talks st) :
    ∃ d rest, answer st = d :: rest ++ [LF] ∧ isdigit d = true ∧ LF ∉ d :: rest ∧
      (answer st).length < MAX_BUF ∧ atoi (answer st) = some (code st) := by
  refine ⟨(answer st).headI, (answer st).tail.dropLast, ?_⟩
  cases st with
  | INACTIVE => exact absurd rfl h.1
  | TRY_WAIT => exact absurd rfl h.2
  | _ => decide

/-! ## §2. What the mailer writes. -/

section Mailer

variable {B : Type} (MB : Message_Block B)

end Mailer

/-! ## §3. What the server answers. -/

/-- The first parameter is the command, whatever comes behind it. -/
theorem is_cmd_push (w s cmd : Bytes) :
    is_cmd ((Multi_String.new.push_back w).push_back s) cmd = is_cmd (Multi_String.new.push_back w) cmd := by
  have hone : (packed [w]).push_back s = packed [w, s] :=
    push_back_packed [w] s
  have hnew : Multi_String.new.push_back w = packed [w] :=
    push_back_packed [] w
  obtain ⟨tail₁, h₁⟩ := (represents_packed [w]).at_ 0 (by simp)
  obtain ⟨tail₂, h₂⟩ := (represents_packed [w, s]).at_ 0 (by simp)
  unfold is_cmd
  rw [hnew, hone, h₁, h₂]
  show (os_strncasecmp (w ++ NUL :: tail₂) cmd 4 == 0) = (os_strncasecmp (w ++ NUL :: tail₁) cmd 4 == 0)
  rw [os_strncasecmp_nul, os_strncasecmp_nul]

theorem count_push (w s : Bytes) : ((Multi_String.new.push_back w).push_back s).count = 2 := rfl

/-- The second parameter, as a C string. -/
theorem param1_push {io : SMTP_Server_IO} {w s : Bytes} (hs : NUL ∉ s)
    (hparams : io.params_ = (Multi_String.new.push_back w).push_back s) : c_str io.param1 = s := by
  have hat := SMTP_Server_IO.param_of_two w s hs
  rw [← hparams] at hat
  obtain ⟨mem, hmem, hstr⟩ := Option.map_eq_some_iff.mp hat
  unfold SMTP_Server_IO.param1
  rw [hmem]
  exact hstr

/-- An address line, as the commands are written and as they are parsed. -/
theorem addr_line (word s : Bytes) :
    word ++ lit "<" ++ s ++ lit ">\r\n" = word ++ addr s [] ++ CR :: [LF] := by
  have hclose : lit ">\r\n" = lit ">" ++ [CR, LF] := by decide
  unfold addr
  rw [hclose]
  simp

/-- The address of such a line. -/
theorem addr_params (w : Bytes) {s : Bytes} (hs : Argument s) :
    (parse_addr (Multi_String.new.push_back w) (addr s [] ++ CR :: [LF])).1
      = (Multi_String.new.push_back w).push_back s := by
  have htrim : trim_set (lit " <>") (addr s []) = s := by
    unfold addr
    rw [List.append_nil, SMTP_Server_IO.trim_brackets hs]
  exact congrArg Prod.fst ( SMTP_Server_IO.addr_gives w hs (by simp) htrim hs.ne)

theorem parse_mail_from {s : Bytes} (hs : Argument s) :
    (parse_cmd (lit "MAIL FROM:<" ++ s ++ lit ">\r\n")).1
      = (Multi_String.new.push_back (lit "MAIL")).push_back s := by
  have hopen : lit "MAIL FROM:<" = lit "MAIL FROM:" ++ lit "<" := by decide
  rw [hopen, addr_line, SMTP_Server_IO.parse_mail, addr_params _ hs]

theorem parse_rcpt_to {s : Bytes} (hs : Argument s) :
    (parse_cmd (lit "RCPT TO:<" ++ s ++ lit ">\r\n")).1
      = (Multi_String.new.push_back (lit "RCPT")).push_back s := by
  have hopen : lit "RCPT TO:<" = lit "RCPT TO:" ++ lit "<" := by decide
  rw [hopen, addr_line, SMTP_Server_IO.parse_rcpt, addr_params _ hs]

theorem parse_helo_host :
    (parse_cmd (lit "HELO smtp_mailer\r\n")).1
      = (Multi_String.new.push_back (lit "HELO")).push_back (lit "smtp_mailer") := by
  decide

/-- A command line is parsed, and dispatched. -/
theorem exec_line {io : SMTP_Server_IO} (h : io.state_ ≠ .DATA) {line : Bytes} (hbuf : io.buf_ = line)
    {params : Multi_String} (hparse : (parse_cmd line).1 = params) :
    io.exec = SMTP_Server_IO.dispatch { io with params_ := params } := by
  unfold SMTP_Server_IO.exec
  dsimp only
  rw [if_pos h, hbuf, hparse]

/-- **What the server does with a command of the script.** -/
theorem server_answers {job : SMTP_Mailer_Job} (hjob : Sendable job) {io : SMTP_Server_IO} {st : State}
    (htalks : Talks st) (hne : st ≠ .TRY_CONNECT) (hstate : io.state_ = expects st)
    (hbuf : io.state_ ≠ .DATA → io.buf_ = command job st)
    (hmails : 4 ≤ rank st → io.emails_ = packed (mails job st)) :
    io.exec.text = answer st ∧ io.exec.io.state_ = expects (next st) ∧
      (4 ≤ rank (next st) → io.exec.io.emails_ = packed (mails job (next st))) ∧
      (io.exec.rc < 0 ↔ st = .TRY_QUIT) := by
  cases st with
  | INACTIVE => exact absurd rfl htalks.1
  | TRY_WAIT => exact absurd rfl htalks.2
  | TRY_CONNECT => exact absurd rfl hne
  | TRY_HELO =>
      have hplain : io.state_ ≠ .DATA := by rw [hstate]; decide
      rw [exec_line hplain (hbuf hplain) parse_helo_host]
      unfold SMTP_Server_IO.dispatch
      dsimp only
      rw [if_pos (by decide), if_pos (by decide)]
      unfold SMTP_Server_IO.helo
      dsimp only
      rw [if_pos (by decide)]
      exact ⟨rfl, rfl, fun h => absurd h (by decide), by simp⟩
  | TRY_RSET =>
      have hplain : io.state_ ≠ .DATA := by rw [hstate]; decide
      have hparse : (parse_cmd (lit "RSET \r\n")).1 = Multi_String.new.push_back (lit "RSET") := by decide
      rw [exec_line hplain (hbuf hplain) hparse]
      unfold SMTP_Server_IO.dispatch
      dsimp only
      rw [if_pos (by decide), if_neg (by decide), if_neg (by decide), if_neg (by decide),
        if_neg (by decide), if_neg (by decide), if_neg (by decide)]
      exact ⟨rfl, hstate, fun h => absurd h (by decide), by simp⟩
  | TRY_MAIL_FROM =>
      have hplain : io.state_ ≠ .DATA := by rw [hstate]; decide
      rw [exec_line hplain (hbuf hplain) (parse_mail_from hjob.from_)]
      unfold SMTP_Server_IO.dispatch
      dsimp only
      rw [count_push, is_cmd_push, is_cmd_push, if_pos (by decide), if_neg (by decide), if_pos (by decide)]
      unfold SMTP_Server_IO.mail
      dsimp only
      rw [if_pos ⟨hstate, by rw [count_push]⟩, param1_push hjob.from_.nul rfl]
      exact ⟨rfl, rfl, fun _ => rfl, by simp⟩
  | TRY_RCPT_TO =>
      have hplain : io.state_ ≠ .DATA := by rw [hstate]; decide
      have hstored : io.emails_ = packed [job.from_] := hmails (by decide)
      rw [exec_line hplain (hbuf hplain) (parse_rcpt_to hjob.to_)]
      unfold SMTP_Server_IO.dispatch
      dsimp only
      rw [count_push, is_cmd_push, is_cmd_push, is_cmd_push, if_pos (by decide), if_neg (by decide),
        if_neg (by decide), if_pos (by decide)]
      unfold SMTP_Server_IO.rcpt
      dsimp only
      rw [if_pos ⟨hstate, by rw [count_push]⟩, param1_push hjob.to_.nul rfl, hstored,
        push_back_packed]
      exact ⟨rfl, rfl, fun _ => rfl, by simp⟩
  | TRY_DATA =>
      have hplain : io.state_ ≠ .DATA := by rw [hstate]; decide
      have hparse : (parse_cmd (lit "DATA \r\n")).1 = Multi_String.new.push_back (lit "DATA") := by decide
      rw [exec_line hplain (hbuf hplain) hparse]
      unfold SMTP_Server_IO.dispatch
      dsimp only
      rw [if_pos (by decide), if_neg (by decide), if_neg (by decide), if_neg (by decide),
        if_pos (by decide)]
      unfold SMTP_Server_IO.data
      dsimp only
      rw [if_pos ⟨hstate, by decide⟩]
      exact ⟨rfl, rfl, fun _ => hmails (by decide), by simp⟩
  | TRY_DATA_TRANSFER =>
      have hdata : io.exec = ({ io with params_ := (parse_cmd io.buf_).1 } : SMTP_Server_IO).data_completed := by
        unfold SMTP_Server_IO.exec
        exact if_neg (not_not.mpr hstate)
      rw [hdata]
      exact ⟨rfl, rfl, fun _ => hmails (by decide), by simp [ SMTP_Server_IO.data_completed]⟩
  | TRY_QUIT =>
      have hplain : io.state_ ≠ .DATA := by rw [hstate]; decide
      have hparse : (parse_cmd (lit "QUIT \r\n")).1 = Multi_String.new.push_back (lit "QUIT") := by decide
      rw [exec_line hplain (hbuf hplain) hparse]
      unfold SMTP_Server_IO.dispatch
      dsimp only
      rw [if_pos (by decide), if_neg (by decide), if_neg (by decide), if_neg (by decide),
        if_neg (by decide), if_neg (by decide), if_pos (by decide)]
      exact ⟨rfl, hstate, fun _ => hmails (by decide), by simp [ SMTP_Server_IO.quit]⟩

end SMTP_Delivery

end Aos
