/-
  Aos.Net.Smtp.ClientIO — `SMTP_Client_IO`, the client's side of an SMTP session.

  The object collects the server's reply to a command, and writes commands into
  a block.  Indexing a string behind its end is undefined: a reader that does
  so gives `none`.

  Main results:
    • `reader_ends` — the client's loop ends, whatever comes;
    • `cmd_text` — a command that fits is in the block as it is.
-/
import Aos.Str.Number
import Aos.Lib.Feed
import Aos.Net.MessageBlock

namespace Aos

namespace SMTP_Client_IO

inductive Read where
  | RD_MORE
  | RD_OK
  deriving DecidableEq

inductive Write where
  | WR_MORE
  | WR_OK
  deriving DecidableEq

end SMTP_Client_IO

open SMTP_Client_IO in
structure SMTP_Client_IO where
  buf_ : Bytes
  rd_state_ : Read

namespace SMTP_Client_IO

def read_reset (io : SMTP_Client_IO) : SMTP_Client_IO := { io with rd_state_ := .RD_MORE, buf_ := [] }

/-! ## §1. Reading. -/

/-- `buf_[i]`; behind the last byte stands a NUL. -/
def index (buf : Bytes) (i : Nat) : Option Byte :=
  if i = buf.length then some NUL else buf[i]?

/-- `while( buf_[n] >= 0 && buf_[n] <= 9 ) ++n`, over the bytes from `n` on: the
    NUL behind them is passed too, and what lies behind it is out of bounds. -/
def skip_digits (n : Nat) : Bytes → Option Nat
  | [] => none
  | c :: rest => if schar c ≥ 0 ∧ schar c ≤ 9 then skip_digits (n + 1) rest else some n

/-- `std::string::rfind(c, pos)`. -/
def rfind (s : Bytes) (c : Byte) (pos : Nat) : Option Nat :=
  ((s.take (pos + 1)).reverse.findIdx? (· = c)).map (fun i => (s.take (pos + 1)).length - 1 - i)

/-- The test for a multi-line response, for a buffer that ends with a line end. -/
def wants_more (buf : Bytes) : Option Bool := do
  let n_first ← skip_digits 0 buf
  let first ← index buf n_first
  if first = 45 then
    -- last line starts with digits plus '-', read more
    match rfind buf LF (buf.length - 1) with
    | some n_last =>
        let n_last ← skip_digits (n_last + 1) (buf.drop (n_last + 1))
        let last ← index buf n_last
        some (last = 45)
    | none => some false
  else some false

/-- `read_line(mb, max_size)`: the object, the line, and what is left in the block. -/
def read_line (io : SMTP_Client_IO) (mb : Bytes) (max_size : Nat) :
    Option ( SMTP_Client_IO × Bytes × Bytes) :=
  let buf := if io.rd_state_ ≠ .RD_MORE then [] else io.buf_
  if mb.length > 0 then do
    let buf := buf ++ mb
    let last ← index buf (buf.length - 1)
    if last = LF ∨ (max_size ≠ 0 ∧ buf.length > max_size) then
      let more ← if last = LF then wants_more buf else some false
      if more then some ({ io with buf_ := buf, rd_state_ := .RD_MORE }, [], [])
      else some ({ io with buf_ := buf, rd_state_ := .RD_OK }, buf, [])
    else some ({ io with buf_ := buf, rd_state_ := .RD_MORE }, [], [])
  else some ({ io with buf_ := buf, rd_state_ := .RD_MORE }, [], mb)

/-- Whatever it makes of a block, `read_line` leaves nothing in it. -/
theorem read_line_rest {io io' : SMTP_Client_IO} {mb line rest : Bytes} {max_size : Nat}
    (h : io.read_line mb max_size = some (io', line, rest)) : rest = [] := by
  have hout : ∀ {r : SMTP_Client_IO × Bytes × Bytes}, some r = some (io', line, rest) →
      r.2.2 = rest := fun heq => congrArg (fun r => r.2.2) (Option.some.inj heq)
  unfold read_line at h
  obtain ⟨buf, hbuf⟩ : ∃ buf, buf = (if io.rd_state_ ≠ .RD_MORE then [] else io.buf_) := ⟨_, rfl⟩
  rw [← hbuf] at h
  by_cases hlen : mb.length > 0
  · rw [if_pos hlen] at h
    obtain ⟨last, _, h⟩ := Option.bind_eq_some_iff.mp h
    by_cases hend : last = LF ∨ (max_size ≠ 0 ∧ (buf ++ mb).length > max_size)
    · rw [if_pos hend] at h
      by_cases hlf : last = LF
      · rw [if_pos hlf] at h
        obtain ⟨more, _, h⟩ := Option.bind_eq_some_iff.mp h
        cases more with
        | true => exact (hout h).symm
        | false => exact (hout h).symm
      · rw [if_neg hlf] at h
        exact (hout h).symm
    · rw [if_neg hend] at h
      exact (hout h).symm
  · rw [if_neg hlen] at h
    have hrest : mb = rest := hout h
    rw [← hrest]
    exact List.eq_nil_of_length_eq_zero (by omega)

/-- The loop that reads the response to a command. -/
def reader : Lib.Feed.Reader SMTP_Client_IO Byte where
  read io mb := (io.read_line mb 0).map (fun r => (r.1, r.2.2))
  done io := io.rd_state_ = .RD_OK

/-- **The client's loop ends**, whatever comes. -/
theorem reader_ends : ∀ c : Lib.Feed.Conn SMTP_Client_IO Byte, ∃ r, reader.Runs c r := by
  apply reader.ends_of_progress
  intro io mb io' mb' hmb _ hread
  obtain ⟨⟨io₁, line, rest⟩, hline, hsame⟩ := Option.map_eq_some_iff.mp hread
  have hrest : rest = mb' := congrArg Prod.snd hsame
  rw [← hrest, read_line_rest hline]
  exact Or.inl (List.length_pos_iff.mpr hmb)

/-- `parse_cmd_response()`. -/
def parse_cmd_response (io : SMTP_Client_IO) : Option Int := atoi io.buf_

/-! ## §2. Commands. -/

section Commands

variable {B : Type} (MB : Message_Block B)

/-- Every command: `mb.reset()`, one `snprintf` after the other, and the state by
    the space that is left. -/
def cmd (mb : B) (texts : List Bytes) : B × Write :=
  let mb := texts.foldl MB.print (MB.reset mb)
  (mb, if MB.space mb > 0 then .WR_OK else .WR_MORE)

def cmd_helo (mb : B) (host : Bytes) : B × Write :=
  cmd MB mb [lit "HELO " ++ c_str host ++ lit "\r\n"]

/-- `cmd_mail_from(mb, email, size)`; " SIZE=%lld" is printed of a size only that
    is not negative. -/
def cmd_mail_from (mb : B) (email : Bytes) (size : Int) : B × Write :=
  cmd MB mb ([lit "MAIL FROM:<" ++ c_str email ++ lit ">"] ++
    (if size ≥ 0 then [lit " SIZE=" ++ dec size.toNat] else []) ++ [lit "\r\n"])

def cmd_rcpt_to (mb : B) (email : Bytes) : B × Write :=
  cmd MB mb [lit "RCPT TO:<" ++ c_str email ++ lit ">\r\n"]

def cmd_data (mb : B) : B × Write := cmd MB mb [lit "DATA \r\n"]

def cmd_data_completed (mb : B) : B × Write := cmd MB mb [lit "\r\n.\r\n"]

def cmd_noop (mb : B) : B × Write := cmd MB mb [lit "NOOP \r\n"]

def cmd_rset (mb : B) : B × Write := cmd MB mb [lit "RSET \r\n"]

def cmd_quit (mb : B) : B × Write := cmd MB mb [lit "QUIT \r\n"]

def cmd_ehlo (mb : B) (host : Bytes) : B × Write :=
  cmd MB mb [lit "EHLO " ++ c_str host ++ lit "\r\n"]

def cmd_starttls (mb : B) : B × Write := cmd MB mb [lit "STARTTLS \r\n"]

/-- `cmd_auth(mb, scheme, arg)`; a null `arg` is `none`. -/
def cmd_auth (mb : B) (scheme : Bytes) (arg : Option Bytes) : B × Write :=
  cmd MB mb ([lit "AUTH " ++ c_str scheme] ++
    (match arg with
      | some arg => [lit " " ++ c_str arg]
      | none => []) ++ [lit "\r\n"])

/-- `cmd_bdat(mb, size, last)`; "%u" prints the lower half of a `size_t`. -/
def cmd_bdat (mb : B) (size : Nat) (last : Bool) : B × Write :=
  cmd MB mb ([lit "BDAT " ++ dec (size % 2 ^ 32)] ++ (if last then [lit " LAST"] else []) ++
    [lit "\r\n"])

/-- No command changes the size of the block. -/
theorem cmd_size (mb : B) (texts : List Bytes) : MB.size (cmd MB mb texts).1 = MB.size mb := by
  have hprints : ∀ (texts : List Bytes) (mb : B),
      MB.size (texts.foldl MB.print mb) = MB.size mb := by
    intro texts
    induction texts with
    | nil => exact fun mb => rfl
    | cons s texts ih =>
        intro mb
        rw [List.foldl_cons, ih, MB.size_print]
  show MB.size (texts.foldl MB.print (MB.reset mb)) = MB.size mb
  rw [hprints, MB.size_reset]

/-- The texts that fit are in the block, one behind the other. -/
theorem print_all (texts : List Bytes) :
    ∀ mb : B, texts.flatten.length < MB.space mb →
      MB.text (texts.foldl MB.print mb) = MB.text mb ++ texts.flatten ∧
      MB.space (texts.foldl MB.print mb) = MB.space mb - texts.flatten.length := by
  induction texts with
  | nil =>
      intro mb _
      rw [List.flatten_nil, List.append_nil]
      exact ⟨rfl, rfl⟩
  | cons s texts ih =>
      intro mb hfit
      rw [List.flatten_cons, List.length_append] at hfit
      obtain ⟨htext, hspace⟩ := MB.print_fits mb s (by omega)
      obtain ⟨htexts, hspaces⟩ := ih (MB.print mb s) (by rw [hspace]; omega)
      rw [List.foldl_cons, List.flatten_cons, List.length_append]
      refine ⟨?_, ?_⟩
      · rw [htexts, htext, List.append_assoc]
      · rw [hspaces, hspace]
        omega

/-- **A command that fits is in the block.** -/
theorem cmd_text (mb : B) (texts : List Bytes) (h : texts.flatten.length < MB.size mb) :
    MB.text (cmd MB mb texts).1 = texts.flatten ∧ (cmd MB mb texts).2 = .WR_OK := by
  have hspace := MB.space_reset mb
  obtain ⟨htext, hleft⟩ := print_all MB texts (MB.reset mb) (by rw [hspace]; exact h)
  unfold cmd
  refine ⟨?_, ?_⟩
  · show MB.text (texts.foldl MB.print (MB.reset mb)) = _
    rw [htext, MB.text_reset, List.nil_append]
  · show (if MB.space (texts.foldl MB.print (MB.reset mb)) > 0 then _ else _) = _
    rw [if_pos (by omega)]

end Commands

end SMTP_Client_IO

end Aos
