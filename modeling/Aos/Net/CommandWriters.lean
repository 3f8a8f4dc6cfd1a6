/-
  Aos.Net.CommandWriters — the command writers of the SMTP and IMAP4 clients, on a
  block with unchecked pointers.

  A writer adds what `snprintf` returns to the write pointer and then asks for the
  space that is left.  Behind the end of the block that is not 0 but a very large
  number, so that a line that did not fit is reported as written.

  **`command_respects_iff`**: a writer respects its block exactly when the line is no
  longer than the block.
-/
import Aos.Net.RawBlock
import Aos.Net.Smtp.ClientIO
import Aos.Net.Imap4.ClientIO

namespace Aos

/-! ## §1. The writers of the IMAP4 client. -/

namespace IMAP4_Client_IO

variable {B : Type} (io : IMAP4_Client_IO) (MB : Message_Block B) (mb : B)

/-- `"%s LIST %s %s\r\n"` -/
def cmd_list (reference mbox : Bytes) : B × Write :=
  cmd MB mb (c_str io.tag_ ++ lit " LIST " ++ c_str reference ++ [SP] ++ c_str mbox ++ [CR, LF])

/-- `"%s SELECT %s\r\n"` -/
def cmd_select (mbox : Bytes) : B × Write :=
  cmd MB mb (c_str io.tag_ ++ lit " SELECT " ++ c_str mbox ++ [CR, LF])

/-- `"%s APPEND %s {%d}\r\n"`; `%d` takes the lower half of the `size_t`. -/
def cmd_append (mbox : Bytes) (n_byte : Nat) : B × Write :=
  cmd MB mb (c_str io.tag_ ++ lit " APPEND " ++ c_str mbox ++ [SP, 123] ++
    dec_int (toInt n_byte) ++ [125, CR, LF])

/-- `"%s FETCH %s %s\r\n"` -/
def cmd_fetch (sequence item : Bytes) : B × Write :=
  cmd MB mb (c_str io.tag_ ++ lit " FETCH " ++ c_str sequence ++ [SP] ++ c_str item ++ [CR, LF])

end IMAP4_Client_IO

namespace Raw_Block

/-! ## §2. A line on a block. -/

/-- The write pointer is in the block, and the writer says that it is done exactly when the
    block holds the line. -/
def Respects (mb : Raw_Block) (line : Bytes) (out : Raw_Block) (done : Bool) : Prop :=
  out.wr_ ≤ mb.size_ ∧ (done = true ↔ out.text = line)

/-- **A line in any number of texts: the writer respects the block exactly when the line is no
    longer than the block.**  With the length of the block it is cut off, and reported so. -/
theorem holds_line_iff (mb : Raw_Block) (init : List Bytes) (last : Bytes) {c : Byte}
    (hc : c ≠ NUL) :
    Respects mb (init ++ [last ++ [c]]).flatten
        ((init ++ [last ++ [c]]).foldl print mb.reset)
        (decide (0 < ((init ++ [last ++ [c]]).foldl print mb.reset).space))
      ↔ (init ++ [last ++ [c]]).flatten.length ≤ mb.size_ := by
  generalize hline : (init ++ [last ++ [c]]).flatten = line
  have hwr : ((init ++ [last ++ [c]]).foldl print mb.reset).wr_ = line.length := by
    rw [print_all_wr, hline]
    exact Nat.zero_add _
  have hlen : line.length = init.flatten.length + (last ++ [c]).length := by
    rw [← hline, List.flatten_append, List.length_append, List.flatten_singleton]
  have hlast : 0 < (last ++ [c]).length := by
    rw [List.length_append, List.length_singleton]
    omega
  constructor
  · intro h
    rw [← hwr]
    exact h.1
  · intro hfits
    refine ⟨hwr ▸ hfits, ?_⟩
    rw [decide_eq_true_iff]
    rcases Nat.lt_or_eq_of_le hfits with hlt | heq
    · -- everything is printed, and space is left for the NUL
      obtain ⟨htext, hspace⟩ := SMTP_Client_IO.print_all raw_block (init ++ [last ++ [c]]) mb.reset
        (hline ▸ hlt)
      rw [hline] at htext hspace
      have hleft : ((init ++ [last ++ [c]]).foldl print mb.reset).space
          = mb.size_ - line.length := hspace
      rw [hleft]
      exact ⟨fun _ => htext, fun _ => by omega⟩
    · -- the NUL stands where the last byte should
      obtain ⟨-, hspace⟩ := SMTP_Client_IO.print_all raw_block init mb.reset (by
        show init.flatten.length < mb.size_
        omega)
      have hleft : (init.foldl print mb.reset).space = mb.size_ - init.flatten.length := hspace
      rw [List.foldl_append, List.foldl_cons, List.foldl_nil]
      generalize hmid : init.foldl print mb.reset = mid at *
      obtain ⟨t, ht⟩ := print_full mid (last ++ [c]) (List.append_ne_nil_of_right_ne_nil _
        (List.cons_ne_nil c [])) (by omega)
      have hzero : (mid.print (last ++ [c])).space = 0 := by
        have hback := space_advance mid (mid.snprintf (last ++ [c])) (n := (last ++ [c]).length)
          (by omega)
        show (mid.advance (mid.snprintf (last ++ [c])) (last ++ [c]).length).space = 0
        omega
      rw [hzero, ht]
      constructor
      · intro h
        exact absurd h (lt_irrefl 0)
      · intro h
        have hend : (mid.text ++ t ++ [NUL]).getLast? = line.getLast? := congrArg _ h
        rw [← hline, List.flatten_append, List.flatten_singleton, ← List.append_assoc,
          List.getLast?_concat, List.getLast?_concat] at hend
        exact absurd (Option.some.inj hend).symm hc

end Raw_Block

/-! ## §3. The writers. -/

/-- A command and its arguments. -/
inductive Command
  | cmd_helo (host : Bytes)
  | cmd_mail_from (email : Bytes) (size : Int)
  | cmd_rcpt_to (email : Bytes)
  | cmd_auth (scheme : Bytes) (arg : Option Bytes)
  | cmd_login (user pass : Bytes)
  | cmd_list (reference mbox : Bytes)
  | cmd_select (mbox : Bytes)
  | cmd_append (mbox : Bytes) (n_byte : Nat)
  | cmd_fetch (sequence item : Bytes)

namespace Command

/-- The block behind the writer, and whether it returns `WR_OK`. -/
def write (io : IMAP4_Client_IO) (mb : Raw_Block) : Command → Raw_Block × Bool
  | cmd_helo host => smtp ( SMTP_Client_IO.cmd_helo raw_block mb host)
  | cmd_mail_from email size => smtp ( SMTP_Client_IO.cmd_mail_from raw_block mb email size)
  | cmd_rcpt_to email => smtp ( SMTP_Client_IO.cmd_rcpt_to raw_block mb email)
  | cmd_auth scheme arg => smtp ( SMTP_Client_IO.cmd_auth raw_block mb scheme arg)
  | cmd_login user pass => imap4 (io.cmd_login raw_block mb user pass)
  | cmd_list reference mbox => imap4 (io.cmd_list raw_block mb reference mbox)
  | cmd_select mbox => imap4 (io.cmd_select raw_block mb mbox)
  | cmd_append mbox n_byte => imap4 (io.cmd_append raw_block mb mbox n_byte)
  | cmd_fetch sequence item => imap4 (io.cmd_fetch raw_block mb sequence item)
where
  smtp (r : Raw_Block × SMTP_Client_IO.Write) : Raw_Block × Bool := (r.1, r.2 = .WR_OK)
  imap4 (r : Raw_Block × IMAP4_Client_IO.Write) : Raw_Block × Bool := (r.1, r.2 = .WR_OK)

/-- The complete command line. -/
def line (tag_ : Bytes) : Command → Bytes
  | cmd_helo host => lit "HELO " ++ c_str host ++ lit "\r\n"
  | cmd_mail_from email size =>
      lit "MAIL FROM:<" ++ c_str email ++ lit ">"
        ++ (if size ≥ 0 then lit " SIZE=" ++ dec size.toNat else []) ++ lit "\r\n"
  | cmd_rcpt_to email => lit "RCPT TO:<" ++ c_str email ++ lit ">\r\n"
  | cmd_auth scheme arg =>
      lit "AUTH " ++ c_str scheme ++ (arg.map fun a => lit " " ++ c_str a).getD [] ++ lit "\r\n"
  | cmd_login user pass =>
      c_str tag_ ++ lit " LOGIN " ++ c_str user ++ lit " " ++ c_str pass ++ lit "\r\n"
  | cmd_list reference mbox =>
      c_str tag_ ++ lit " LIST " ++ c_str reference ++ lit " " ++ c_str mbox ++ lit "\r\n"
  | cmd_select mbox => c_str tag_ ++ lit " SELECT " ++ c_str mbox ++ lit "\r\n"
  | cmd_append mbox n_byte =>
      c_str tag_ ++ lit " APPEND " ++ c_str mbox ++ lit " \x7b" ++ dec_int (toInt n_byte)
        ++ lit "\x7d\r\n"
  | cmd_fetch sequence item =>
      c_str tag_ ++ lit " FETCH " ++ c_str sequence ++ lit " " ++ c_str item ++ lit "\r\n"

/-- A writer of the SMTP client: one `snprintf` after the other. -/
theorem smtp_respects (mb : Raw_Block) (init : List Bytes) (last : Bytes) {texts : List Bytes}
    {line : Bytes}
    (htexts : texts = init ++ [last ++ [LF]]) (hline : texts.flatten = line) :
    mb.Respects line (write.smtp ( SMTP_Client_IO.cmd raw_block mb texts)).1
        (write.smtp ( SMTP_Client_IO.cmd raw_block mb texts)).2
      ↔ line.length ≤ mb.size_ := by
  have hdone : (write.smtp ( SMTP_Client_IO.cmd raw_block mb texts)).2
      = decide (0 < (texts.foldl Raw_Block.print mb.reset).space) := by
    show decide ((if (texts.foldl Raw_Block.print mb.reset).space > 0 then SMTP_Client_IO.Write.WR_OK
      else .WR_MORE) = .WR_OK) = _
    split_ifs with h
    · exact (decide_eq_true h).symm
    · exact (decide_eq_false h).symm
  rw [hdone, ← hline, htexts]
  exact Raw_Block.holds_line_iff mb init last (by decide)

/-- A writer of the IMAP4 client: one `snprintf`. -/
theorem imap4_respects (mb : Raw_Block) (last : Bytes) {text line : Bytes}
    (htext : text = last ++ [LF]) (hline : text = line) :
    mb.Respects line (write.imap4 ( IMAP4_Client_IO.cmd raw_block mb text)).1
        (write.imap4 ( IMAP4_Client_IO.cmd raw_block mb text)).2
      ↔ line.length ≤ mb.size_ := by
  have hdone : (write.imap4 ( IMAP4_Client_IO.cmd raw_block mb text)).2
      = decide (0 < (mb.reset.print text).space) := by
    show decide ((if (mb.reset.print text).space > 0 then IMAP4_Client_IO.Write.WR_OK
      else .WR_MORE) = .WR_OK) = _
    split_ifs with h
    · exact (decide_eq_true h).symm
    · exact (decide_eq_false h).symm
  have hone := Raw_Block.holds_line_iff mb [] last (c := LF) (by decide)
  rw [List.nil_append, List.flatten_singleton, ← htext] at hone
  rw [hdone, ← hline]
  exact hone

/-- **Every command writer respects its block exactly when the line is no longer than the
    block.** -/
theorem command_respects_iff (io : IMAP4_Client_IO) (mb : Raw_Block) (command : Command) :
    mb.Respects (command.line io.tag_) (command.write io mb).1 (command.write io mb).2
      ↔ (command.line io.tag_).length ≤ mb.size_ := by
  have hcrlf : lit "\r\n" = [CR, LF] := by decide
  have hsp : lit " " = [SP] := by decide
  have hopen : lit " \x7b" = [SP, 123] := by decide
  have hclose : lit "\x7d\r\n" = [125, CR, LF] := by decide
  have hend : lit ">\r\n" = lit ">" ++ [CR] ++ [LF] := by decide
  cases command with
  | cmd_helo host =>
      exact smtp_respects mb [] (lit "HELO " ++ c_str host ++ [CR])
        (by simp [hcrlf]) (by simp [line])
  | cmd_mail_from email size =>
      refine smtp_respects mb ([lit "MAIL FROM:<" ++ c_str email ++ lit ">"]
        ++ if size ≥ 0 then [lit " SIZE=" ++ dec size.toNat] else []) [CR] ?_ ?_
      · rw [hcrlf]
        rfl
      · by_cases hsize : size ≥ 0 <;> simp [line, hsize]
  | cmd_rcpt_to email =>
      exact smtp_respects mb []
        (lit "RCPT TO:<" ++ c_str email ++ (lit ">" ++ [CR])) (by simp [hend])
        (by simp [line])
  | cmd_auth scheme arg =>
      cases arg with
      | none =>
          exact smtp_respects mb [lit "AUTH " ++ c_str scheme] [CR]
            (by simp [hcrlf]) (by simp [line])
      | some arg =>
          exact smtp_respects mb
            [lit "AUTH " ++ c_str scheme, lit " " ++ c_str arg] [CR]
            (by simp [hcrlf]) (by simp [line])
  | cmd_login user pass =>
      exact imap4_respects mb
        (c_str io.tag_ ++ lit " LOGIN " ++ c_str user ++ [SP] ++ c_str pass ++ [CR])
        (by simp [ IMAP4_Client_IO.login_line])
        (by simp [line, IMAP4_Client_IO.login_line, hcrlf, hsp])
  | cmd_list reference mbox =>
      exact imap4_respects mb
        (c_str io.tag_ ++ lit " LIST " ++ c_str reference ++ [SP] ++ c_str mbox ++ [CR])
        (by simp) (by simp [line, hcrlf, hsp])
  | cmd_select mbox =>
      exact imap4_respects mb (c_str io.tag_ ++ lit " SELECT " ++ c_str mbox ++ [CR])
        (by simp) (by simp [line, hcrlf])
  | cmd_append mbox n_byte =>
      exact imap4_respects mb
        (c_str io.tag_ ++ lit " APPEND " ++ c_str mbox ++ [SP, 123] ++
          dec_int (toInt n_byte) ++ [125, CR])
        (List.append_assoc _ [125, CR] [LF]).symm (by rw [line, hopen, hclose])
  | cmd_fetch sequence item =>
      exact imap4_respects mb
        (c_str io.tag_ ++ lit " FETCH " ++ c_str sequence ++ [SP] ++ c_str item ++ [CR])
        (by simp) (by simp [line, hcrlf, hsp])

/-- A host name of one byte does not fit into five bytes, and is reported as written. -/
theorem helo_overruns :
    ¬ (⟨5, 0, 0, le_rfl, fun _ => NUL⟩ : Raw_Block).Respects (line [] (cmd_helo (lit "a")))
      ((cmd_helo (lit "a")).write ⟨[], [], .RD_MORE, 0⟩ ⟨5, 0, 0, le_rfl, fun _ => NUL⟩).1
      ((cmd_helo (lit "a")).write ⟨[], [], .RD_MORE, 0⟩ ⟨5, 0, 0, le_rfl, fun _ => NUL⟩).2 := by
  rintro ⟨hwithin, -⟩
  exact absurd hwithin (by decide)

end Command

end Aos
