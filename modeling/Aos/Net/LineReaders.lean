/-
  Aos.Net.LineReaders — the servers' line readers read a stream exactly.

  `SMTP_Server_IO::read_line` without a size limit and
  `IMAP4_Server_IO::read_cmd` are one reader: the buffer is emptied by the call
  behind a complete line, and by no other.

  Main results:
    • `line_reader` — each of the two obeys the laws of a line reader;
    • `line_readers_exact` — what they report, over any stream in any chunks.
-/
import Aos.Net.Smtp.ServerIO
import Aos.Net.Imap4.ServerIO
import Aos.Lib.LineReader

namespace Aos

open Lib Lib.Loop Lib.Lines

/-! ## §1. The two readers. -/

namespace SMTP_Server_IO

/-- The part of a line that has been read. -/
def pending (io : SMTP_Server_IO) : Bytes := if io.rd_state_ ≠ .RD_MORE then [] else io.buf_

/-- Without a size limit a line is collected. -/
theorem read_line_collect (io : SMTP_Server_IO) (mb : Bytes) :
    io.read_line mb 0
      = ({ io with
            buf_ := (collect_line io.pending mb).buf
            rd_state_ := if (collect_line io.pending mb).complete then .RD_OK else .RD_MORE },
          (collect_line io.pending mb).line, (collect_line io.pending mb).rest) := by
  unfold read_line collect_line
  simp only [ne_eq, not_true_eq_false, false_and, or_false]
  by_cases hpos : (get_line mb LF).length > 0
  · rw [if_pos hpos, if_pos hpos]
    by_cases hlast : (get_line mb LF).getLast? = some LF
    · rw [if_pos hlast, if_pos hlast]
      rfl
    · rw [if_neg hlast, if_neg hlast]
      rfl
  · rw [if_neg hpos, if_neg hpos]
    rfl

def line_reader : LineReader SMTP_Server_IO Byte LF where
  read io mb := ((io.read_line mb 0).1, (io.read_line mb 0).2.2)
  ok io := io.rd_state_ = .RD_OK
  line io := io.buf_
  pending := pending
  part io mb hne hlf := by
    rw [read_line_collect, collect_line_part _ mb hne hlf]
    exact ⟨rfl, rfl, rfl⟩
  whole io t rest hlf := by
    rw [read_line_collect, collect_line_whole _ t rest hlf]
    exact ⟨rfl, (List.append_assoc _ _ _).symm, rfl, rfl⟩

end SMTP_Server_IO

namespace IMAP4_Server_IO

def line_reader : LineReader IMAP4_Server_IO Byte LF where
  read io mb := ((io.read_cmd mb).1, (io.read_cmd mb).2.2)
  ok io := io.rd_state_ = .RD_OK
  line io := io.buf_
  pending := pending
  part io mb hne hlf := by
    unfold read_cmd
    rw [collect_line_part _ mb hne hlf]
    exact ⟨rfl, rfl, rfl⟩
  whole io t rest hlf := by
    unfold read_cmd
    rw [collect_line_whole _ t rest hlf]
    exact ⟨rfl, (List.append_assoc _ _ _).symm, rfl, rfl⟩

end IMAP4_Server_IO

/-! ## §2. Streams. -/

/-- A reader that holds a part of a line wants more of it. -/
theorem smtp_pending_more {io : SMTP_Server_IO} (h : io.pending ≠ []) :
    io.rd_state_ = .RD_MORE ∧ io.buf_ = io.pending := by
  unfold SMTP_Server_IO.pending at h ⊢
  split at h
  · exact absurd rfl h
  · rename_i hmore
    rw [if_neg hmore]
    exact ⟨not_not.mp hmore, rfl⟩

theorem imap_pending_more {io : IMAP4_Server_IO} (h : io.pending ≠ []) :
    io.rd_state_ = .RD_MORE ∧ io.buf_ = io.pending := by
  unfold IMAP4_Server_IO.pending at h ⊢
  split at h
  · exact absurd rfl h
  · rename_i hmore
    rw [if_neg hmore]
    exact ⟨not_not.mp hmore, rfl⟩

/-- **The line readers are stream-exact.**  A stream is a sequence of lines and
    a tail without a line feed.  Whatever the chunks, the contents of `buf_` at
    the calls that report RD_OK are these lines in order, and the tail is kept:
    in `buf_`, with RD_MORE, unless it is empty. -/
theorem line_readers_exact (chunks : List Bytes) :
    ∃ ls tail, chunks.flatten = ls.flatten ++ tail ∧ (∀ l ∈ ls, IsLine LF l) ∧ LF ∉ tail ∧
      (∀ io : SMTP_Server_IO, ∃ io' : SMTP_Server_IO,
        (∀ r, Ends SMTP_Server_IO.line_reader.pass ⟨io.read_reset, [], chunks, []⟩ r
          ↔ r = ⟨io', [], [], ls⟩) ∧
        io'.pending = tail ∧ (tail ≠ [] → io'.rd_state_ = .RD_MORE ∧ io'.buf_ = tail)) ∧
      (∀ io : IMAP4_Server_IO, ∃ io' : IMAP4_Server_IO,
        (∀ r, Ends IMAP4_Server_IO.line_reader.pass ⟨io.read_reset, [], chunks, []⟩ r
          ↔ r = ⟨io', [], [], ls⟩) ∧
        io'.pending = tail ∧ (tail ≠ [] → io'.rd_state_ = .RD_MORE ∧ io'.buf_ = tail)) := by
  have hno : LF ∉ ([] : Bytes) := List.not_mem_nil
  refine ⟨lines LF chunks.flatten, (cut LF [] chunks.flatten).2,
    (cut_bytes LF chunks.flatten []).symm, cut_isLine LF chunks.flatten [] hno,
    cut_carry LF chunks.flatten [] hno, fun io => ?_, fun io => ?_⟩
  · obtain ⟨io', htail, hruns⟩ := SMTP_Server_IO.line_reader.reads_stream chunks io.read_reset []
    have hpending : io'.pending = (cut LF [] chunks.flatten).2 := htail
    refine ⟨io', hruns, hpending, fun hne => ?_⟩
    rw [← hpending] at hne ⊢
    exact smtp_pending_more hne
  · obtain ⟨io', htail, hruns⟩ := IMAP4_Server_IO.line_reader.reads_stream chunks io.read_reset []
    have hpending : io'.pending = (cut LF [] chunks.flatten).2 := htail
    refine ⟨io', hruns, hpending, fun hne => ?_⟩
    rw [← hpending] at hne ⊢
    exact imap_pending_more hne

end Aos
