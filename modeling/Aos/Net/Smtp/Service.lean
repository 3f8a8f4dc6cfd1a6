/-
  Aos.Net.Smtp.Service — one connection of `SMTP_Server::svc()`.

  Behind the greeting the loop reads a command line, or mail data, until there is a
  whole one, executes it and sends the reply.  The block is read into when it is empty,
  and what is left in it is dropped when the next command is waited for.

  Main results:
    • `Reads.recv`    — a piece of a line, or of the data, as it comes in;
    • `respond_sent` — what is sent when all of it is there.
-/
import Aos.Net.LineReaders
import Aos.Net.Smtp.EndOfData
import Aos.Net.Smtp.Wire

namespace Aos

open SMTP_Server_IO (END_OF_DATA exec_cmd Argument)

namespace SMTP_Server

def MAX_BUF : Nat := 4096

/-- Where the loop stands. -/
inductive Place where
  | accepting
  | greeting
  | reading
  | closed
  deriving DecidableEq

/-- What has come in. -/
inductive Action where
  /-- a command line that is executed -/
  | line (buf : Bytes)
  /-- what a call of `read_data` returns -/
  | data (buf : Bytes)
  deriving DecidableEq

structure Service (B : Type) where
  io : SMTP_Server_IO
  mb : B
  place : Place
  log : List Action

/-! ## §1. The loop. -/

section Loop

variable {B : Type} (MB : Message_Block B)

/-- The block, and `io.open()`. -/
def service (io : SMTP_Server_IO) : Service B := ⟨io.open_, MB.new MAX_BUF, .accepting, []⟩

namespace Service

def close (s : Service B) : Service B := { s with place := .closed }

/-- `io.read_reset(mb)`, in front of the next command. -/
def await (s : Service B) : Service B :=
  { s with io := s.io.read_reset, mb := MB.reset s.mb, place := .reading }

/-- `stream.send_n`, of which `sent` bytes go out: on QUIT, and when not all of it or
    nothing does, the loop ends. -/
def send_n (s : Service B) (rc : Int) (sent : Nat) : Service B × Bytes :=
  let text := MB.text s.mb
  (if sent < text.length ∨ text = [] ∨ rc < 0 then s.close else s.await MB, text.take sent)

/-- `io.greetings(mb)`: the connection, and what is sent. -/
def greet (s : Service B) (sent : Nat) : Service B × Bytes :=
  let mb := MB.print (MB.reset s.mb) (lit "220 domain.com ESMTP product_name\r\n")
  let s := { s with mb := mb }
  if MB.space mb > 0 then s.send_n MB 0 sent
  else (s.close, []) -- insufficient send buffer

/-- "process buffer" -/
def process (s : Service B) : Service B :=
  let mb := MB.text s.mb
  if s.io.state_ ≠ .DATA then
    let r := s.io.read_line mb 0
    { s with io := r.1, mb := MB.rd_ptr s.mb (mb.length - r.2.2.length) }
  else
    let r := s.io.read_data mb
    { s with
      io := r.1
      mb := MB.rd_ptr s.mb (mb.length - r.2.2.length)
      log := s.log ++ [.data r.2.1] }

/-- `mb.reset()`, and what `recv` puts into the block. -/
def recv (s : Service B) (bytes : Bytes) : Service B :=
  { s with mb := MB.copy (MB.reset s.mb) bytes }

/-- "parse & exec command", and "write response". -/
def respond (s : Service B) (sent : Nat) : Service B × Bytes :=
  let line := if s.io.state_ ≠ .DATA then [Action.line s.io.buf_] else []
  let r := exec_cmd MB s.io s.mb
  let s := { s with io := r.1, mb := r.2.1, log := s.log ++ line }
  if r.1.wr_state_ = .WR_OK then s.send_n MB r.2.2 sent
  else (s.close, []) -- insufficient send buffer

end Service

/-- What the loop does next. -/
inductive Event where
  | accepted
  /-- the greeting is written, and so many bytes of it are sent -/
  | greet (sent : Nat)
  /-- `recv` returns these bytes, and they are processed -/
  | recv (bytes : Bytes)
  /-- what is left in the block is processed -/
  | more
  /-- a reply is written, and so many bytes of it are sent -/
  | respond (sent : Nat)
  /-- `recv` fails -/
  | lost

/-- One step of the loop: the connection, and what is sent. -/
def step (s : Service B) (e : Event) : Option (Service B × Bytes) :=
  match s.place, e with
  | .accepting, .accepted => some ({ s with place := .greeting }, [])
  | .greeting, .greet sent => some (s.greet MB sent)
  | .reading, .recv bytes =>
      if s.io.rd_state_ ≠ .RD_OK ∧ MB.text s.mb = [] ∧ bytes ≠ [] ∧ bytes.length ≤ MB.size s.mb then
        some ((s.recv MB bytes).process MB, [])
      else none
  | .reading, .more =>
      if s.io.rd_state_ ≠ .RD_OK ∧ MB.text s.mb ≠ [] then some (s.process MB, []) else none
  | .reading, .respond sent =>
      if s.io.rd_state_ = .RD_OK then some (s.respond MB sent) else none
  | .reading, .lost => if s.io.rd_state_ ≠ .RD_OK then some (s.close, []) else none
  | _, _ => none

/-! ## §2. What comes in. -/

/-- The end of what is read is seen at its last byte, and not before. -/
def Ends (state : SMTP_Server_IO.State) (cmd : Bytes) : Prop :=
  if state = .DATA then END_OF_DATA <:+ cmd ∧ ∀ pre, pre <+: cmd → pre ≠ cmd → ¬ END_OF_DATA <:+ pre
  else ∃ body, cmd = body ++ [LF] ∧ LF ∉ body

/-- Of `cmd` the connection has read `seen`. -/
structure Reads (s : Service B) (cmd seen : Bytes) : Prop where
  place : s.place = .reading
  empty : MB.text s.mb = []
  size : MB.size s.mb = MAX_BUF
  part : seen ≠ cmd → s.io.rd_state_ = .RD_MORE ∧
    if s.io.state_ = .DATA then SMTP_Server_IO.Tail s.io seen else s.io.buf_ = seen
  whole : seen = cmd → s.io.rd_state_ = .RD_OK ∧ (s.io.state_ ≠ .DATA → s.io.buf_ = cmd)

theorem reads_await (s : Service B) (hsize : MB.size s.mb = MAX_BUF) {cmd : Bytes} (hcmd : cmd ≠ []) :
    Reads MB (s.await MB) cmd [] where
  place := rfl
  empty := MB.text_reset s.mb
  size := (MB.size_reset s.mb).trans hsize
  part _ := by
    refine ⟨rfl, ?_⟩
    split_ifs with hstate
    · exact SMTP_Server_IO.tail_reset s.io hstate
    · rfl
  whole h := absurd h.symm hcmd

/-- The block behind a `recv` that fits. -/
theorem recv_block (s : Service B) {chunk : Bytes} (hlen : chunk.length ≤ MB.size s.mb) :
    MB.text (s.recv MB chunk).mb = chunk ∧ MB.size (s.recv MB chunk).mb = MB.size s.mb := by
  obtain ⟨hsize, htext, -⟩ := MB.copy_fits (MB.reset s.mb) chunk (by rw [MB.space_reset]; exact hlen)
  refine ⟨?_, ?_⟩
  · show MB.text (MB.copy (MB.reset s.mb) chunk) = chunk
    rw [htext, MB.text_reset, List.nil_append]
  · show MB.size (MB.copy (MB.reset s.mb) chunk) = MB.size s.mb
    rw [hsize, MB.size_reset]

/-- A piece of a command line; the line ends with it or goes on. -/
theorem read_line_piece {io : SMTP_Server_IO} {body seen chunk : Bytes} (hmore : io.rd_state_ = .RD_MORE)
    (hbuf : io.buf_ = seen) (hbody : LF ∉ body) (hne : chunk ≠ [])
    (hpre : seen ++ chunk <+: body ++ [LF]) :
    (io.read_line chunk 0).2.2 = [] ∧
      (io.read_line chunk 0).1 = { io with
        buf_ := seen ++ chunk
        rd_state_ := if seen ++ chunk = body ++ [LF] then .RD_OK else .RD_MORE } := by
  have hpending : io.pending = seen := by
    unfold SMTP_Server_IO.pending
    rw [if_neg (by simp [hmore]), hbuf]
  rw [ SMTP_Server_IO.read_line_collect, hpending]
  by_cases hall : seen ++ chunk = body ++ [LF]
  · -- the chunk is the end of the line
    obtain ⟨t, hchunk⟩ : ∃ t, chunk = t ++ [LF] := by
      refine ⟨chunk.dropLast, ?_⟩
      have hlast : chunk.getLast hne = LF := by
        have h := List.getLast_congr (List.append_ne_nil_of_right_ne_nil seen hne) (by simp) hall
        rw [List.getLast_append_of_ne_nil _ hne, List.getLast_concat] at h
        exact h
      rw [← hlast, List.dropLast_append_getLast hne]
    have hfree : LF ∉ t := by
      intro hin
      rw [hchunk, ← List.append_assoc] at hall
      exact hbody (List.append_inj_left' hall rfl ▸ List.mem_append_right seen hin)
    rw [if_pos hall, hchunk, collect_line_whole seen t [] hfree]
    exact ⟨rfl, rfl⟩
  · -- a proper beginning of the line has no line end
    have hfree : LF ∉ chunk := by
      intro hin
      have hbegin : seen ++ chunk <+: body := by
        rcases List.prefix_concat_iff.mp hpre with hsame | hbegin
        · exact absurd hsame hall
        · exact hbegin
      exact hbody (hbegin.subset (List.mem_append_right seen hin))
    rw [if_neg hall, collect_line_part seen chunk hne hfree]
    exact ⟨rfl, rfl⟩

/-- What a piece that has come in does to the connection. -/
structure Received (s s' : Service B) (chunk : Bytes) : Prop where
  state : s'.io.state_ = s.io.state_
  emails : s'.io.emails_ = s.io.emails_
  log : s'.log = s.log ++ if s.io.state_ = .DATA then [.data chunk] else []

/-- **A piece of a line, or of the data**, as it comes in. -/
theorem Reads.recv {s : Service B} {cmd seen chunk : Bytes} (h : Reads MB s cmd seen)
    (hends : Ends s.io.state_ cmd) (hne : chunk ≠ []) (hpre : seen ++ chunk <+: cmd)
    (hlen : chunk.length ≤ MAX_BUF) :
    Reads MB ((s.recv MB chunk).process MB) cmd (seen ++ chunk) ∧
      Received s ((s.recv MB chunk).process MB) chunk := by
  obtain ⟨htext, hsize⟩ := recv_block MB s (by rw [h.size]; exact hlen)
  have hpart : seen ≠ cmd := by
    intro heq
    have hle := hpre.length_le
    have hpos := List.length_pos_of_ne_nil hne
    rw [heq, List.length_append] at hle
    omega
  obtain ⟨hmore, hknown⟩ := h.part hpart
  -- the block is taken as a whole
  have hempty : ∀ rest : Bytes, rest = [] →
      MB.text (MB.rd_ptr (s.recv MB chunk).mb (chunk.length - rest.length)) = [] := by
    intro rest hrest
    rw [MB.text_rd_ptr, htext, hrest]
    exact List.drop_length
  have hsame : MB.size (MB.rd_ptr (s.recv MB chunk).mb chunk.length) = MAX_BUF := by
    rw [MB.size_rd_ptr, hsize, h.size]
  by_cases hstate : s.io.state_ = .DATA
  · have hend := hends
    unfold Ends at hend
    rw [if_pos hstate] at hknown hend
    obtain ⟨hrest, hok, htail⟩ := SMTP_Server_IO.read_data_tail s.io seen chunk hknown
    have hline : (s.io.read_data chunk).2.1 = chunk := by
      unfold SMTP_Server_IO.read_data
      rw [if_pos hstate]
    have hfix : (s.io.read_data chunk).1.state_ = s.io.state_ ∧
        (s.io.read_data chunk).1.emails_ = s.io.emails_ := by
      unfold SMTP_Server_IO.read_data
      rw [if_pos hstate]
      exact ⟨rfl, rfl⟩
    have hproc : (s.recv MB chunk).process MB = { s with
        io := (s.io.read_data chunk).1
        mb := MB.rd_ptr (s.recv MB chunk).mb (chunk.length - (s.io.read_data chunk).2.2.length)
        log := s.log ++ [.data chunk] } := by
      unfold Service.process
      dsimp only
      rw [if_neg (show ¬ (s.recv MB chunk).io.state_ ≠ .DATA from not_not.mpr hstate), htext]
      show Service.mk (s.io.read_data chunk).1 _ _ (s.log ++ [.data (s.io.read_data chunk).2.1]) = _
      rw [hline]
      rfl
    rw [hproc]
    refine ⟨⟨h.place, hempty _ hrest, ?_, ?_, ?_⟩, ⟨hfix.1, hfix.2, ?_⟩⟩
    · show MB.size (MB.rd_ptr _ _) = MAX_BUF
      rw [MB.size_rd_ptr, hsize, h.size]
    · intro hmore'
      have ht := htail (hend.2 _ hpre hmore')
      refine ⟨ht.more, ?_⟩
      rw [if_pos (hfix.1.trans hstate)]
      exact ht
    · intro hall
      exact ⟨hok (hall ▸ hend.1), fun hnot => absurd (hfix.1.trans hstate) hnot⟩
    · rw [if_pos hstate]
  · have hend := hends
    unfold Ends at hend
    rw [if_neg hstate] at hknown hend
    obtain ⟨body, rfl, hbody⟩ := hend
    obtain ⟨hrest, hread⟩ := read_line_piece hmore hknown hbody hne hpre
    have hproc : (s.recv MB chunk).process MB = { s with
        io := { s.io with
          buf_ := seen ++ chunk
          rd_state_ := if seen ++ chunk = body ++ [LF] then .RD_OK else .RD_MORE }
        mb := MB.rd_ptr (s.recv MB chunk).mb
          (chunk.length - (s.io.read_line chunk 0).2.2.length) } := by
      unfold Service.process
      dsimp only
      rw [if_pos (show (s.recv MB chunk).io.state_ ≠ .DATA from hstate), htext]
      show Service.mk (s.io.read_line chunk 0).1 _ _ _ = _
      rw [hread]
      rfl
    rw [hproc]
    refine ⟨⟨h.place, hempty _ hrest, ?_, ?_, ?_⟩, ⟨rfl, rfl, ?_⟩⟩
    · show MB.size (MB.rd_ptr _ _) = MAX_BUF
      rw [MB.size_rd_ptr, hsize, h.size]
    · intro hmore'
      refine ⟨if_neg hmore', ?_⟩
      rw [if_neg hstate]
    · exact fun hall => ⟨if_pos hall, fun _ => hall⟩
    · rw [if_neg hstate, List.append_nil]

/-! ## §3. What is sent. -/

/-- A text has been sent by an object `io`; behind all of it the next command is waited for. -/
structure Sent (io : SMTP_Server_IO) (log : List Action) (text : Bytes) (rc : Int) (sent : Nat)
    (r : Service B × Bytes) : Prop where
  out : r.2 = text.take sent
  state : r.1.io.state_ = io.state_
  emails : r.1.io.emails_ = io.emails_
  log_ : r.1.log = log
  size : MB.size r.1.mb = MAX_BUF
  place : r.1.place = if sent < text.length ∨ rc < 0 then .closed else .reading
  reads : r.1.place = .reading → ∀ cmd, cmd ≠ [] → Reads MB r.1 cmd []

theorem send_n_sent (s : Service B) (hsize : MB.size s.mb = MAX_BUF) {text : Bytes}
    (htext : MB.text s.mb = text) (hne : text ≠ []) (rc : Int) (sent : Nat) :
    Sent MB s.io s.log text rc sent (s.send_n MB rc sent) := by
  unfold Service.send_n
  dsimp only
  rw [htext]
  by_cases hend : sent < text.length ∨ rc < 0
  · rw [if_pos (show sent < text.length ∨ text = [] ∨ rc < 0 by tauto)]
    exact ⟨rfl, rfl, rfl, rfl, hsize, (if_pos hend).symm, fun h => absurd h (by simp [Service.close])⟩
  · rw [if_neg (show ¬ (sent < text.length ∨ text = [] ∨ rc < 0) by tauto)]
    have hread := fun (cmd : Bytes) (hcmd : cmd ≠ []) => reads_await MB s hsize hcmd
    exact ⟨rfl, rfl, rfl, rfl, (MB.size_reset s.mb).trans hsize, (if_neg hend).symm, fun _ => hread⟩

/-- A text that fits, in the block. -/
theorem print_block (mb : B) (hsize : MB.size mb = MAX_BUF) {text : Bytes}
    (hfit : text.length < MAX_BUF) :
    MB.text (MB.print (MB.reset mb) text) = text ∧ MB.size (MB.print (MB.reset mb) text) = MAX_BUF ∧
      MB.space (MB.print (MB.reset mb) text) > 0 := by
  have hspace : MB.space (MB.reset mb) = MAX_BUF := by rw [MB.space_reset, hsize]
  obtain ⟨htext, hleft⟩ := MB.print_fits (MB.reset mb) text (by rw [hspace]; exact hfit)
  refine ⟨?_, ?_, by omega⟩
  · rw [htext, MB.text_reset, List.nil_append]
  · rw [MB.size_print, MB.size_reset, hsize]

/-- What a client that has connected is sent. -/
theorem greet_sent (s : Service B) (hsize : MB.size s.mb = MAX_BUF) (sent : Nat) :
    Sent MB s.io s.log (lit "220 domain.com ESMTP product_name\r\n") 0 sent (s.greet MB sent) := by
  have hshort : (lit "220 domain.com ESMTP product_name\r\n").length < MAX_BUF := by decide
  obtain ⟨htext, hsame, hroom⟩ := print_block MB s.mb hsize hshort
  unfold Service.greet
  dsimp only
  rw [if_pos hroom]
  exact send_n_sent MB { s with mb := MB.print (MB.reset s.mb) _ } hsame htext (by decide) 0 sent

/-- **What is sent** when a line or the data is complete. -/
theorem respond_sent (s : Service B) (hsize : MB.size s.mb = MAX_BUF)
    (hfit : s.io.exec.text.length < MAX_BUF) (hne : s.io.exec.text ≠ []) (sent : Nat) :
    Sent MB s.io.exec.io (s.log ++ if s.io.state_ ≠ .DATA then [Action.line s.io.buf_] else [])
      s.io.exec.text s.io.exec.rc sent (s.respond MB sent) := by
  obtain ⟨htext, hsame, hroom⟩ := print_block MB s.mb hsize hfit
  unfold Service.respond exec_cmd SMTP_Server_IO.write
  dsimp only
  rw [if_pos hroom, if_pos rfl]
  obtain ⟨hout, hstate, hemails, hlog, hsize', hplace, hreads⟩ :=
    send_n_sent MB ⟨{ s.io.exec.io with wr_state_ := .WR_OK },
      MB.print (MB.reset s.mb) s.io.exec.text, s.place,
      s.log ++ if s.io.state_ ≠ .DATA then [Action.line s.io.buf_] else []⟩ hsame htext hne
      s.io.exec.rc sent
  exact ⟨hout, hstate, hemails, hlog, hsize', hplace, hreads⟩

end Loop

end SMTP_Server

end Aos
