/-
  Aos.Mailer.DataPhase — the mail text on the wire.

  TRY_DATA copies the text into the block and the end of the data behind it.
  What does not fit is not copied: a text that is longer than the block is left
  out, one that just fits stays without its end.  And the text is copied as it
  is, with the dots its lines begin with.

  Main results:
    • `text_body` — what is in the block;
    • `phase_step`, `phase_run` — what has been written and what is still in the
      block make it up, however the writes are cut;
    • `data_phase_iff` — the texts a conforming receiver gets back.
-/
import Aos.Net.Smtp.Receiver
import Aos.Mailer.Connection

namespace Aos

open SMTP_Receiver
open SMTP_Server_IO (END_OF_DATA)
open SMTP_Client_IO (cmd_data_completed cmd_text)

namespace SMTP_Mailer_Connection

/-! ## §1. What is in the block. -/

/-- What TRY_DATA makes of a mail text. -/
def payload (eml : Bytes) : Bytes :=
  if eml.length ≤ MAX_BUF then
    eml ++ if eml.length + END_OF_DATA.length ≤ MAX_BUF then END_OF_DATA else []
  else END_OF_DATA

/-- The bytes of the data phase on the wire. -/
def data_wire (log : List Action) : Bytes :=
  (log.map fun a =>
    match a with
    | .wire .TRY_DATA_TRANSFER bytes => bytes
    | _ => []).flatten

theorem data_wire_append (log more : List Action) :
    data_wire (log ++ more) = data_wire log ++ data_wire more := by
  unfold data_wire
  rw [List.map_append, List.flatten_append]

variable {B : Type} (MB : Message_Block B)

/-- **What is in the block.** -/
theorem text_body (mb : B) (eml : Bytes) (hsize : MB.size mb = MAX_BUF) :
    MB.text (Session.body MB mb eml) = payload eml := by
  have hend : MB.text (cmd_data_completed MB (MB.new 32)).1 = END_OF_DATA :=
    (cmd_text MB (MB.new 32) [lit "\r\n.\r\n"]
      (by rw [MB.size_new]; decide)).1
  have hspace : MB.space (MB.reset mb) = MAX_BUF := by rw [MB.space_reset, hsize]
  have hfive : END_OF_DATA.length = 5 := rfl
  unfold Session.body payload
  simp only [hend]
  by_cases hfit : eml.length ≤ MAX_BUF
  · rw [if_pos hfit]
    obtain ⟨_, htext, hleft⟩ := MB.copy_fits (MB.reset mb) eml (by rw [hspace]; exact hfit)
    rw [MB.text_reset, List.nil_append] at htext
    rw [hspace] at hleft
    by_cases hboth : eml.length + END_OF_DATA.length ≤ MAX_BUF
    · obtain ⟨_, htext', _⟩ := MB.copy_fits (MB.copy (MB.reset mb) eml) END_OF_DATA
        (by rw [hleft]; omega)
      rw [if_pos hboth, htext', htext]
    · rw [if_neg hboth, MB.copy_lacks _ _ (by rw [hleft]; omega), htext, List.append_nil]
  · rw [if_neg hfit, MB.copy_lacks (MB.reset mb) eml (by rw [hspace]; omega)]
    have hmax : END_OF_DATA.length ≤ MAX_BUF := by decide
    obtain ⟨_, htext, _⟩ := MB.copy_fits (MB.reset mb) END_OF_DATA (by rw [hspace]; exact hmax)
    rw [htext, MB.text_reset, List.nil_append]

/-! ## §2. What has been written. -/

/-- What a session with this job has written of its text. -/
structure Phase (job : SMTP_Mailer_Job) (s : Session B) : Prop where
  size : MB.size s.conn.mb_ = MAX_BUF
  job_ : s.conn.job_ = some job
  start : s.async = .connect → s.conn.state_ = .TRY_CONNECT
  before : rank s.conn.state_ < rank .TRY_DATA_TRANSFER → data_wire s.log = []
  during : s.conn.state_ = .TRY_DATA_TRANSFER → s.async = .write →
    data_wire s.log ++ MB.text s.conn.mb_ = payload job.eml
  done : s.conn.state_ = .TRY_DATA_TRANSFER → s.async = .read → data_wire s.log = payload job.eml

theorem phase_connect (io : SMTP_Client_IO) (job : SMTP_Mailer_Job) :
    Phase MB job (connect (new MB io) (some job)) where
  size := MB.size_new MAX_BUF
  job_ := rfl
  start _ := rfl
  before _ := rfl
  during h := absurd h (by simp [connect])
  done h := absurd h (by simp [connect])

/-- Only in the data phase does a piece on the wire belong to it. -/
theorem data_wire_other {st : State} (bytes : Bytes) (h : st ≠ .TRY_DATA_TRANSFER) :
    data_wire [.wire st bytes] = [] := by
  cases st with
  | TRY_DATA_TRANSFER => exact absurd rfl h
  | _ => rfl

theorem data_wire_data (bytes : Bytes) : data_wire [.wire .TRY_DATA_TRANSFER bytes] = bytes :=
  List.append_nil bytes

/-- A response and a command are no piece of the text. -/
theorem data_wire_command (log : List Action) (st next : State) (code : Option Int) :
    data_wire (log ++ [.reply st code] ++ [.send next]) = data_wire log := by
  rw [data_wire_append, data_wire_append]
  show data_wire log ++ [] ++ [] = _
  rw [List.append_nil, List.append_nil]

/-- **A complete response** fills the block, with the text when it is its turn. -/
theorem phase_completed {job : SMTP_Mailer_Job} {s s' : Session B} (h : Phase MB job s)
    (hs : s.on_read_completed MB = some s') : Phase MB job s' := by
  rcases on_read_completed_cases MB hs with ⟨next, mb, hfollows, rfl, hsize, hbody⟩ | ⟨_, rfl⟩
  · have hlt := hfollows.rank_lt
    refine ⟨hsize.trans h.size, h.job_, fun hc => absurd hc (by simp), ?_, ?_,
      fun _ hr => absurd hr (by simp)⟩
    · intro hnext
      show data_wire (s.log ++ [.reply _ _] ++ [.send next]) = []
      rw [data_wire_command]
      exact h.before (lt_trans hlt hnext)
    · intro hdata _
      have hnext : next = .TRY_DATA_TRANSFER := hdata
      obtain ⟨job', hjob', hmb⟩ := hbody hnext
      obtain rfl : job = job' := Option.some.inj (h.job_.symm.trans hjob')
      show data_wire (s.log ++ [.reply _ _] ++ [.send next]) ++ MB.text mb = _
      rw [hnext] at hlt
      rw [data_wire_command, h.before hlt, hmb, text_body MB s.conn.mb_ job.eml h.size,
        List.nil_append]
  · refine ⟨h.size, h.job_, fun hc => absurd hc (by simp), ?_,
      fun hdata => absurd hdata (by simp), fun hdata => absurd hdata (by simp)⟩
    intro hlt
    have hend : ¬ rank .INACTIVE < rank .TRY_DATA_TRANSFER := by decide
    exact absurd hlt hend

/-- **The text is on its way**, whatever happens. -/
theorem phase_step (job : SMTP_Mailer_Job) (s : Session B) (e : Event) (s' : Session B)
    (h : Phase MB job s) (hstep : step MB s e = some s') : Phase MB job s' := by
  have hbefore := h.before
  have hother : ∀ bytes, rank s.conn.state_ < rank .TRY_DATA_TRANSFER →
      data_wire (s.log ++ [.wire s.conn.state_ bytes]) = [] := by
    intro bytes hlt
    rw [data_wire_append, hbefore hlt, data_wire_other bytes, List.nil_append]
    intro heq
    rw [heq] at hlt
    exact absurd hlt (lt_irrefl _)
  cases step_cases MB hstep with
  | quiet hstate hjob hsize hasync hread hnone =>
      rename_i conn async
      refine ⟨hsize.trans h.size, hjob.trans h.job_, fun hc => absurd hc hasync.2, ?_,
        fun _ hw => absurd hw hasync.1, ?_⟩
      · intro hlt
        apply hbefore
        rw [← hstate]
        exact hlt
      · intro hdata hr
        have hdata' : s.conn.state_ = .TRY_DATA_TRANSFER := hstate.symm.trans hdata
        rcases hread hr with hold | hold
        · rw [h.start hold] at hdata'
          exact absurd hdata' (by simp)
        · exact h.done hdata' hold
  | wire_more hasync hrest =>
      rename_i n
      refine ⟨?_, h.job_, fun hc => absurd hc (by simp), hother _, ?_, fun _ hr => absurd hr (by simp)⟩
      · show MB.size (MB.rd_ptr s.conn.mb_ n) = MAX_BUF
        rw [MB.size_rd_ptr]
        exact h.size
      · intro hdata _
        have hdata' : s.conn.state_ = .TRY_DATA_TRANSFER := hdata
        show data_wire (s.log ++ [.wire s.conn.state_ _]) ++ MB.text (MB.rd_ptr s.conn.mb_ n) = _
        rw [hdata', data_wire_append, data_wire_data, MB.text_rd_ptr, List.append_assoc,
          List.take_append_drop]
        exact h.during hdata' hasync
  | wire_done hasync hstate hjob hsize =>
      rename_i conn
      refine ⟨hsize.trans h.size, hjob.trans h.job_, fun hc => absurd hc (by simp), ?_,
        fun _ hw => absurd hw (by simp), ?_⟩
      · intro hlt
        apply hother
        rw [← hstate]
        exact hlt
      · intro hdata _
        have hdata' : s.conn.state_ = .TRY_DATA_TRANSFER := hstate.symm.trans hdata
        show data_wire (s.log ++ [.wire s.conn.state_ _]) = _
        rw [hdata', data_wire_append, data_wire_data]
        exact h.during hdata' hasync
  | reply hreply hsize hcompleted =>
      rename_i io mb
      have hasync := hreply.1
      have hkept : Phase MB job { s with conn := { s.conn with io_ := io, mb_ := mb } } := by
        refine ⟨hsize.trans h.size, h.job_, fun hc => ?_, hbefore, fun _ hw => ?_, h.done⟩
        · exact absurd (hasync.symm.trans hc) (by simp)
        · exact absurd (hasync.symm.trans hw) (by simp)
      exact phase_completed MB hkept hcompleted

theorem phase_run (io : SMTP_Client_IO) (job : SMTP_Mailer_Job) (events : List Event)
    (s : Session B) (hrun : run MB (connect (new MB io) (some job)) events = some s) :
    Phase MB job s :=
  run_induction MB (phase_step MB job) events _ s (phase_connect MB io job) hrun

/-! ## §3. What the receiver gets back. -/

/-- A text whose end is lost, or that is lost itself, does not come through. -/
theorem not_transparent_of_long (eml : Bytes) (h : MAX_BUF < eml.length + 5) :
    ¬ Transparent (payload eml) eml := by
  intro htrans
  obtain ⟨text, hreceive, hsame⟩ := htrans
  obtain ⟨raw, hraw, rfl⟩ := Option.map_eq_some_iff.mp hreceive
  have hprefix := (prefix_until_end _ raw hraw).length_le
  have hshort := unstuff_length raw .line_start
  have hfive : END_OF_DATA.length = 5 := rfl
  have hmax : MAX_BUF = 4096 := rfl
  apply not_same_of_short ?_ hsame
  rw [List.length_append, hfive] at hprefix
  unfold payload at hprefix
  split at hprefix
  · rw [hfive, if_neg (by omega), List.append_nil] at hprefix
    omega
  · rw [hfive] at hprefix
    omega

/-- **The data phase.**  A conforming receiver gets the mail back if and only if
    it leaves room for its end in the block and no line of it begins with a dot. -/
theorem data_phase_iff (io : SMTP_Client_IO) (job : SMTP_Mailer_Job) (events : List Event)
    (s : Session B) (hrun : run MB (connect (new MB io) (some job)) events = some s)
    (hdata : s.conn.state_ = .TRY_DATA_TRANSFER) (hdone : s.async = .read) :
    Transparent (data_wire s.log) job.eml ↔
      job.eml.length + 5 ≤ MAX_BUF ∧ ¬ [46] <+: job.eml ∧ ¬ [CR, LF, 46] <:+: job.eml := by
  rw [(phase_run MB io job events s hrun).done hdata hdone]
  by_cases hfit : job.eml.length + 5 ≤ MAX_BUF
  · have hpayload : payload job.eml = job.eml ++ END_OF_DATA := by
      have hfive : END_OF_DATA.length = 5 := rfl
      unfold payload
      rw [if_pos (by omega), if_pos (by rw [hfive]; exact hfit)]
    rw [hpayload, plain_iff]
    exact ⟨fun hplain => ⟨hfit, hplain⟩, fun hboth => hboth.2⟩
  · exact ⟨fun htrans => absurd htrans (not_transparent_of_long _ (by omega)),
      fun hboth => absurd hboth.1 hfit⟩

/-- A session that sends the mail text, in two writes of 3 and `n` bytes. -/
def to_data (n : Nat) : List Event :=
  to_mail_from ++ turn (lit "250 x\r\n") 15 ++ turn (lit "250 x\r\n") 7 ++
    turn (lit "354 x\r\n") 3 ++ [.written false n]

/-- The mail "hi" CRLF. -/
theorem data_phase_hi :
    ∃ s, run list_block (connect (new list_block ⟨[], .RD_OK⟩)
        (some ⟨lit "a@b", lit "c@d", lit "hi\r\n"⟩)) (to_data 6) = some s ∧
      Transparent (data_wire s.log) (lit "hi\r\n") := by
  obtain ⟨s, hs⟩ : ∃ s, run list_block (connect (new list_block ⟨[], .RD_OK⟩)
      (some ⟨lit "a@b", lit "c@d", lit "hi\r\n"⟩)) (to_data 6) = some s :=
    Option.isSome_iff_exists.mp (by decide)
  have hstate : (run list_block (connect (new list_block ⟨[], .RD_OK⟩)
      (some ⟨lit "a@b", lit "c@d", lit "hi\r\n"⟩)) (to_data 6)).all (fun s =>
        decide (s.conn.state_ = .TRY_DATA_TRANSFER) && decide (s.async = .read)) = true := by
    decide
  rw [hs, Option.all_some, Bool.and_eq_true, decide_eq_true_eq, decide_eq_true_eq] at hstate
  exact ⟨s, hs, (data_phase_iff list_block _ _ _ s hs hstate.1 hstate.2).mpr (by decide)⟩

/-- The mail ".x" CRLF: its dot is taken for one that was put there. -/
theorem data_phase_dot :
    ∃ s, run list_block (connect (new list_block ⟨[], .RD_OK⟩)
        (some ⟨lit "a@b", lit "c@d", lit ".x\r\n"⟩)) (to_data 6) = some s ∧
      data_wire s.log = lit ".x\r\n\r\n.\r\n" ∧
      ¬ Transparent (data_wire s.log) (lit ".x\r\n") := by
  obtain ⟨s, hs⟩ : ∃ s, run list_block (connect (new list_block ⟨[], .RD_OK⟩)
      (some ⟨lit "a@b", lit "c@d", lit ".x\r\n"⟩)) (to_data 6) = some s :=
    Option.isSome_iff_exists.mp (by decide)
  have hwire : (run list_block (connect (new list_block ⟨[], .RD_OK⟩)
      (some ⟨lit "a@b", lit "c@d", lit ".x\r\n"⟩)) (to_data 6)).all (fun s =>
        decide (data_wire s.log = lit ".x\r\n\r\n.\r\n")) = true := by
    decide
  rw [hs, Option.all_some, decide_eq_true_eq] at hwire
  refine ⟨s, hs, hwire, ?_⟩
  rw [hwire]
  intro htrans
  obtain ⟨text, hreceive, hsame⟩ := htrans
  have hx : receive (lit ".x\r\n\r\n.\r\n") = some (lit "x\r\n") := by decide
  obtain rfl := Option.some.inj (hx.symm.trans hreceive)
  exact absurd hsame (by unfold Same; decide)

end SMTP_Mailer_Connection

end Aos
