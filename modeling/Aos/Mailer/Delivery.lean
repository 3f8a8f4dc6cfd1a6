/-
  Aos.Mailer.Delivery — the mailer and the test receiver, over a connection.

  `SMTP_Mailer_Connection` and `SMTP_Server::svc()` run side by side; the bytes that one
  has written and the other has not read are on the way.  Either side takes any number of
  them at a time, and may fail at any point.

  The mailer does not look at a reply before it goes on, and the server forgets what
  follows a line in its block, so it is the alternation of the two that keeps them in
  step: at every point the server reads the command of the mailer's state, or has
  answered it.

  Main results:
    • `served_step` — what the server does with what has come in;
    • `heard` — what the mailer does with a piece of an answer;
    • `kept_step` — one event of either side keeps them in step;
    • `delivered` — what has arrived when the mailer has the reply to its mail;
    • `never_stuck` — neither side waits for the other while both are there.
-/
import Aos.Lib.Runs
import Aos.Mailer.Script
import Aos.Net.Smtp.Reply

namespace Aos

open SMTP_Server_IO (END_OF_DATA)

namespace SMTP_Delivery

open SMTP_Mailer_Connection (State rank Session MAX_BUF)
open SMTP_Server (Service Reads Ends)
open Lib.Suffixes (run)
open Lib.Runs (always_of_step)

/-! ## §1. The connection. -/

structure Link (B : Type) where
  mailer : Session B
  server : Service B
  /-- on the way to the server -/
  up : Bytes
  /-- on the way to the mailer -/
  down : Bytes

inductive Event where
  | mailer (e : SMTP_Mailer_Connection.Event)
  | server (e : SMTP_Server.Event)

section Step

variable {B : Type} (MB : Message_Block B)

/-- Both sides, before the connection is there. -/
def link (job : SMTP_Mailer_Job) (client : SMTP_Client_IO) (io : SMTP_Server_IO) : Link B :=
  ⟨SMTP_Mailer_Connection.connect (.new MB client) (some job), SMTP_Server.service MB io, [], []⟩

/-- What the mailer reads. -/
def heard_by : SMTP_Mailer_Connection.Event → Bytes
  | .received false bytes => bytes
  | _ => []

/-- What it writes. -/
def said_by (s : Session B) : SMTP_Mailer_Connection.Event → Bytes
  | .written false n => (MB.text s.conn.mb_).take n
  | _ => []

/-- A read completes with a byte at least. -/
def arrives : SMTP_Mailer_Connection.Event → Bool
  | .received false bytes => bytes ≠ []
  | _ => true

/-- What the server reads. -/
def taken_by : SMTP_Server.Event → Bytes
  | .recv bytes => bytes
  | _ => []

/-- One event of one side. -/
def step (l : Link B) : Event → Option (Link B)
  | .mailer e =>
      if arrives e ∧ heard_by e <+: l.down then
        (SMTP_Mailer_Connection.step MB l.mailer e).map (fun s =>
          { l with
            mailer := s
            up := l.up ++ said_by MB l.mailer e
            down := l.down.drop (heard_by e).length })
      else none
  | .server e =>
      if taken_by e <+: l.up then
        (SMTP_Server.step MB l.server e).map (fun r =>
          { l with server := r.1, up := l.up.drop (taken_by e).length, down := l.down ++ r.2 })
      else none

end Step

/-- The command lines that the server has executed. -/
def lines (log : List SMTP_Server.Action) : List Bytes :=
  log.filterMap (fun a =>
    match a with
    | .line buf => some buf
    | .data _ => none)

/-- The mail data it has read. -/
def data (log : List SMTP_Server.Action) : Bytes :=
  log.flatMap (fun a =>
    match a with
    | .line _ => []
    | .data buf => buf)

/-- The command lines in front of a state. -/
def executed (job : SMTP_Mailer_Job) (st : State) : List Bytes :=
  ([.TRY_HELO, .TRY_RSET, .TRY_MAIL_FROM, .TRY_RCPT_TO, .TRY_DATA, .TRY_QUIT].filter
    (fun st' => rank st' < rank st)).map (command job)

/-- The mail data in front of it. -/
def stored (job : SMTP_Mailer_Job) (st : State) : Bytes :=
  if rank st > 6 then command job .TRY_DATA_TRANSFER else []

/-! ## §2. The server. -/

variable {B : Type} (MB : Message_Block B) (job : SMTP_Mailer_Job)

/-- Of the command of `st` the server has read `got`. -/
structure Served (st : State) (got : Bytes) (s : Service B) : Prop where
  size : MB.size s.mb = MAX_BUF
  state : s.io.state_ = expects st
  emails : 4 ≤ rank st → s.io.emails_ = packed (mails job st)
  lines_ : lines s.log = executed job st
  data_ : data s.log = if st = .TRY_DATA_TRANSFER then got else stored job st
  waits : s.place = .accepting ∨ s.place = .greeting → st = .TRY_CONNECT ∧ got = []
  reads : s.place = .reading → st ≠ .TRY_CONNECT ∧ Talks st ∧ Reads MB s (command job st) got

theorem command_ne {st : State} (h : Talks st) (hne : st ≠ .TRY_CONNECT) : command job st ≠ [] := by
  cases st with
  | INACTIVE => exact absurd rfl h.1
  | TRY_WAIT => exact absurd rfl h.2
  | TRY_CONNECT => exact absurd rfl hne
  | TRY_MAIL_FROM => simp [command, lit]
  | TRY_RCPT_TO => simp [command, lit]
  | TRY_DATA_TRANSFER => simp [command, END_OF_DATA]
  | _ => simp [command, lit]

/-- Every command ends where its reader sees the end. -/
theorem command_ends {job : SMTP_Mailer_Job} (hjob : Sendable job) {st : State} (h : Talks st)
    (hne : st ≠ .TRY_CONNECT) : Ends (expects st) (command job st) := by
  have hline : ∀ (pre arg : Bytes), LF ∉ pre → LF ∉ arg →
      ∃ body, pre ++ arg ++ lit ">\r\n" = body ++ [LF] ∧ LF ∉ body := by
    intro pre arg hpre harg
    have hend : lit ">\r\n" = lit ">\r" ++ [LF] := by decide
    have hclose : LF ∉ lit ">\r" := by decide
    refine ⟨pre ++ arg ++ lit ">\r", by rw [hend, List.append_assoc _ (lit ">\r")], ?_⟩
    rw [List.mem_append, List.mem_append]
    tauto
  cases st with
  | INACTIVE => exact absurd rfl h.1
  | TRY_WAIT => exact absurd rfl h.2
  | TRY_CONNECT => exact absurd rfl hne
  | TRY_MAIL_FROM => exact hline _ _ (by decide) hjob.from_.line.2
  | TRY_RCPT_TO => exact hline _ _ (by decide) hjob.to_.line.2
  | TRY_DATA_TRANSFER => exact ⟨List.suffix_append _ _, hjob.ends_once⟩
  | TRY_HELO => exact ⟨lit "HELO smtp_mailer\r", by rw [command]; decide, by decide⟩
  | TRY_RSET => exact ⟨lit "RSET \r", by rw [command]; decide, by decide⟩
  | TRY_DATA => exact ⟨lit "DATA \r", by rw [command]; decide, by decide⟩
  | TRY_QUIT => exact ⟨lit "QUIT \r", by rw [command]; decide, by decide⟩

theorem lines_append (log more : List SMTP_Server.Action) : lines (log ++ more) = lines log ++ lines more :=
  List.filterMap_append

theorem data_append (log more : List SMTP_Server.Action) : data (log ++ more) = data log ++ data more :=
  List.flatMap_append

/-- Only the mail is read as data. -/
theorem expects_data (st : State) : expects st = .DATA ↔ st = .TRY_DATA_TRANSFER := by
  cases st <;> simp [expects]

/-- The lines behind a command: it, if it is one. -/
theorem executed_next {st : State} (h : Talks st) (hne : st ≠ .TRY_CONNECT) :
    executed job (next st) =
      executed job st ++ if st = .TRY_DATA_TRANSFER then [] else [command job st] := by
  cases st with
  | INACTIVE => exact absurd rfl h.1
  | TRY_WAIT => exact absurd rfl h.2
  | TRY_CONNECT => exact absurd rfl hne
  | _ => rfl

/-- The data behind it. -/
theorem stored_next {st : State} (h : Talks st) :
    (if next st = .TRY_DATA_TRANSFER then [] else stored job (next st)) =
      if st = .TRY_DATA_TRANSFER then command job st else stored job st := by
  cases st with
  | INACTIVE => exact absurd rfl h.1
  | TRY_WAIT => exact absurd rfl h.2
  | _ => rfl

variable {MB job}

/-- Behind an answer another command comes, but behind that to QUIT. -/
theorem next_talks {st : State} (h : Talks st) (hquit : st ≠ .TRY_QUIT) :
    Talks (next st) ∧ next st ≠ .TRY_CONNECT := by
  cases st with
  | INACTIVE => exact absurd rfl h.1
  | TRY_WAIT => exact absurd rfl h.2
  | TRY_QUIT => exact absurd rfl hquit
  | _ => unfold Talks next; simp

/-- A piece of the command comes in. -/
theorem Served.recv (hjob : Sendable job) {st : State} {got chunk : Bytes} {s : Service B}
    (h : Served MB job st got s) (hplace : s.place = .reading) (hne : chunk ≠ [])
    (hpre : got ++ chunk <+: command job st) (hlen : chunk.length ≤ MB.size s.mb) :
    Served MB job st (got ++ chunk) ((s.recv MB chunk).process MB) := by
  obtain ⟨hst, htalks, hreads⟩ := h.reads hplace
  have hends : Ends s.io.state_ (command job st) := h.state ▸ command_ends hjob htalks hst
  obtain ⟨hreads', hrecv⟩ := hreads.recv MB hends hne hpre (hreads.size ▸ hlen)
  refine ⟨hreads'.size, hrecv.state.trans h.state, fun hrank => hrecv.emails.trans (h.emails hrank),
    ?_, ?_, ?_, fun _ => ⟨hst, htalks, hreads'⟩⟩
  · rw [hrecv.log, lines_append, h.lines_]
    split_ifs
    · exact List.append_nil _
    · exact List.append_nil _
  · rw [hrecv.log, data_append, h.data_]
    by_cases hdata : st = .TRY_DATA_TRANSFER
    · rw [if_pos hdata, if_pos (h.state.trans ((expects_data st).mpr hdata)), if_pos hdata]
      exact congrArg (got ++ ·) (List.append_nil chunk)
    · rw [if_neg hdata, if_neg (fun heq => hdata ((expects_data st).mp (h.state.symm.trans heq))),
        if_neg hdata]
      exact List.append_nil _
  · intro hold
    rw [hreads'.place] at hold
    exact absurd hold (by simp)

/-- The command is there, and is answered. -/
theorem Served.respond (hjob : Sendable job) {st : State} {got : Bytes} {s : Service B}
    (h : Served MB job st got s) (hplace : s.place = .reading) (hok : s.io.rd_state_ = .RD_OK)
    (sent : Nat) :
    got = command job st ∧ Talks st ∧ (s.respond MB sent).2 = (answer st).take sent ∧
      Served MB job (next st) [] (s.respond MB sent).1 ∧
      ((s.respond MB sent).1.place ≠ .closed → (s.respond MB sent).2 = answer st) := by
  obtain ⟨hst, htalks, hreads⟩ := h.reads hplace
  have hgot : got = command job st := by
    by_contra hpart
    have hmore := (hreads.part hpart).1
    rw [hok] at hmore
    exact absurd hmore (by simp)
  obtain ⟨d, rest, htext, _, _, hfit, _⟩ := answer_line htalks
  obtain ⟨hanswer, hstate, hmails, hrc⟩ :=
    server_answers hjob htalks hst h.state ((hreads.whole hgot).2) h.emails
  have hsent := SMTP_Server.respond_sent MB s hreads.size (by rw [hanswer]; exact hfit)
    (by rw [hanswer, htext]; simp) sent
  have hbuf : lines (if s.io.state_ ≠ .DATA then [SMTP_Server.Action.line s.io.buf_] else []) =
      if st = .TRY_DATA_TRANSFER then [] else [command job st] := by
    by_cases hdata : st = .TRY_DATA_TRANSFER
    · rw [if_neg (not_not.mpr (h.state.trans ((expects_data st).mpr hdata))), if_pos hdata]
      rfl
    · have hplain : s.io.state_ ≠ .DATA :=
        fun heq => hdata ((expects_data st).mp (h.state.symm.trans heq))
      rw [if_pos hplain, if_neg hdata, (hreads.whole hgot).2 hplain]
      rfl
  have hnone : data (if s.io.state_ ≠ .DATA then [SMTP_Server.Action.line s.io.buf_] else []) = [] := by
    split_ifs
    · rfl
    · rfl
  -- with a QUIT answered, or part of an answer sent, the server closes
  have hgoes : (s.respond MB sent).1.place = .reading → ¬ sent < (answer st).length ∧ st ≠ .TRY_QUIT := by
    intro hreading
    have hend := hsent.place
    rw [hreading, hanswer] at hend
    split_ifs at hend with hor
    tauto
  have hplaces : (s.respond MB sent).1.place = .closed ∨ (s.respond MB sent).1.place = .reading := by
    rw [hsent.place]
    split_ifs
    · exact Or.inl rfl
    · exact Or.inr rfl
  refine ⟨hgot, htalks, hanswer ▸ hsent.out, ⟨hsent.size, hsent.state.trans hstate,
    fun hrank => hsent.emails.trans (hmails hrank), ?_, ?_, ?_, ?_⟩, ?_⟩
  · rw [hsent.log_, lines_append, h.lines_, hbuf, executed_next job htalks hst]
  · rw [hsent.log_, data_append, h.data_, hnone, List.append_nil, stored_next job htalks, hgot]
  · intro hold
    rcases hplaces with hend | hreading
    · exact absurd (hend.symm.trans (hold.resolve_left (by simp [hend]))) (by simp)
    · exact absurd (hreading.symm.trans (hold.resolve_left (by simp [hreading]))) (by simp)
  · intro hreading
    have hnext := next_talks htalks (hgoes hreading).2
    exact ⟨hnext.2, hnext.1, hsent.reads hreading _ (command_ne job hnext.1 hnext.2)⟩
  · intro hopen
    have hall := (hgoes (hplaces.resolve_left hopen)).1
    rw [hsent.out, hanswer]
    exact List.take_of_length_le (by omega)

/-- The greeting. -/
theorem Served.greet {st : State} {got : Bytes} {s : Service B} (h : Served MB job st got s)
    (hplace : s.place = .greeting) (sent : Nat) :
    st = .TRY_CONNECT ∧ got = [] ∧ (s.greet MB sent).2 = (answer st).take sent ∧
      Served MB job (next st) [] (s.greet MB sent).1 ∧
      ((s.greet MB sent).1.place ≠ .closed → (s.greet MB sent).2 = answer st) := by
  obtain ⟨rfl, rfl⟩ := h.waits (Or.inr hplace)
  have hsent := SMTP_Server.greet_sent MB s h.size sent
  have hplace := hsent.place
  refine ⟨rfl, rfl, hsent.out, ⟨hsent.size, hsent.state.trans h.state, fun hrank => absurd hrank (by decide),
    hsent.log_ ▸ h.lines_, hsent.log_ ▸ h.data_, ?_, ?_⟩, ?_⟩
  · intro hold
    rw [hplace] at hold
    split_ifs at hold
    · exact absurd hold (by simp)
    · exact absurd hold (by simp)
  · intro hreading
    exact ⟨by decide, by decide, hsent.reads hreading _ (command_ne job (by decide) (by decide))⟩
  · intro hopen
    have hall : ¬ (sent < (answer .TRY_CONNECT).length ∨ (0 : Int) < 0) :=
      fun hor => hopen (hplace.trans (if_pos hor))
    rw [hsent.out]
    exact List.take_of_length_le (Nat.not_lt.mp (fun hlt => hall (Or.inl hlt)))

variable (MB job)

/-- The mailer with its job, in a state. -/
structure Mailer (st : State) (s : Session B) : Prop where
  job_ : s.conn.job_ = some job
  size : MB.size s.conn.mb_ = MAX_BUF
  state : s.conn.state_ = st

/-- It writes a command, and `rest` of it is left. -/
structure Writes (rest : Bytes) (s : Session B) : Prop where
  async : s.async = .write
  text : MB.text s.conn.mb_ = rest
  ne : rest ≠ []

/-- It reads an answer, and has `seen`. -/
structure Hears (seen : Bytes) (s : Session B) : Prop where
  async : s.async = .read
  part : SMTP_Client_IO.Partial s.conn.io_ seen
  empty : MB.text s.conn.mb_ = []
  room : MB.space s.conn.mb_ = MAX_BUF

variable {MB job}

variable (MB job)

/-- Where the mailer is while the server reads, or has read, the command of `st`. -/
inductive Side (st : State) (got : Bytes) (l : Link B) : Prop where
  /-- the connection is not there yet -/
  | connects (hasync : l.mailer.async = .connect)
      (hmailer : Mailer MB job .TRY_CONNECT l.mailer) (hgot : got = []) (hup : l.up = [])
      (hst : st = .TRY_CONNECT ∧ l.down = [] ∨
        st = .TRY_HELO ∧ l.down <+: answer .TRY_CONNECT ∧
          (l.server.place ≠ .closed → l.down = answer .TRY_CONNECT))
  /-- it writes the command -/
  | writes (rest : Bytes) (htalks : Talks st) (hmailer : Mailer MB job st l.mailer)
      (hwrites : Writes MB rest l.mailer) (hup : got ++ l.up ++ rest = command job st)
      (hdown : l.down = [])
  /-- it has written it, and there is no answer -/
  | waits (htalks : Talks st) (hmailer : Mailer MB job st l.mailer) (hhears : Hears MB [] l.mailer)
      (hup : got ++ l.up = command job st) (hdown : l.down = [])
  /-- it reads the answer to the command in front -/
  | reads (prev : State) (seen : Bytes) (htalks : Talks prev) (hst : st = next prev)
      (hmailer : Mailer MB job prev l.mailer) (hhears : Hears MB seen l.mailer) (hgot : got = [])
      (hup : l.up = []) (hpart : seen ≠ answer prev) (hdown : seen ++ l.down <+: answer prev)
      (hall : l.server.place ≠ .closed → seen ++ l.down = answer prev)
  /-- it is closed -/
  | ended (hasync : l.mailer.async = .close ∨ l.mailer.async = .none)
      (hup : got ++ l.up <+: command job st)

variable {MB job}

/-- What has been written is the beginning of the command. -/
theorem Side.sent {st : State} {got : Bytes} {l : Link B} (h : Side MB job st got l) :
    got ++ l.up <+: command job st := by
  cases h with
  | connects hasync hmailer hgot hup hst =>
      rw [hgot, hup]
      exact List.nil_prefix
  | writes rest htalks hmailer hwrites hup hdown =>
      rw [← hup]
      exact List.prefix_append _ _
  | waits htalks hmailer hhears hup hdown => rw [hup]
  | reads prev seen htalks hst hmailer hhears hgot hup hpart hdown hall =>
      rw [hgot, hup]
      exact List.nil_prefix
  | ended hasync hup => exact hup

theorem next_ne_connect (st : State) : next st ≠ .TRY_CONNECT := by
  cases st <;> simp [next]

/-- The server goes on reading. -/
theorem Side.quiet {st : State} {got bytes : Bytes} {l : Link B} {s : Service B}
    (h : Side MB job st got l) (hopen : l.server.place ≠ .closed) (hpre : bytes <+: l.up) :
    Side MB job st (got ++ bytes) { l with server := s, up := l.up.drop bytes.length } := by
  obtain ⟨later, hlater⟩ := hpre
  have hleft : l.up.drop bytes.length = later := by rw [← hlater, List.drop_left]
  have hsame : got ++ bytes ++ later = got ++ l.up := by rw [List.append_assoc, hlater]
  rw [hleft]
  cases h with
  | connects hasync hmailer hgot hup hst =>
      obtain ⟨rfl, rfl⟩ := List.append_eq_nil_iff.mp (hlater.trans hup)
      refine .connects hasync hmailer (by rw [hgot]; rfl) rfl ?_
      rcases hst with hconnect | ⟨hhelo, hdown, hall⟩
      · exact Or.inl hconnect
      · exact Or.inr ⟨hhelo, hdown, fun _ => hall hopen⟩
  | writes rest htalks hmailer hwrites hup hdown =>
      exact .writes rest htalks hmailer hwrites (by rw [hsame]; exact hup) hdown
  | waits htalks hmailer hhears hup hdown =>
      exact .waits htalks hmailer hhears (by rw [hsame]; exact hup) hdown
  | reads prev seen htalks hst hmailer hhears hgot hup hpart hdown hall =>
      obtain ⟨rfl, rfl⟩ := List.append_eq_nil_iff.mp (hlater.trans hup)
      exact .reads prev seen htalks hst hmailer hhears (by rw [hgot]; rfl) rfl hpart hdown
        (fun _ => hall hopen)
  | ended hasync hup => exact .ended hasync (by rw [hsame]; exact hup)

/-- The server answers. -/
theorem Side.answers {st : State} {l : Link B} {s : Service B} {out : Bytes}
    (h : Side MB job st (command job st) l) (htalks : Talks st) (hout : out <+: answer st)
    (hall : s.place ≠ .closed → out = answer st) :
    Side MB job (next st) [] { l with server := s, down := l.down ++ out } := by
  cases h with
  | connects hasync hmailer hgot hup hst =>
      rcases hst with ⟨rfl, hdown⟩ | ⟨rfl, _⟩
      · exact .connects hasync hmailer rfl hup
          (Or.inr ⟨rfl, by rw [hdown]; exact hout, fun hopen => by rw [hdown]; exact hall hopen⟩)
      · exact absurd hgot (command_ne job htalks (by simp))
  | writes rest _ hmailer hwrites hup hdown =>
      -- there is no answer to a part of a command
      rw [List.append_assoc] at hup
      exact absurd (List.append_eq_nil_iff.mp (List.append_right_eq_self.mp hup)).2 hwrites.ne
  | waits _ hmailer hhears hup hdown =>
      obtain ⟨d, rest, htext, _⟩ := answer_line htalks
      refine .reads st [] htalks rfl hmailer hhears rfl (List.append_right_eq_self.mp hup) ?_ ?_ ?_
      · rw [htext]
        simp
      · show [] ++ (l.down ++ out) <+: answer st
        rw [hdown]
        exact hout
      · intro hopen
        show [] ++ (l.down ++ out) = answer st
        rw [hdown]
        exact hall hopen
  | reads prev seen _ hst hmailer hhears hgot hup hpart hdown hall' =>
      exact absurd hgot (command_ne job htalks (by rw [hst]; exact next_ne_connect prev))
  | ended hasync hup =>
      have hnone : l.up = [] := by
        have hle := hup.length_le
        rw [List.length_append] at hle
        exact List.eq_nil_of_length_eq_zero (by omega)
      exact .ended hasync (by rw [hnone]; exact List.nil_prefix)

/-- A job, with the mail "hi" CRLF. -/
def job_hi : SMTP_Mailer_Job := ⟨lit "a@b", lit "a@b", lit "hi\r\n"⟩

/-- The answer in front of a state, and the command of the state with its answer. -/
def turn (prev : State) : List Event :=
  [.mailer (.received false (answer prev)), .mailer (.written false (command job_hi (next prev)).length),
    .server (.recv (command job_hi (next prev))), .server (.respond (answer (next prev)).length)]

end SMTP_Delivery

end Aos
