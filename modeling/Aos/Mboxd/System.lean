/-
  Aos.Mboxd.System — mboxd: `Spool_Scanner`, the threads of `Mail_Processor` and
  `run_mboxd_test`, which stops them.

  The scanner puts the path of every *.done file of the spool into the queue of the
  processor, and looks again when the queue is empty and no thread is busy.  A thread
  takes a path, moves the mails the file is about to the mailbox, writes a row for
  each that it has moved, and moves the file itself out of the spool.  Between two
  calls to the system any other thread can do a step, and other programs can put
  files into the spool.

  Main results:
    • `svc_of_step` — what a step of a thread can be;
    • `pool_step`   — the program is a queue of jobs with threads that take them.
-/
import Aos.Lib.Moves
import Aos.Lib.WorkQueue
import Aos.Mboxd.MailProcessor
import Aos.Mp.Worker

namespace Aos

open Lib
open Lib.Moves (Files)
open Lib.WorkQueue (Hand Pool taken)

namespace Mail_Processor

/-! ## §1. Where the program runs. -/

/-- What the header of a mail gives for its row. -/
structure Summary where
  m_sender : Bytes
  m_subject : Bytes
  m_gmt_time : Int

/-- A row of the table `mbox`; `m_unseen` is always 'U' when it is inserted. -/
structure Row where
  m_id : Bytes
  m_folder : Bytes
  m_summary : Summary
  m_size : Int

structure Site where
  /-- `realpath` of the first of `cfg.path_spools` -/
  path_spool : Bytes
  /-- `realpath` of `cfg.path_mbox_base` -/
  path_mbox_base : Bytes
  /-- `ACE::dirname` -/
  dirname : Bytes → Byte → Bytes
  /-- a file can be put there: its directory exists -/
  room : Bytes → Bool
  /-- the fields From, Subject and Date of an entity, decoded -/
  summary : MIME_Entity → Summary

def SLASH : Byte := 0x2F

def dir_sep : Bytes := [SLASH]

/-- `mstr.explode('.', ACE::basename(mb->base()))` and its `mstr[0]` -/
def mbox_id (path : Bytes) : Option Bytes :=
  (Multi_String.new.explode 0x2E (basename path) 0 (-1)).bind fun mstr => (mstr.at_ 0).map c_str

namespace Site

variable (c : Site)

def path_mbox_user (mbox_id : Bytes) : Bytes := c.path_mbox_base ++ dir_sep ++ mbox_id

def path_mbox_user_mail (mbox_id : Bytes) : Bytes :=
  c.path_mbox_user mbox_id ++ dir_sep ++ lit "mail"

def path_mbox_user_db (mbox_id : Bytes) : Bytes :=
  c.path_mbox_user mbox_id ++ dir_sep ++ lit "mbox.db"

def path_user_mail (mbox_id m_id : Bytes) : Bytes :=
  c.path_mbox_user_mail mbox_id ++ dir_sep ++ m_id ++ lit ".eml"

/-- "parse *.done": the mails of a file, where no token is read that is not there. -/
def parse_done (path fp : Bytes) : Option (List Spooled_Mail) :=
  if ∀ line ∈ read_lines fp, Tokens_Exist line then
    some ((read_lines fp).filterMap (mail_of c.dirname path dir_sep))
  else none

end Site

/-- A digit of `%x`. -/
def hex_lower (n : Nat) : Byte := if n < 10 then 48 + n.toUInt8 else 87 + n.toUInt8

/-- `%8.8x` -/
def hex8 (n : UInt32) : Bytes :=
  [7, 6, 5, 4, 3, 2, 1, 0].map fun i => hex_lower (n.toNat / 16 ^ i % 16)

/-- `%d` of a number that is not negative -/
def decimal (n : Nat) : Bytes := (Nat.toDigits 10 n).map Char.toUInt8

/-- `".%8.8x_%d.done"` -/
def file_ext (now : UInt32) (i : Nat) : Bytes :=
  lit "." ++ hex8 now ++ lit "_" ++ decimal i ++ lit ".done"

def Site.path_done_bak (c : Site) (mbox_id : Bytes) (now : UInt32) (i : Nat) : Bytes :=
  c.path_mbox_user_mail mbox_id ++ dir_sep ++ mbox_id ++ file_ext now i

def MAX_RENAME_TRY : Nat := 256

/-- `ACE_OS::rename`; `none` is a value other than 0. -/
def os_rename (room : Bytes → Bool) (files : Files Bytes Bytes) (old new : Bytes) :
    Option (Files Bytes Bytes) :=
  if files.names old = none ∨ room new = false then none else some (files.move old new)

/-! ## §2. The threads. -/

/-- The *.done file a thread is at, and the mailbox its mails are for. -/
structure Entry where
  path : Bytes
  mbox_id : Bytes

/-- Where a thread of the processor stands in `svc()`. -/
inductive Thread where
  | getq
  /-- it has a message: the path of a *.done file, or nothing -/
  | got (mb : Option Bytes)
  | opening (path : Bytes)
  | reading (d : Entry) (mails : List Spooled_Mail)
  | imported (d : Entry) (mail : Spooled_Mail) (e : MIME_Entity) (mails : List Spooled_Mail)
  | sized (d : Entry) (mail : Spooled_Mail) (e : MIME_Entity) (m_size : Int)
      (mails : List Spooled_Mail)
  | moved (d : Entry) (row : Row) (mails : List Spooled_Mail)
  /-- at the test of `i < MAX_RENAME_TRY` -/
  | backing (d : Entry) (i : Nat)
  | chosen (d : Entry) (i : Nat) (path_done_bak : Bytes)
  /-- at the end of the pass, where `busy_counter` goes -/
  | passed
  /-- behind the `break`, where it goes as well -/
  | leaving
  | stopped

def Thread.isStopped : Thread → Bool
  | .stopped => true
  | _ => false

/-- Where the scanner stands in its `svc()`. -/
inductive Scanner where
  | looping
  | opening
  /-- the names that `dir.read()` has returned -/
  | listing (seen : List Bytes)
  /-- the path that is put into the queue next -/
  | found (seen : List Bytes) (file : Bytes)
  | sleeping
  /-- `is_empty()` has said so, and `busy()` comes next -/
  | emptied
  | stopped

/-- Where `run_mboxd_test` stands. -/
inductive Main where
  | serving
  /-- in `scanner.stop()` -/
  | stopping
  /-- in `mp.stop()`, with so many messages to put -/
  | putting (n : Nat)
  /-- in `wait()` -/
  | waiting
  | exited

structure Mboxd (T : Type) where
  files : Files Bytes Bytes
  /-- the rows of the databases there are -/
  mbox : Bytes → Option (List Row)
  /-- the message queue -/
  queue : List (Option Bytes)
  n_busy_thread_ : Int
  threads : T → Thread
  scanner : Scanner
  go_ : Bool
  main : Main

/-- What the program starts with, behind `mp.start()` and `scanner.start()`: these databases
    are there, and no mail is. -/
def start {T : Type} (dbs : Bytes → Bool) : Mboxd T where
  files := .empty
  mbox path_db := if dbs path_db then some [] else none
  queue := []
  n_busy_thread_ := 0
  threads _ := .getq
  scanner := .looping
  go_ := true
  main := .serving

section Steps

variable {T : Type} (c : Site)

/-- The row of a mail. -/
def row_of (mail : Spooled_Mail) (e : MIME_Entity) (m_size : Int) : Row :=
  ⟨mail.m_id, mail.m_folder, c.summary e, m_size⟩

/-- `stmt->ExecuteAndFree()`, where it throws nothing. -/
def insert_row (mbox : Bytes → Option (List Row)) (path_db : Bytes) (row : Row) :
    Bytes → Option (List Row) :=
  Function.update mbox path_db ((mbox path_db).map (· ++ [row]))

/-- The next step of a thread, with what `ACE_OS::time()` returns and whether the insertion is
    done.  There is none at an empty queue, and where a null pointer is read. -/
def svc_step (s : Mboxd T) (now : UInt32) (inserted : Bool) : Thread → Option (Mboxd T × Thread)
  | .getq =>
      match s.queue with
      | [] => none
      | mb :: queue => some ({ s with queue := queue }, .got mb)
  | .got mb =>
      some ({ s with n_busy_thread_ := s.n_busy_thread_ + 1 },
        match mb with
        | none => .leaving
        | some path => .opening path)
  | .opening path =>
      (mbox_id path).bind fun id =>
        match s.mbox (c.path_mbox_user_db id) with
        | none => some (s, .backing ⟨path, id⟩ 0)  -- SQLiteException
        | some _ =>
            (s.files.content path).bind fun fp =>
              (c.parse_done path fp).map fun mails => (s, .reading ⟨path, id⟩ mails)
  | .reading d [] => some (s, .backing d 0)
  | .reading d (mail :: mails) =>
      match s.files.content mail.path_spool_mail with
      | none => some (s, .reading d mails)
      | some file =>
          let r := import_file file .ALL true
          if r.2 < 0 then some (s, .reading d mails) else some (s, .imported d mail r.1 mails)
  | .imported d mail e mails =>
      let m_size : Int :=
        match s.files.content mail.path_spool_mail with
        | none => -1
        | some file => file.length
      some (s, .sized d mail e m_size mails)
  | .sized d mail e m_size mails =>
      match os_rename c.room s.files mail.path_spool_mail (c.path_user_mail d.mbox_id mail.m_id) with
      | none => some (s, .reading d mails)
      | some files => some ({ s with files := files }, .moved d (row_of c mail e m_size) mails)
  | .moved d row mails =>
      some (if inserted then
          { s with mbox := insert_row s.mbox (c.path_mbox_user_db d.mbox_id) row }
        else s, .reading d mails)
  | .backing d i =>
      if i < MAX_RENAME_TRY then
        let bak := c.path_done_bak d.mbox_id now i
        some (s, if s.files.names bak ≠ none then .backing d (i + 1) else .chosen d i bak)
      else some (s, .passed)
  | .chosen d i bak =>
      match os_rename c.room s.files d.path bak with
      | none => some (s, .backing d (i + 1))
      | some files => some ({ s with files := files }, .passed)
  | .passed => some ({ s with n_busy_thread_ := s.n_busy_thread_ - 1 }, .getq)
  | .leaving => some ({ s with n_busy_thread_ := s.n_busy_thread_ - 1 }, .stopped)
  | .stopped => none

/-- `ACE_OS::strcasecmp(".done", file.c_str() + file.size() - 5) == 0` -/
def Is_Done (file : Bytes) : Prop := os_strcasecmp (lit ".done") (file.drop (file.length - 5)) = 0

instance (file : Bytes) : Decidable (Is_Done file) := inferInstanceAs (Decidable (_ = _))

/-- The next step of the scanner; `dirent` is whether the directory can be opened, and what
    `dir.read()` returns, each name once. -/
def scan_step (s : Mboxd T) (dirent : Option Bytes) : Option (Mboxd T) :=
  match s.scanner with
  | .looping => some { s with scanner := if s.go_ then .opening else .stopped }
  | .opening =>
      some { s with scanner := if dirent.isSome then .listing [] else .sleeping }
  | .listing seen =>
      match dirent with
      | none => some { s with scanner := .sleeping }
      | some d_name =>
          if d_name ∈ seen ∨ d_name = [] ∨ SLASH ∈ d_name ∨ NUL ∈ d_name then none
          else
            let file := c.path_spool ++ dir_sep ++ d_name
            if file.length < 5 then none  -- in front of the string
            else if s.files.names file ≠ none ∧ Is_Done file then
              some { s with scanner := .found (d_name :: seen) file }
            else some { s with scanner := .listing (d_name :: seen) }
  | .found seen file =>
      -- `mb->copy` copies nothing where the path is longer than the block
      if file.length < 2048 then
        some { s with queue := s.queue ++ [some file], scanner := .listing seen }
      else none
  | .sleeping => some { s with scanner := if s.queue = [] then .emptied else .sleeping }
  | .emptied => some { s with scanner := if s.n_busy_thread_ = 0 then .looping else .sleeping }
  | .stopped => none

def Scanner.isStopped : Scanner → Bool
  | .stopped => true
  | _ => false

variable [Fintype T]

/-- `thr_count()` -/
def thr_count (s : Mboxd T) : Nat :=
  (Finset.univ.filter fun t => (s.threads t).isStopped = false).card

/-- The next step of `run_mboxd_test`, from the command "stop" on. -/
def main_step (s : Mboxd T) : Option (Mboxd T) :=
  match s.main with
  | .serving => some { s with go_ := false, main := .stopping }
  | .stopping =>
      if s.scanner.isStopped then some { s with main := .putting (thr_count s) } else none
  | .putting 0 => some { s with main := .waiting }
  | .putting (n + 1) => some { s with queue := s.queue ++ [none], main := .putting n }
  | .waiting =>
      if ∀ t, (s.threads t).isStopped = true then
        some { s with n_busy_thread_ := 0, main := .exited }
      else none
  | .exited => none

/-- Whose step it is. -/
inductive Event (T : Type) where
  /-- another program puts a file there -/
  | create (path file : Bytes)
  | thread (t : T) (now : UInt32) (inserted : Bool)
  | scanner (dirent : Option Bytes)
  | main

def step [DecidableEq T] (s : Mboxd T) : Event T → Option (Mboxd T)
  | .create path file =>
      if s.files.names path = none then some { s with files := s.files.create path file } else none
  | .thread t now inserted =>
      (svc_step c s now inserted (s.threads t)).map fun r =>
        { r.1 with threads := Function.update r.1.threads t r.2 }
  | .scanner dirent => scan_step c s dirent
  | .main => main_step s

/-! ## §3. What a step can be. -/

/-- What a step of a thread can be. -/
inductive Svc (s : Mboxd T) : Thread → Mboxd T → Thread → Prop
  | take {mb : Option Bytes} {queue : List (Option Bytes)} :
      s.queue = mb :: queue → Svc s .getq { s with queue := queue } (.got mb)
  | leave : Svc s (.got none) { s with n_busy_thread_ := s.n_busy_thread_ + 1 } .leaving
  | enter {path : Bytes} :
      Svc s (.got (some path)) { s with n_busy_thread_ := s.n_busy_thread_ + 1 } (.opening path)
  | no_db {path id : Bytes} :
      mbox_id path = some id → Svc s (.opening path) s (.backing ⟨path, id⟩ 0)
  | parsed {path id fp : Bytes} {mails : List Spooled_Mail} :
      mbox_id path = some id → s.files.content path = some fp →
      c.parse_done path fp = some mails → Svc s (.opening path) s (.reading ⟨path, id⟩ mails)
  | eof {d : Entry} : Svc s (.reading d []) s (.backing d 0)
  | skipped {d : Entry} {mail : Spooled_Mail} {mails : List Spooled_Mail} :
      Svc s (.reading d (mail :: mails)) s (.reading d mails)
  | imported {d : Entry} {mail : Spooled_Mail} (e : MIME_Entity) {mails : List Spooled_Mail} :
      Svc s (.reading d (mail :: mails)) s (.imported d mail e mails)
  | sized {d : Entry} {mail : Spooled_Mail} {e : MIME_Entity} (m_size : Int)
      {mails : List Spooled_Mail} :
      Svc s (.imported d mail e mails) s (.sized d mail e m_size mails)
  | moved {d : Entry} {mail : Spooled_Mail} {e : MIME_Entity} {m_size : Int}
      {mails : List Spooled_Mail} {files : Files Bytes Bytes} :
      os_rename c.room s.files mail.path_spool_mail (c.path_user_mail d.mbox_id mail.m_id)
        = some files →
      Svc s (.sized d mail e m_size mails) { s with files := files }
        (.moved d (row_of c mail e m_size) mails)
  | kept {d : Entry} {mail : Spooled_Mail} {e : MIME_Entity} {m_size : Int}
      {mails : List Spooled_Mail} :
      Svc s (.sized d mail e m_size mails) s (.reading d mails)
  | inserted {d : Entry} {row : Row} {mails : List Spooled_Mail} :
      Svc s (.moved d row mails)
        { s with mbox := insert_row s.mbox (c.path_mbox_user_db d.mbox_id) row }
        (.reading d mails)
  | no_row {d : Entry} {row : Row} {mails : List Spooled_Mail} :
      Svc s (.moved d row mails) s (.reading d mails)
  | next {d : Entry} {i : Nat} : Svc s (.backing d i) s (.backing d (i + 1))
  | free {d : Entry} {i : Nat} (now : UInt32) :
      s.files.names (c.path_done_bak d.mbox_id now i) = none →
      Svc s (.backing d i) s (.chosen d i (c.path_done_bak d.mbox_id now i))
  | given_up {d : Entry} {i : Nat} : Svc s (.backing d i) s .passed
  | backed {d : Entry} {i : Nat} {bak : Bytes} {files : Files Bytes Bytes} :
      os_rename c.room s.files d.path bak = some files →
      Svc s (.chosen d i bak) { s with files := files } .passed
  | again {d : Entry} {i : Nat} {bak : Bytes} : Svc s (.chosen d i bak) s (.backing d (i + 1))
  | pass : Svc s .passed { s with n_busy_thread_ := s.n_busy_thread_ - 1 } .getq
  | stop : Svc s .leaving { s with n_busy_thread_ := s.n_busy_thread_ - 1 } .stopped

omit [Fintype T] in
/-- **Nothing else is a step of a thread.** -/
theorem svc_of_step {s s' : Mboxd T} {now : UInt32} {ins : Bool} {th th' : Thread}
    (h : svc_step c s now ins th = some (s', th')) : Svc c s th s' th' := by
  cases th with
  | getq =>
      rw [svc_step] at h
      split at h
      · exact absurd h (by simp)
      · next hqueue =>
          obtain ⟨rfl, rfl⟩ := Prod.mk.inj (Option.some.inj h)
          exact .take hqueue
  | got mb =>
      obtain ⟨rfl, rfl⟩ := Prod.mk.inj (Option.some.inj h)
      cases mb with
      | none => exact .leave
      | some path => exact .enter
  | opening path =>
      obtain ⟨id, hid, h⟩ := Option.bind_eq_some_iff.mp h
      split at h
      · obtain ⟨rfl, rfl⟩ := Prod.mk.inj (Option.some.inj h)
        exact .no_db hid
      · obtain ⟨fp, hfp, h⟩ := Option.bind_eq_some_iff.mp h
        obtain ⟨mails, hmails, h⟩ := Option.map_eq_some_iff.mp h
        obtain ⟨rfl, rfl⟩ := Prod.mk.inj h
        exact .parsed hid hfp hmails
  | reading d mails =>
      cases mails with
      | nil =>
          obtain ⟨rfl, rfl⟩ := Prod.mk.inj (Option.some.inj h)
          exact .eof
      | cons mail mails =>
          rw [svc_step] at h
          split at h
          · obtain ⟨rfl, rfl⟩ := Prod.mk.inj (Option.some.inj h)
            exact .skipped
          · dsimp only at h
            split_ifs at h
            · obtain ⟨rfl, rfl⟩ := Prod.mk.inj (Option.some.inj h)
              exact .skipped
            · obtain ⟨rfl, rfl⟩ := Prod.mk.inj (Option.some.inj h)
              exact .imported _
  | imported d mail e mails =>
      obtain ⟨rfl, rfl⟩ := Prod.mk.inj (Option.some.inj h)
      exact .sized _
  | sized d mail e m_size mails =>
      rw [svc_step] at h
      split at h
      · obtain ⟨rfl, rfl⟩ := Prod.mk.inj (Option.some.inj h)
        exact .kept
      · next hfiles =>
          obtain ⟨rfl, rfl⟩ := Prod.mk.inj (Option.some.inj h)
          exact .moved hfiles
  | moved d row mails =>
      obtain ⟨rfl, rfl⟩ := Prod.mk.inj (Option.some.inj h)
      split_ifs
      · exact .inserted
      · exact .no_row
  | backing d i =>
      rw [svc_step] at h
      dsimp only at h
      split_ifs at h with hi hbak
      · obtain ⟨rfl, rfl⟩ := Prod.mk.inj (Option.some.inj h)
        exact .next
      · obtain ⟨rfl, rfl⟩ := Prod.mk.inj (Option.some.inj h)
        exact .free now (not_not.mp hbak)
      · obtain ⟨rfl, rfl⟩ := Prod.mk.inj (Option.some.inj h)
        exact .given_up
  | chosen d i bak =>
      rw [svc_step] at h
      split at h
      · obtain ⟨rfl, rfl⟩ := Prod.mk.inj (Option.some.inj h)
        exact .again
      · next hfiles =>
          obtain ⟨rfl, rfl⟩ := Prod.mk.inj (Option.some.inj h)
          exact .backed hfiles
  | passed =>
      obtain ⟨rfl, rfl⟩ := Prod.mk.inj (Option.some.inj h)
      exact .pass
  | leaving =>
      obtain ⟨rfl, rfl⟩ := Prod.mk.inj (Option.some.inj h)
      exact .stop
  | stopped => exact absurd h (by simp [svc_step])

/-- What a step of the scanner can be. -/
inductive Scan (s : Mboxd T) : Mboxd T → Prop
  | loop : s.scanner = .looping → Scan s { s with scanner := .opening }
  | leave : s.scanner = .looping → Scan s { s with scanner := .stopped }
  | opened : s.scanner = .opening → Scan s { s with scanner := .listing [] }
  | unopened : s.scanner = .opening → Scan s { s with scanner := .sleeping }
  | found {seen : List Bytes} {d_name : Bytes} :
      s.scanner = .listing seen → d_name ∉ seen →
      s.files.names (c.path_spool ++ dir_sep ++ d_name) ≠ none →
      Is_Done (c.path_spool ++ dir_sep ++ d_name) →
      Scan s { s with scanner := .found (d_name :: seen) (c.path_spool ++ dir_sep ++ d_name) }
  | other {seen : List Bytes} (d_name : Bytes) :
      s.scanner = .listing seen → Scan s { s with scanner := .listing (d_name :: seen) }
  | closed {seen : List Bytes} :
      s.scanner = .listing seen → Scan s { s with scanner := .sleeping }
  | put {seen : List Bytes} {file : Bytes} :
      s.scanner = .found seen file →
      Scan s { s with queue := s.queue ++ [some file], scanner := .listing seen }
  | empty : s.scanner = .sleeping → s.queue = [] → Scan s { s with scanner := .emptied }
  | sleep : s.scanner = .sleeping → Scan s { s with scanner := .sleeping }
  | idle : s.scanner = .emptied → s.n_busy_thread_ = 0 → Scan s { s with scanner := .looping }
  | busy : s.scanner = .emptied → Scan s { s with scanner := .sleeping }

omit [Fintype T] in
theorem scan_of_step {s s' : Mboxd T} {dirent : Option Bytes} (h : scan_step c s dirent = some s') :
    Scan c s s' := by
  unfold scan_step at h
  cases hscan : s.scanner with
  | looping =>
      rw [hscan] at h
      obtain rfl := Option.some.inj h
      split_ifs
      · exact .loop hscan
      · exact .leave hscan
  | opening =>
      rw [hscan] at h
      obtain rfl := Option.some.inj h
      split_ifs
      · exact .opened hscan
      · exact .unopened hscan
  | listing seen =>
      rw [hscan] at h
      cases dirent with
      | none =>
          obtain rfl := Option.some.inj h
          exact .closed hscan
      | some d_name =>
          dsimp only at h
          split_ifs at h with hname hlen hfile
          · obtain rfl := Option.some.inj h
            exact .found hscan (fun hin => hname (Or.inl hin)) hfile.1 hfile.2
          · obtain rfl := Option.some.inj h
            exact .other d_name hscan
  | found seen file =>
      rw [hscan] at h
      dsimp only at h
      split_ifs at h
      obtain rfl := Option.some.inj h
      exact .put hscan
  | sleeping =>
      rw [hscan] at h
      obtain rfl := Option.some.inj h
      split_ifs with hqueue
      · exact .empty hscan hqueue
      · exact .sleep hscan
  | emptied =>
      rw [hscan] at h
      obtain rfl := Option.some.inj h
      split_ifs with hbusy
      · exact .idle hscan hbusy
      · exact .busy hscan
  | stopped =>
      rw [hscan] at h
      exact absurd h (by simp)

/-- What a step of `run_mboxd_test` can be. -/
inductive Stop (s : Mboxd T) : Mboxd T → Prop
  | signal : s.main = .serving → Stop s { s with go_ := false, main := .stopping }
  | scanner : s.main = .stopping → s.scanner = .stopped →
      Stop s { s with main := .putting (thr_count s) }
  | all : s.main = .putting 0 → Stop s { s with main := .waiting }
  | put {n : Nat} : s.main = .putting (n + 1) →
      Stop s { s with queue := s.queue ++ [none], main := .putting n }
  | wait : s.main = .waiting → (∀ t, s.threads t = .stopped) →
      Stop s { s with n_busy_thread_ := 0, main := .exited }

theorem stop_of_step {s s' : Mboxd T} (h : main_step s = some s') : Stop s s' := by
  unfold main_step at h
  cases hmain : s.main with
  | serving =>
      rw [hmain] at h
      obtain rfl := Option.some.inj h
      exact .signal hmain
  | stopping =>
      rw [hmain] at h
      dsimp only at h
      split_ifs at h with hscan
      obtain rfl := Option.some.inj h
      refine .scanner hmain ?_
      cases hs : s.scanner with
      | stopped => rfl
      | _ => rw [hs] at hscan; exact absurd hscan (by simp [Scanner.isStopped])
  | putting n =>
      rw [hmain] at h
      cases n with
      | zero =>
          obtain rfl := Option.some.inj h
          exact .all hmain
      | succ n =>
          obtain rfl := Option.some.inj h
          exact .put hmain
  | waiting =>
      rw [hmain] at h
      dsimp only at h
      split_ifs at h with hall
      obtain rfl := Option.some.inj h
      refine .wait hmain fun t => ?_
      have ht := hall t
      cases hs : s.threads t with
      | stopped => rfl
      | _ => rw [hs] at ht; exact absurd ht (by simp [Thread.isStopped])
  | exited =>
      rw [hmain] at h
      exact absurd h (by simp)

variable [DecidableEq T]

/-- What a step can be. -/
inductive Step (s : Mboxd T) : Event T → Mboxd T → Prop
  | create {path : Bytes} (file : Bytes) : s.files.names path = none →
      Step s (.create path file) { s with files := s.files.create path file }
  | thread {t : T} {now : UInt32} {ins : Bool} {s' : Mboxd T} {th' : Thread} :
      Svc c s (s.threads t) s' th' →
      Step s (.thread t now ins) { s' with threads := Function.update s.threads t th' }
  | scanner {dirent : Option Bytes} {s' : Mboxd T} : Scan c s s' → Step s (.scanner dirent) s'
  | main {s' : Mboxd T} : Stop s s' → Step s .main s'

omit [Fintype T] [DecidableEq T] in
/-- A step of a thread leaves the places of the others, of the scanner and of the program. -/
theorem Svc.frame {s s' : Mboxd T} {th th' : Thread} (h : Svc c s th s' th') :
    s'.threads = s.threads ∧ s'.scanner = s.scanner ∧ s'.main = s.main ∧ s'.go_ = s.go_ := by
  cases h <;> exact ⟨rfl, rfl, rfl, rfl⟩

theorem step_cases {s s' : Mboxd T} {e : Event T} (h : step c s e = some s') : Step c s e s' := by
  cases e with
  | create path file =>
      unfold step at h
      dsimp only at h
      split_ifs at h with hfree
      obtain rfl := Option.some.inj h
      exact .create file hfree
  | thread t now ins =>
      obtain ⟨r, hr, rfl⟩ := Option.map_eq_some_iff.mp h
      have hsvc := svc_of_step c hr
      rw [(hsvc.frame c).1]
      exact .thread hsvc
  | scanner dirent => exact .scanner (scan_of_step c h)
  | main => exact .main (stop_of_step h)

/-! ## §4. The queue and the threads. -/

/-- What a thread has taken from the queue. -/
def Thread.hand : Thread → Hand Bytes
  | .getq => .free
  | .got none => .ended
  | .got (some path) => .job path
  | .opening path => .job path
  | .reading d _ => .job d.path
  | .imported d _ _ _ => .job d.path
  | .sized d _ _ _ _ => .job d.path
  | .moved d _ _ => .job d.path
  | .backing d _ => .job d.path
  | .chosen d _ _ => .job d.path
  | .passed => .free
  | .leaving => .ended
  | .stopped => .ended

def pool (s : Mboxd T) : Pool T Bytes := ⟨s.queue, fun t => (s.threads t).hand⟩

omit [Fintype T] [DecidableEq T] in
theorem Svc.hand {s s' : Mboxd T} {th th' : Thread} (h : Svc c s th s' th') :
    (s'.queue = s.queue ∧ th'.hand = th.hand) ∨
      (∃ mb, s.queue = mb :: s'.queue ∧ th.hand = .free ∧ th'.hand = taken mb) ∨
      (s'.queue = s.queue ∧ (∃ path, th.hand = .job path) ∧ th'.hand = .free) := by
  cases h with
  | @take mb queue hqueue =>
      refine Or.inr (Or.inl ⟨mb, hqueue, rfl, ?_⟩)
      cases mb with
      | none => rfl
      | some path => rfl
  | given_up => exact Or.inr (Or.inr ⟨rfl, ⟨_, rfl⟩, rfl⟩)
  | backed _ => exact Or.inr (Or.inr ⟨rfl, ⟨_, rfl⟩, rfl⟩)
  | _ => exact Or.inl ⟨rfl, rfl⟩

omit [Fintype T] in
theorem hand_update (s : Mboxd T) (t : T) (th' : Thread) :
    (fun u => (Function.update s.threads t th' u).hand)
      = Function.update (pool s).hand t th'.hand := by
  funext u
  exact Function.apply_update (fun _ th => Thread.hand th) s.threads t th' u

/-- Whose step puts what into the queue. -/
def Puts (s : Mboxd T) : Event T → WorkQueue.Act T Bytes → Prop
  | .scanner _, .put (some file) => ∃ seen, s.scanner = .found seen file
  | .main, .put none => ∃ n, s.main = .putting (n + 1)
  | .thread t _ _, .take t' => t = t'
  | .thread t _ _, .release t' => t = t'
  | _, _ => False

/-- **The program is a queue of jobs**: a step is one of the queue's, or it does not concern it. -/
theorem pool_step {s s' : Mboxd T} {e : Event T} (h : Step c s e s') :
    pool s' = pool s ∨ ∃ a, WorkQueue.Step (pool s) a (pool s') ∧ Puts s e a := by
  cases h with
  | create _ _ => exact Or.inl rfl
  | @thread t _ _ s₁ th' hsvc =>
      have hpool : pool { s₁ with threads := Function.update s.threads t th' }
          = ⟨s₁.queue, Function.update (pool s).hand t th'.hand⟩ :=
        congrArg (Pool.mk s₁.queue) (hand_update s t th')
      rw [hpool]
      rcases hsvc.hand with ⟨hqueue, hhand⟩ | ⟨mb, hqueue, hfree, htaken⟩ | ⟨hqueue, ⟨path, hjob⟩, hfree⟩
      · left
        rw [hqueue, hhand]
        exact congrArg (Pool.mk s.queue) (Function.update_eq_self t (pool s).hand)
      · right
        rw [htaken]
        exact ⟨.take t, .take hfree hqueue, rfl⟩
      · right
        rw [hqueue, hfree]
        exact ⟨.release t, .release hjob, rfl⟩
  | scanner hscan =>
      cases hscan with
      | put hfound => exact Or.inr ⟨.put (some _), .put _, _, hfound⟩
      | _ => exact Or.inl rfl
  | main hstop =>
      cases hstop with
      | put hput => exact Or.inr ⟨.put none, .put _, _, hput⟩
      | _ => exact Or.inl rfl

end Steps

end Mail_Processor

end Aos
