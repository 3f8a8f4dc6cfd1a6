/-
  Aos.Mp.Worker — `MP_Worker`, which takes mails from its queue, imports them and moves
  them on.

  `MIME_Util::import_file` returns how many bytes it has read, or -1 for a file that it
  cannot open.  The worker takes every value but 0 for a failure, so that the mails it
  moves are the empty ones.

  Main results:
    • `import_value`      — what the import of a file returns;
    • `handled_iff`       — when one mail is handled as it should be;
    • `worker_handles_iff` — and all the mails of a run.
-/
import Aos.Mime.HeaderOnly

namespace Aos

open Lib.Lines MIME_Entity

/-! ## §1. The worker. -/

/-- `MP_Queue`, as far as the worker reads it. -/
structure MP_Queue where
  /-- the folder its mails are moved to -/
  next : Bytes

/-- `MP_Message`: a string and its `obj()`. -/
structure MP_Message where
  str : Bytes
  queue : MP_Queue

/-- What the worker does that can be seen. -/
inductive MP_Event
  /-- `"import_file() failed!"` -/
  | import_failed (path : Bytes)
  /-- `rename`, and whether it succeeded; if not, that is reported -/
  | rename (path target : Bytes) (ok : Bool)
  deriving DecidableEq

/-- The files that can be opened and read, and what the worker has done. -/
structure MP_Worker where
  files : Bytes → Option Bytes
  log : List MP_Event

/-- `ACE::basename(path)`: what stands behind the last slash. -/
def basename (path : Bytes) : Bytes := (path.reverse.takeWhile (· ≠ 47)).reverse

/-- What `MIME_Util::import_file(e, path)` returns. -/
def util_import_file (files : Bytes → Option Bytes) (path : Bytes) : Int :=
  match files path with
  | none => -1
  | some content => (import_file_handle content .ALL true).2

/-- What `rename` does to the files. -/
def rename_file (files : Bytes → Option Bytes) (path target : Bytes) : Bytes → Option Bytes :=
  fun p => if p = target then files path else if p = path then none else files p

namespace MP_Message

/-- `next` and the name of the file. -/
def target (msg : MP_Message) : Bytes := msg.queue.next ++ basename (c_str msg.str)

end MP_Message

namespace MP_Worker

/-- One pass of the loop, for a message that is not empty; `ok` is whether `rename` succeeds. -/
def process (s : MP_Worker) (msg : MP_Message) (ok : Bool) : MP_Worker :=
  let path := c_str msg.str
  if util_import_file s.files path ≠ 0 then { s with log := s.log ++ [.import_failed path] }
  else if msg.queue.next ≠ [] then
    ⟨if ok then rename_file s.files path msg.target else s.files,
      s.log ++ [.rename path msg.target ok]⟩
  else s

/-- `svc()`, for the messages it dequeues: an empty one ends the loop. -/
def svc (s : MP_Worker) : List (MP_Message × Bool) → MP_Worker
  | [] => s
  | m :: ms => if m.1.str = [] then s else svc (s.process m.1 m.2) ms

end MP_Worker

/-! ## §2. What the import returns. -/

/-- Without an early end every line is counted. -/
theorem import_from_count (buf : Bytes) (bufs : List Bytes) (hbufs : ∀ b ∈ buf :: bufs, b ≠ [])
    (no_hidden_header : Bool) :
    (import_from (buf :: bufs) .ALL no_hidden_header).2
      = count_lines (all_lines (get_line_delimiter buf) (buf :: bufs).flatten) := by
  have hflag : Flag.ALL ≠ .HEADER := by decide
  have hparse := (feed_to_end .ALL no_hidden_header hflag
    (cut (get_line_delimiter buf) [] (buf :: bufs).flatten).1 new 0).1
  have hcount := feed_count .ALL no_hidden_header _ new 0 hparse
  rw [import_buffers_eq .ALL no_hidden_header buf bufs hbufs]
  unfold finish read_stream all_lines
  dsimp only
  rw [if_pos hparse, if_pos hparse, hcount]
  unfold count_lines
  rw [List.map_append, List.sum_append, List.map_singleton, List.sum_singleton, Int.zero_add]

/-- The lengths of the lines of a file, each as an `int`, added up. -/
def line_sum (file : Bytes) : Int :=
  count_lines (all_lines (get_line_delimiter (file.take 16384)) file)

/-- **What `import_file_handle` returns** for a file that it reads to its end. -/
theorem import_value (file : Bytes) : (import_file_handle file .ALL true).2 = line_sum file := by
  unfold import_file_handle line_sum
  by_cases hfile : file = []
  · have hzero : toInt 0 = 0 := by decide
    rw [hfile, reads, dif_pos (Or.inl rfl)]
    show 0 + toInt 0 = toInt 0 + 0
    rw [hzero]
  · have hsize : (16384 : Nat) ≠ 0 := by decide
    have hne : ∀ b ∈ file.take 16384 :: reads 16384 (file.drop 16384), b ≠ [] := by
      rw [← reads_cons 16384 hsize file hfile]
      exact reads_ne_nil 16384 file
    rw [reads_cons 16384 hsize file hfile, import_from_count _ _ hne,
      ← reads_cons 16384 hsize file hfile, reads_flatten 16384 hsize]

/-- Of the files below two gigabytes it is 0 for the empty one only. -/
theorem line_sum_zero_iff {file : Bytes} (h : file.length < 2 ^ 31) :
    line_sum file = 0 ↔ file = [] := by
  have hlost := count_lines_lost (all_lines (get_line_delimiter (file.take 16384)) file)
  rw [all_lines_flatten] at hlost
  have hshort : lost (all_lines (get_line_delimiter (file.take 16384)) file) = 0 := by
    apply lost_short
    intro l hl
    have hle := (List.sublist_flatten_of_mem hl).length_le
    rw [all_lines_flatten] at hle
    omega
  unfold line_sum
  rw [← List.length_eq_zero_iff]
  omega

/-! ## §3. The mails. -/

namespace MP_Worker

/-- What is asked of a pass: a mail that can be read and has a next folder is moved there once,
    if `rename` succeeds, and none is reported that could be opened. -/
structure Handled (s s' : MP_Worker) (msg : MP_Message) (ok : Bool) : Prop where
  moved : ∀ content, s.files (c_str msg.str) = some content → msg.queue.next ≠ [] →
    s'.log = s.log ++ [.rename (c_str msg.str) msg.target ok] ∧
      s'.files = if ok then rename_file s.files (c_str msg.str) msg.target else s.files
  reported : s'.log = s.log ++ [.import_failed (c_str msg.str)] → s.files (c_str msg.str) = none

/-- The worker can tell: the file cannot be opened, or its lines add up to 0. -/
def Told (s : MP_Worker) (msg : MP_Message) : Prop :=
  ∀ content, s.files (c_str msg.str) = some content → line_sum content = 0

/-- **A mail is handled as it should be exactly when it cannot be opened or its lines add up
    to 0.** -/
theorem handled_iff (s : MP_Worker) (msg : MP_Message) (ok : Bool) :
    Handled s (s.process msg ok) msg ok ↔ s.Told msg := by
  unfold Told process
  cases hfile : s.files (c_str msg.str) with
  | none =>
      refine iff_of_true ⟨fun content h => ?_, fun _ => hfile⟩ fun content h => ?_
      · exact absurd (hfile.symm.trans h) (by simp)
      · exact absurd h (by simp)
  | some content =>
      have hvalue : util_import_file s.files (c_str msg.str) = line_sum content := by
        unfold util_import_file
        rw [hfile]
        exact import_value content
      simp only [hvalue, Option.some.injEq, forall_eq']
      by_cases hsum : line_sum content = 0
      · rw [if_neg (not_not.mpr hsum)]
        refine iff_of_true ⟨fun _ _ hnext => ?_, fun h => ?_⟩ hsum
        · rw [if_pos hnext]
          exact ⟨rfl, rfl⟩
        · -- nothing is reported here
          by_cases hnext : msg.queue.next ≠ []
          · rw [if_pos hnext] at h
            exact absurd (List.append_cancel_left h) (by simp)
          · rw [if_neg hnext] at h
            have hlen := congrArg List.length h
            rw [List.length_append, List.length_singleton] at hlen
            omega
      · rw [if_pos hsum]
        refine iff_of_false (fun h => ?_) hsum
        exact absurd (hfile.symm.trans (h.reported rfl)) (by simp)

/-! ## §4. A run. -/

/-- Messages that are not empty are taken one after the other. -/
theorem svc_eq_foldl (ms : List (MP_Message × Bool)) :
    ∀ s : MP_Worker, (∀ m ∈ ms, m.1.str ≠ []) →
      s.svc ms = ms.foldl (fun s m => s.process m.1 m.2) s := by
  induction ms with
  | nil => intro s _; rfl
  | cons m ms ih =>
      intro s h
      rw [svc, if_neg (h m List.mem_cons_self),
        ih _ fun m' hm' => h m' (List.mem_cons_of_mem m hm'), List.foldl_cons]

/-- **In every run all the mails are handled as they should be exactly when each of them cannot
    be opened or has lines that add up to 0 when its turn comes.** -/
theorem worker_handles_iff (s : MP_Worker) (ms : List (MP_Message × Bool))
    (h : ∀ m ∈ ms, m.1.str ≠ []) :
    (∀ pre m, pre ++ [m] <+: ms → Handled (s.svc pre) (s.svc (pre ++ [m])) m.1 m.2)
      ↔ ∀ pre m, pre ++ [m] <+: ms → (s.svc pre).Told m.1 := by
  have hstep : ∀ pre m, pre ++ [m] <+: ms →
      s.svc (pre ++ [m]) = (s.svc pre).process m.1 m.2 := by
    intro pre m hpre
    have hall : ∀ m' ∈ pre ++ [m], m'.1.str ≠ [] := fun m' hm' => h m' (hpre.subset hm')
    rw [svc_eq_foldl _ s hall,
      svc_eq_foldl pre s fun m' hm' => hall m' (List.mem_append_left [m] hm'), List.foldl_append]
    rfl
  constructor
  · intro hall pre m hpre
    have hhandled := hall pre m hpre
    rw [hstep pre m hpre] at hhandled
    exact (handled_iff _ _ _).mp hhandled
  · intro hall pre m hpre
    rw [hstep pre m hpre]
    exact (handled_iff _ _ _).mpr (hall pre m hpre)

/-- A folder with one mail in it. -/
def one_mail (content : Bytes) : MP_Worker :=
  ⟨fun p => if p = lit "in/a.eml" then some content else none, []⟩

/-- The message that is enqueued for it. -/
def one_message : MP_Message := ⟨lit "in/a.eml", ⟨lit "out/"⟩⟩

/-- An empty mail is moved. -/
theorem worker_handles_empty :
    Handled ((one_mail []).svc []) ((one_mail []).svc [(one_message, true)]) one_message true := by
  have hall := (worker_handles_iff (one_mail []) [(one_message, true)] ?_).mpr ?_
  · exact hall [] (one_message, true) (List.prefix_refl _)
  · intro m hm
    rw [List.mem_singleton.mp hm]
    decide
  · rintro pre m hpre content hfile
    have hlen := hpre.length_le
    rw [List.length_append, List.length_singleton, List.length_singleton] at hlen
    obtain rfl : pre = [] := List.length_eq_zero_iff.mp (by omega)
    obtain rfl : m = (one_message, true) := (List.cons_prefix_cons.mp hpre).1
    have hempty : (one_mail []).files (c_str (lit "in/a.eml")) = some [] := by decide
    obtain rfl := Option.some.inj (hempty.symm.trans hfile)
    exact (line_sum_zero_iff (by decide)).mpr rfl

/-- One with a header field is not. -/
theorem worker_strands_mail :
    ¬ Handled (one_mail (lit "A: b\r\n")) ((one_mail (lit "A: b\r\n")).svc [(one_message, true)])
      one_message true := by
  have hfile : (one_mail (lit "A: b\r\n")).files (c_str one_message.str)
      = some (lit "A: b\r\n") := by
    decide
  have hstep : (one_mail (lit "A: b\r\n")).svc [(one_message, true)]
      = (one_mail (lit "A: b\r\n")).process one_message true := if_neg (by decide)
  rw [hstep, handled_iff]
  intro htold
  exact absurd ((line_sum_zero_iff (by decide)).mp (htold _ hfile)) (by decide)

end MP_Worker

end Aos
