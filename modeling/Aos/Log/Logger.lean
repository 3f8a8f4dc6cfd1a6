/-
  Aos.Log.Logger — `Logger`, a log kept in files of one directory.

  The logger writes to one file and adds what it has written to its counters;
  `init` opens a file, counts the directory again and removes old files.  What
  the system answers (times, dates, results of calls) is given with each call,
  and a history is kept of what the calls have met.

  A name is read in front of its first byte when it is shorter than the suffix:
  then there is no result.  Nor is there one when a loop has not come to its end
  with the passes it was given.
-/
import Aos.Str.Compare
import Aos.Lib.Directory
import Aos.Lib.Loop

namespace Aos

open Lib.Directory Lib.Loop

/-! ## §1. Log files. -/

/-- `Logger::LOG_FILES`: `std::map` from ctime to name and size. -/
abbrev LOG_FILES := List (Nat × Bytes × Nat)

/-- `map::insert`: nothing is inserted under a key that is there. -/
def LOG_FILES.insert (files : LOG_FILES) (key : Nat) (value : Bytes × Nat) : LOG_FILES :=
  match files with
  | [] => [(key, value)]
  | f :: rest =>
      if key < f.1 then (key, value) :: f :: rest
      else if key = f.1 then f :: rest
      else f :: LOG_FILES.insert rest key value

namespace Logger

/-- `Logger::is_log_filename`.  `pos -= suffix.size()` is unsigned, so that
    `pos < 0` never holds and the suffix is compared in front of a short name. -/
def is_log_filename (filename prefix_ suffix_ : Bytes) : Option Bool :=
  if os_strncasecmp filename prefix_ prefix_.length = 0 then
    if filename.length < suffix_.length then none
    else
      let suff := filename.drop (filename.length - suffix_.length)
      some (os_strncasecmp suff suffix_ suffix_.length == 0)
  else some false

/-- The members that are set by the constructor. -/
structure Config where
  prefix_ : Bytes
  suffix_ : Bytes
  rotate_time_ : Int
  rotate_size_ : Nat
  store_max_size_ : Nat
  file_max_size_ : Nat

/-- `Logger(dir, prefix, suffix, ...)`: a logger that has neither gets a suffix. -/
def config (prefix_ suffix_ : Bytes) (rotate_time : Int)
    (rotate_size store_max_size file_max_size : Nat) : Config :=
  ⟨prefix_, if prefix_.length = 0 ∧ suffix_.length = 0 then lit "log" else suffix_,
    rotate_time, rotate_size, store_max_size, file_max_size⟩

end Logger

/-- The members that change. -/
structure Logger where
  /-- the file open for writing -/
  fh_ : Option Nat
  ftime_ : Int
  files_ : LOG_FILES
  n_total_ : Nat
  n_file_ : Nat

namespace Logger

/-- What a call has met. -/
inductive Event
  /-- a file was opened: its size, and the one `lstat` gives for its path -/
  | opened (file_size st_size : Nat)
  /-- the directory was scanned, with these ctimes -/
  | scanned (disk : Disk Bytes) (ctime : Nat → Nat) (files_ : LOG_FILES)
  /-- a record was written: the bytes of its timestamp and of its text -/
  | wrote (disk : Disk Bytes) (fh_ : Option Nat) (stamp text : Int)

/-- The logger, the directory it is the only writer of, and what has happened. -/
structure Session where
  self : Logger
  disk : Disk Bytes
  trace : List Event

/-- What the system answers in `open_log`. -/
structure Opening where
  /-- `close` succeeds -/
  closed : Bool
  /-- the start of the period -/
  ftime : Int
  /-- what `strftime` and `sprintf` make of it -/
  date_buf : Bytes
  stamp : Bytes
  /-- `open` fails, or this is the file that is opened where the path leads elsewhere -/
  file : Option Nat

/-- What it answers in `init`. -/
structure Answers where
  first : Opening
  /-- the ctimes of the files -/
  ctime : Nat → Nat
  /-- `gettimeofday()` in `rotate_store` -/
  now : Int
  /-- whether the k-th `unlink` succeeds -/
  unlink : Nat → Bool
  /-- the passes there are for each loop -/
  fuel : Nat
  again : Opening
  ctime_again : Nat → Nat

variable (cfg : Config)

/-! ## §2. `open_log`, `close_log`. -/

def close_log (self : Logger) (closed : Bool) : Logger :=
  if self.fh_.isSome ∧ closed then { self with fh_ := none } else self

/-- The path behind `dir` and the slash. -/
def log_name (o : Opening) : Bytes :=
  cfg.prefix_ ++ o.date_buf ++ (if cfg.file_max_size_ ≠ 0 then o.stamp else []) ++ lit "." ++
    cfg.suffix_

/-- `open(path, O_WRONLY | O_CREAT | O_APPEND)` and `lstat(path)`: the file, and the size
    that is read.  A path with a slash in it, or to what is not a regular file, leads to
    the file `elsewhere`. -/
def open_file (disk : Disk Bytes) (name : Bytes) (elsewhere : Nat) : Disk Bytes × Nat × Nat :=
  if 47 ∈ name then (disk, elsewhere, disk.size elsewhere)
  else
    match h : disk.find name with
    | some e => (disk, if e.regular then e.ino else elsewhere, disk.size e.ino)
    | none => (disk.create name h, disk.fresh, 0)

def open_log (s : Session) (o : Opening) : Session :=
  let self := { close_log s.self o.closed with n_file_ := 0, ftime_ := o.ftime }
  match o.file with
  | none => { s with self := { self with fh_ := none } }
  | some elsewhere =>
      let (disk, fh, st_size) := open_file s.disk (log_name cfg o) elsewhere
      ⟨{ self with fh_ := some fh, n_file_ := st_size }, disk,
        s.trace ++ [.opened (disk.size fh) st_size]⟩

/-! ## §3. `scan_store`. -/

/-- The loop over the directory: the sum of the sizes, and the files. -/
def scan_dir (size ctime : Nat → Nat) :
    List (Entry Bytes) → Nat → LOG_FILES → Option (Nat × LOG_FILES)
  | [], n_total, files => some (n_total, files)
  | e :: dir, n_total, files =>
      if e.regular then
        (is_log_filename e.name cfg.prefix_ cfg.suffix_).bind fun found =>
          if found then
            scan_dir size ctime dir (n_total + size e.ino)
              (files.insert (ctime e.ino) (e.name, size e.ino))
          else scan_dir size ctime dir n_total files
      else scan_dir size ctime dir n_total files

def scan_store (s : Session) (ctime : Nat → Nat) : Option Session :=
  (scan_dir cfg s.disk.size ctime s.disk.dir 0 []).map fun r =>
    ⟨{ s.self with n_total_ := r.1, files_ := r.2 }, s.disk,
      s.trace ++ [.scanned s.disk ctime r.2]⟩

/-! ## §4. `rotate_store`. -/

/-- `remove_log(begin())`, where `ok` says whether `unlink` finds it allowed. -/
def remove_log (s : Session) (ok : Bool) : Session :=
  match s.self.files_ with
  | [] => s
  | f :: rest =>
      if ok ∧ (s.disk.find f.2.1).isSome then
        { s with
          self := { s.self with n_total_ := s.self.n_total_ - f.2.2, files_ := rest }
          disk := s.disk.unlink f.2.1 }
      else s

/-- One pass of a loop over `files_` that removes what is `due`.  Counted are the
    calls of `unlink`. -/
def remove_pass (due : Logger → Nat → Bool) (unlink : Nat → Bool) (s : Session × Nat) :
    (Session × Nat) ⊕ (Session × Nat) :=
  match s.1.self.files_ with
  | [] => .inr s
  | f :: _ =>
      if due s.1.self f.1 then .inl (remove_log s.1 (unlink s.2), s.2 + 1) else .inr s

/-- The test of the first loop: `(size_t) expired.sec() > iter->first`. -/
def expired (now : Int) (_ : Logger) (ctime : Nat) : Bool :=
  ((now - cfg.rotate_time_ * cfg.rotate_size_) % 2 ^ 64).toNat > ctime

/-- The test of the second: `n_total_ + request_size > store_max_size_`. -/
def too_large (request_size : Nat) (self : Logger) (_ : Nat) : Bool :=
  self.n_total_ + request_size > cfg.store_max_size_

/-- "enforce rotate size policy" -/
def rotate_expired (s : Session × Nat) (a : Answers) : Option (Session × Nat) :=
  if cfg.rotate_time_ ≠ 0 ∧ cfg.rotate_size_ ≠ 0 then
    loop (remove_pass (expired cfg a.now) a.unlink) a.fuel s
  else some s

/-- "enforce store max size policy" -/
def rotate_too_large (s : Session × Nat) (request_size : Nat) (a : Answers) :
    Option (Session × Nat) :=
  if cfg.store_max_size_ ≠ 0 then
    loop (remove_pass (too_large cfg request_size) a.unlink) a.fuel s
  else some s

def rotate_store (s : Session) (request_size : Nat) (a : Answers) : Option Session :=
  (rotate_expired cfg (s, 0) a).bind fun s₁ =>
    (rotate_too_large cfg s₁ request_size a).bind fun s₂ =>
      if s₂.1.self.files_.isEmpty then scan_store cfg (open_log cfg s₂.1 a.again) a.ctime_again
      else some s₂.1

/-! ## §5. `init`, `log`. -/

def init (s : Session) (request_size : Nat) (a : Answers) : Option Session :=
  (scan_store cfg (open_log cfg s a.first) a.ctime).bind fun s =>
    rotate_store cfg s request_size a

/-- `write(fh_, buf, len)`, which the system answers with `answer`. -/
def write (s : Session) (len : Nat) (answer : Int) : Session × Int :=
  match s.self.fh_ with
  | none => (s, -1)
  | some fh =>
      let n_write := min answer len
      if n_write > 0 then ({ s with disk := s.disk.append fh n_write.toNat }, n_write)
      else (s, n_write)

/-- What is asked of `log`, and what the system answers. -/
structure Request where
  len : Nat
  /-- the time of the record -/
  time : Int
  /-- null, or the bytes `strftime` makes of the time -/
  time_format : Option Nat
  w_stamp : Int
  w_buf : Int
  for_time : Answers
  for_file : Answers
  for_store : Answers

/-- The text of a record, behind `n_byte` bytes of its timestamp. -/
def log_text (s : Session) (len : Nat) (n_byte w_buf : Int) : Session × Int × Int :=
  let (s, n_write) := write s len w_buf
  if n_write > 0 then
    ({ s with self := { s.self with
        n_total_ := s.self.n_total_ + (n_byte + n_write).toNat
        n_file_ := s.self.n_file_ + (n_byte + n_write).toNat } }, n_byte + n_write, n_write)
  else (s, -1, n_write)

/-- The second half of `log`: the record, and the value returned. -/
def log_record (s : Session) (r : Request) : Session × Int :=
  match r.time_format with
  | none =>
      let (s', rc, text) := log_text s r.len 0 r.w_buf
      ({ s' with trace := s'.trace ++ [.wrote s.disk s.self.fh_ 0 text] }, rc)
  | some n_buf =>
      let (s₁, stamp) := write s n_buf r.w_stamp
      if stamp > 0 then
        let (s', rc, text) := log_text s₁ r.len stamp r.w_buf
        ({ s' with trace := s'.trace ++ [.wrote s.disk s.self.fh_ stamp text] }, rc)
      else (s₁, -1)

/-- `if( due ) this->init(request_size)`. -/
def init_if (due : Bool) (s : Session) (request_size : Nat) (a : Answers) : Option Session :=
  if due then init cfg s request_size a else some s

def log (s : Session) (r : Request) : Option (Session × Int) :=
  (init_if cfg (cfg.rotate_time_ ≠ 0 ∧ r.time - s.self.ftime_ ≥ cfg.rotate_time_) s 0
    r.for_time).bind fun s₁ =>
  (init_if cfg (cfg.file_max_size_ ≠ 0 ∧ s₁.self.n_file_ + r.len > cfg.file_max_size_) s₁ r.len
    r.for_file).bind fun s₂ =>
  (init_if cfg (cfg.store_max_size_ ≠ 0 ∧ s₂.self.n_total_ + r.len > cfg.store_max_size_) s₂ r.len
    r.for_store).map fun s₃ => log_record s₃ r

end Logger

end Aos
