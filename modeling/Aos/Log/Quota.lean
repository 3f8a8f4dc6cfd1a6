/-
  Aos.Log.Quota — how large a `Logger` lets its files become.

  The checks of `log` ask whether there is room for the text of a record; what
  they compare with the limits, and the files, also take its timestamp.  A
  check that fails opens a file and removes old ones until there is room for
  the text.  A call of `log` is three checks and the writing of a record, and
  what has to be so is said of the state in front of each of these moves.

  Main results:
    • `run_moves` — a run of calls is the run of their moves;
    • `left_after_rotation` — what a rotation leaves in the directory;
    • `init_bounded`, `init_room` — `init` makes room, if what it cannot list
      leaves any;
    • `log_quota` — one record;
    • `quota_kept` — whole runs.
-/
import Aos.Log.Accounting

namespace Aos.Logger

open Lib.Directory Lib.Directory.Disk Lib.Loop Lib.Runs Lib.Suffixes

/-! ## §1. The limits. -/

/-- The bytes of the files in a list. -/
def listed_size (files : LOG_FILES) : Nat := (files.map fun f => f.2.2).sum

/-- The bytes of the timestamp. -/
def stamp_size (r : Request) : Nat := r.time_format.getD 0

variable (cfg : Config)

/-- The log files and the current file are within the limits. -/
structure Quota (s : Session) : Prop where
  store : s.disk.total (matched cfg) ≤ cfg.store_max_size_
  file : ∀ fh ∈ s.self.fh_, s.disk.size fh ≤ cfg.file_max_size_

/-- **What a call may meet.**  A path leads to a file no larger than `lstat` says; the text
    of a record is written when its timestamp is, and to a file with one name at most
    among the log files. -/
def Harmless : Event → Prop
  | .opened file_size st_size => file_size ≤ st_size
  | .scanned _ _ _ => True
  | .wrote disk fh_ stamp text =>
      (stamp > 0 → text > 0) ∧ ∀ fh ∈ fh_, disk.links (matched cfg) fh ≤ 1

instance decidableHarmless (ev : Event) : Decidable (Harmless cfg ev) :=
  match ev with
  | .opened file_size st_size => inferInstanceAs (Decidable (file_size ≤ st_size))
  | .scanned _ _ _ => isTrue trivial
  | .wrote disk fh_ stamp text =>
      inferInstanceAs (Decidable ((stamp > 0 → text > 0) ∧
        ∀ fh ∈ fh_, disk.links (matched cfg) fh ≤ 1))

/-- The bytes of the log files in a directory that have the ctime of one in front of them:
    the map keeps one file for each ctime. -/
def unlisted (size ctime : Nat → Nat) : List (Entry Bytes) → List Nat → Nat
  | [], _ => 0
  | e :: dir, seen =>
      if matched cfg e then
        (if ctime e.ino ∈ seen then size e.ino else 0) +
          unlisted size ctime dir (ctime e.ino :: seen)
      else unlisted size ctime dir seen

/-- The bytes that `init` cannot remove: it lists the directory when a file is opened. -/
def kept (s : Session) (a : Answers) : Nat :=
  unlisted cfg (open_log cfg s a.first).disk.size a.ctime (open_log cfg s a.first).disk.dir []

/-- A file was opened, and no record written since. -/
def reopened (s : Session) : Bool :=
  match s.trace.getLast? with
  | some (.scanned _ _ _) => true
  | _ => false

/-- The moves of the calls. -/
inductive Move
  | init (request_size : Nat) (a : Answers)
  | check_time (r : Request)
  | check_file (r : Request)
  | check_store (r : Request)
  | record (r : Request)

def move (s : Session) : Move → Option Session
  | .init request_size a => init cfg s request_size a
  | .check_time r =>
      init_if cfg (cfg.rotate_time_ ≠ 0 ∧ r.time - s.self.ftime_ ≥ cfg.rotate_time_) s 0 r.for_time
  | .check_file r =>
      init_if cfg (cfg.file_max_size_ ≠ 0 ∧ s.self.n_file_ + r.len > cfg.file_max_size_) s r.len
        r.for_file
  | .check_store r =>
      init_if cfg (cfg.store_max_size_ ≠ 0 ∧ s.self.n_total_ + r.len > cfg.store_max_size_) s r.len
        r.for_store
  | .record r => some (log_record s r).1

def Call.moves : Call → List Move
  | .init request_size a => [.init request_size a]
  | .log r => [.check_time r, .check_file r, .check_store r, .record r]

/-- **There is room for the record**, where the code looks for room for its text. -/
structure Room (s : Session) (r : Request) : Prop where
  /-- a file that was opened again is not too large for the text already -/
  again : reopened s → s.self.n_file_ + r.len ≤ cfg.file_max_size_
  /-- neither limit lies between the text and the whole record -/
  file_gap : s.self.n_file_ + r.len ≤ cfg.file_max_size_ →
    s.self.n_file_ + (stamp_size r + r.len) ≤ cfg.file_max_size_
  store_gap : s.self.n_total_ + r.len ≤ cfg.store_max_size_ →
    s.self.n_total_ + (stamp_size r + r.len) ≤ cfg.store_max_size_

/-- What a move has to meet: a check of the total that is due can make room, and there is
    room for a record. -/
def Has_Room (s : Session) : Move → Prop
  | .check_store r =>
      s.self.n_total_ + r.len > cfg.store_max_size_ →
        kept cfg s r.for_store + r.len ≤ cfg.store_max_size_
  | .record r => Room cfg s r
  | _ => True

variable {cfg} {s s' : Session}

/-- **A call is its moves.** -/
theorem call_moves (s : Session) (call : Call) :
    run (move cfg) s call.moves = step cfg s call := by
  cases call with
  | init request_size a => exact Option.bind_fun_some _
  | log r =>
      have hmoves : run (move cfg) s (Call.log r).moves
          = (move cfg s (.check_time r)).bind fun s₁ => (move cfg s₁ (.check_file r)).bind fun s₂ =>
            (move cfg s₂ (.check_store r)).bind fun s₃ => some (log_record s₃ r).1 := rfl
      rw [hmoves]
      show _ = (log cfg s r).map Prod.fst
      unfold log
      rw [Option.map_bind]
      congr 1
      funext s₁
      rw [Function.comp_apply, Option.map_bind]
      congr 1
      funext s₂
      rw [Function.comp_apply, Option.map_map, Option.map_eq_bind]
      rfl

/-- **A run of calls is the run of their moves.** -/
theorem run_moves (s : Session) (calls : List Call) :
    run (move cfg) s (calls.flatMap Call.moves) = run (step cfg) s calls :=
  run_parts call_moves s calls

/-! ## §2. The counters are no smaller than what they count. -/

structure Bounded (cfg : Config) (s : Session) : Prop where
  total : s.disk.total (matched cfg) ≤ s.self.n_total_
  file : ∀ fh ∈ s.self.fh_, s.disk.size fh ≤ s.self.n_file_

/-- `open_log` changes no file. -/
theorem open_log_total (s : Session) (o : Opening) :
    (open_log cfg s o).disk.total (matched cfg) = s.disk.total (matched cfg) := by
  unfold open_log
  cases o.file with
  | none => rfl
  | some elsewhere =>
      show (open_file s.disk (log_name cfg o) elsewhere).1.total (matched cfg) = _
      unfold open_file
      split
      · rfl
      · split
        · rfl
        · rename_i hfind
          exact s.disk.total_create (matched cfg) _ hfind

theorem open_log_size {o : Opening} (h : ∀ ev ∈ (open_log cfg s o).trace, Harmless cfg ev) :
    ∀ fh ∈ (open_log cfg s o).self.fh_,
      (open_log cfg s o).disk.size fh ≤ (open_log cfg s o).self.n_file_ := by
  unfold open_log at h ⊢
  cases hfile : o.file with
  | none =>
      intro fh hfh
      exact absurd hfh (by simp)
  | some elsewhere =>
      rw [hfile] at h
      intro fh hfh
      obtain rfl := Option.some.inj hfh
      exact h _ (List.mem_append_right _ (List.mem_singleton.mpr rfl))

/-! ## §3. A rotation. -/

/-- The listed files and the others are those of the directory, and all are counted. -/
structure Lists (cfg : Config) (others : List (Bytes × Nat)) (s : Session) : Prop where
  total : s.self.n_total_ = s.disk.total (matched cfg)
  files : (s.disk.listing (matched cfg)).Perm (s.self.files_.map Prod.snd ++ others)

theorem Lists.sum {others : List (Bytes × Nat)} (h : Lists cfg others s) :
    s.self.n_total_ = listed_size s.self.files_ + (others.map Prod.snd).sum := by
  rw [h.total, Disk.total, (h.files.map Prod.snd).sum_eq, List.map_append, List.map_map,
    List.sum_append]
  rfl

/-- The ctimes of a map stand in order. -/
def Sorted (files : LOG_FILES) : Prop := files.Pairwise fun f g => f.1 < g.1

/-- What is inserted is listed, unless its key is there already. -/
theorem insert_perm {files : LOG_FILES} (hsorted : Sorted files) (key : Nat)
    (value : Bytes × Nat) :
    ((key, value) :: files).Perm (files.insert key value ++
      if key ∈ files.map Prod.fst then [(key, value)] else []) := by
  induction hsorted with
  | nil => exact List.Perm.refl _
  | @cons f rest hf _ ih =>
      -- the keys behind `f` are larger than its own
      have hbelow : f.1 ≥ key → key ∉ rest.map Prod.fst := by
        intro hle hmem
        obtain ⟨g, hg, rfl⟩ := List.mem_map.mp hmem
        exact absurd (hf g hg) (not_lt.mpr hle)
      rw [LOG_FILES.insert, List.map_cons]
      split_ifs with hlt hmem heq hmem hlater
      · cases List.mem_cons.mp hmem with
        | inl hfirst => exact absurd hfirst hlt.ne
        | inr hlater => exact absurd hlater (hbelow hlt.le)
      · rw [List.append_nil]
      · exact (List.perm_append_singleton (key, value) (f :: rest)).symm
      · exact absurd (heq ▸ List.mem_cons_self) hmem
      · rw [if_pos ((List.mem_cons.mp hlater).resolve_left heq)] at ih
        exact (List.Perm.swap _ _ _).trans (ih.cons f)
      · rw [if_neg fun h => hlater (List.mem_cons_of_mem _ h)] at ih
        exact (List.Perm.swap _ _ _).trans (ih.cons f)

theorem mem_insert (files : LOG_FILES) (key : Nat) (value : Bytes × Nat) (k : Nat) :
    k ∈ (files.insert key value).map Prod.fst ↔ k = key ∨ k ∈ files.map Prod.fst := by
  induction files with
  | nil => exact List.mem_cons
  | cons f rest ih =>
      rw [LOG_FILES.insert]
      split_ifs with hlt heq
      · exact List.mem_cons
      · rw [List.map_cons, List.mem_cons, heq, ← or_assoc, or_self]
      · rw [List.map_cons, List.mem_cons, ih, List.map_cons, List.mem_cons]
        exact or_left_comm

theorem insert_sorted {files : LOG_FILES} (hsorted : Sorted files) (key : Nat)
    (value : Bytes × Nat) : Sorted (files.insert key value) := by
  induction hsorted with
  | nil => exact List.pairwise_singleton _ _
  | @cons f rest hf hrest ih =>
      rw [LOG_FILES.insert]
      split_ifs with hlt heq
      · refine List.Pairwise.cons (fun g hg => ?_) (List.Pairwise.cons hf hrest)
        cases List.mem_cons.mp hg with
        | inl hfirst => exact hfirst ▸ hlt
        | inr hlater => exact hlt.trans (hf g hlater)
      · exact List.Pairwise.cons hf hrest
      · refine List.Pairwise.cons (fun g hg => ?_) ih
        cases (mem_insert rest key value g.1).mp (List.mem_map_of_mem hg) with
        | inl hnew => omega
        | inr hold =>
            obtain ⟨g', hg', hkey⟩ := List.mem_map.mp hold
            exact hkey ▸ hf g' hg'

/-- **A scan lists the files that it counts**, but for those whose ctime was seen before. -/
theorem scan_dir_perm (size ctime : Nat → Nat) (dir : List (Entry Bytes)) :
    ∀ {n n' : Nat} {files files' : LOG_FILES} {seen : List Nat},
      scan_dir cfg size ctime dir n files = some (n', files') → Sorted files →
      (∀ k, k ∈ seen ↔ k ∈ files.map Prod.fst) →
      ∃ others, (((dir.filter (matched cfg)).map fun e => (e.name, size e.ino)) ++
        files.map Prod.snd).Perm (files'.map Prod.snd ++ others) ∧
        (others.map Prod.snd).sum = unlisted cfg size ctime dir seen := by
  induction dir with
  | nil =>
      intro n n' files files' seen h _ _
      obtain ⟨_, rfl⟩ := Prod.mk.inj (Option.some.inj h)
      exact ⟨[], by rw [List.append_nil]; exact List.Perm.refl _, rfl⟩
  | cons e dir ih =>
      intro n n' files files' seen h hsorted hseen
      rw [unlisted]
      cases scan_dir_cons size ctime h with
      | inl hfound =>
          -- what has been seen are the keys of the list
          have hkeys : ∀ k, k ∈ ctime e.ino :: seen ↔
              k ∈ (files.insert (ctime e.ino) (e.name, size e.ino)).map Prod.fst := by
            intro k
            rw [mem_insert, List.mem_cons, hseen]
          obtain ⟨others, hothers, hsum⟩ := ih hfound.2 (insert_sorted hsorted _ _) hkeys
          have hins := (insert_perm hsorted (ctime e.ino) (e.name, size e.ino)).map Prod.snd
          rw [List.map_cons, List.map_append] at hins
          rw [List.filter_cons_of_pos hfound.1, List.map_cons, List.cons_append, if_pos hfound.1]
          refine ⟨others ++ (if ctime e.ino ∈ files.map Prod.fst then
            [(ctime e.ino, e.name, size e.ino)] else []).map Prod.snd, ?_, ?_⟩
          · refine List.perm_middle.symm.trans ((hins.append_left _).trans ?_)
            rw [← List.append_assoc, ← List.append_assoc]
            exact hothers.append_right _
          · rw [List.map_append, List.sum_append, hsum, Nat.add_comm]
            congr 1
            simp only [hseen]
            split_ifs
            · rfl
            · rfl
      | inr hpassed =>
          rw [List.filter_cons_of_neg (by simp [hpassed.1]), if_neg (by simp [hpassed.1])]
          exact ih hpassed.2 hsorted hseen

theorem scan_store_lists {ctime : Nat → Nat} (h : scan_store cfg s ctime = some s') :
    ∃ others, Lists cfg others s' ∧
      (others.map Prod.snd).sum = unlisted cfg s.disk.size ctime s.disk.dir [] := by
  obtain ⟨htotal, hdisk, _⟩ := scan_store_cases h
  unfold scan_store at h
  obtain ⟨⟨n_total, files⟩, hscan, rfl⟩ := Option.map_eq_some_iff.mp h
  obtain ⟨others, hothers, hsum⟩ := scan_dir_perm _ _ _ hscan List.Pairwise.nil fun _ => Iff.rfl
  rw [List.map_nil, List.append_nil] at hothers
  exact ⟨others, ⟨htotal, hothers⟩, hsum⟩

/-- What the loops of a rotation keep. -/
structure Keeps (cfg : Config) (others : List (Bytes × Nat)) (s s' : Session) : Prop where
  lists : Lists cfg others s'
  fh : s'.self.fh_ = s.self.fh_
  n_file : s'.self.n_file_ = s.self.n_file_
  size : s'.disk.size = s.disk.size

/-- **What is removed is taken off the sum**, and no open file is changed. -/
theorem remove_log_keeps {others : List (Bytes × Nat)} {s₀ : Session} (h : Keeps cfg others s₀ s)
    (ok : Bool) : Keeps cfg others s₀ (remove_log s ok) := by
  unfold remove_log
  cases hfiles : s.self.files_ with
  | nil => exact h
  | cons f rest =>
      simp only
      split_ifs with hok
      · have hperm := h.lists.files
        rw [hfiles, List.map_cons, List.cons_append] at hperm
        have hmem : f.2 ∈ s.disk.listing (matched cfg) := hperm.symm.subset List.mem_cons_self
        have hunlink := s.disk.listing_unlink (matched cfg) hmem
        have htotal := s.disk.total_unlink (matched cfg) hmem
        refine ⟨⟨?_, (hunlink.symm.trans hperm).cons_inv⟩, h.fh, h.n_file, h.size⟩
        show s.self.n_total_ - f.2.2 = (s.disk.unlink f.2.1).total (matched cfg)
        rw [h.lists.total, htotal]
        exact Nat.add_sub_cancel_left _ _
      · exact h

/-- A file is opened and the directory scanned. -/
theorem reopen_bounded {o : Opening} {ctime : Nat → Nat}
    (h : scan_store cfg (open_log cfg s o) ctime = some s')
    (hharmless : ∀ ev ∈ s'.trace, Harmless cfg ev) :
    Bounded cfg s' ∧ s'.self.n_total_ = s.disk.total (matched cfg) := by
  obtain ⟨htotal, hdisk, hfh, hn, _, _⟩ := scan_store_cases h
  have hsize := open_log_size fun ev hev => hharmless ev ((scan_store_trace h).subset hev)
  refine ⟨⟨?_, ?_⟩, htotal.trans (open_log_total s o)⟩
  · rw [htotal, hdisk]
  · rw [hfh, hn, hdisk]
    exact hsize

/-- **What a rotation leaves**: room for the request, or only what it could not list. -/
theorem left_after_rotation (hstore : cfg.store_max_size_ ≠ 0) {others : List (Bytes × Nat)}
    {request_size : Nat} {a : Answers} (hlists : Lists cfg others s)
    (hsize : ∀ fh ∈ s.self.fh_, s.disk.size fh ≤ s.self.n_file_)
    (h : rotate_store cfg s request_size a = some s')
    (hharmless : ∀ ev ∈ s'.trace, Harmless cfg ev) :
    Bounded cfg s' ∧ (s'.self.n_total_ + request_size ≤ cfg.store_max_size_ ∨
      s'.self.n_total_ = (others.map Prod.snd).sum) := by
  unfold rotate_store at h
  obtain ⟨s₁, h₁, h⟩ := Option.bind_eq_some_iff.mp h
  obtain ⟨s₂, h₂, h⟩ := Option.bind_eq_some_iff.mp h
  have hremove : ∀ t ok, Keeps cfg others s t → Keeps cfg others s (remove_log t ok) :=
    fun _ ok hkeeps => remove_log_keeps hkeeps ok
  have hfirst : Keeps cfg others s s₁.1 := by
    unfold rotate_expired at h₁
    split_ifs at h₁ with hexpired
    · exact (remove_loop_keeps hremove h₁ ⟨hlists, rfl, rfl, rfl⟩).1
    · obtain rfl := Option.some.inj h₁
      exact ⟨hlists, rfl, rfl, rfl⟩
  unfold rotate_too_large at h₂
  rw [if_pos hstore] at h₂
  obtain ⟨hkeeps, hleft⟩ := remove_loop_keeps hremove h₂ hfirst
  split_ifs at h with hempty
  · -- all that was listed is removed
    obtain ⟨hbounded, htotal⟩ := reopen_bounded h hharmless
    refine ⟨hbounded, Or.inr ?_⟩
    have hsum := hkeeps.lists.sum
    rw [List.isEmpty_iff.mp hempty] at hsum
    rw [htotal, ← hkeeps.lists.total, hsum]
    exact Nat.zero_add _
  · obtain rfl := Option.some.inj h
    refine ⟨⟨le_of_eq hkeeps.lists.total.symm, ?_⟩, Or.inl ?_⟩
    · rw [hkeeps.fh, hkeeps.n_file, hkeeps.size]
      exact hsize
    · obtain ⟨f, _, hdue⟩ := hleft.resolve_left (fun hnil => hempty (List.isEmpty_iff.mpr hnil))
      exact not_lt.mp (of_decide_eq_false hdue)

/-! ## §4. `init` and the checks. -/

/-- **`init` makes room for the request**, if what it cannot remove leaves any. -/
theorem init_bounded (hstore : cfg.store_max_size_ ≠ 0) {request_size : Nat} {a : Answers}
    (h : init cfg s request_size a = some s') (hharmless : ∀ ev ∈ s'.trace, Harmless cfg ev) :
    Bounded cfg s' ∧ (kept cfg s a + request_size ≤ cfg.store_max_size_ →
      s'.self.n_total_ + request_size ≤ cfg.store_max_size_) := by
  obtain ⟨s₁, h₁, h⟩ := Option.bind_eq_some_iff.mp h
  obtain ⟨others, hlists, hsum⟩ := scan_store_lists h₁
  have htrace := (rotate_store_accounts h).1
  obtain ⟨hbounded₁, _⟩ := reopen_bounded h₁ fun ev hev => hharmless ev (htrace.subset hev)
  obtain ⟨hbounded, hleft⟩ := left_after_rotation hstore hlists hbounded₁.file h hharmless
  refine ⟨hbounded, fun hroom => ?_⟩
  rcases hleft with hless | hothers
  · exact hless
  · rw [hothers, hsum]
    exact hroom

theorem scan_store_reopened {ctime : Nat → Nat} (h : scan_store cfg s ctime = some s') :
    reopened s' = true := by
  obtain ⟨_, _, _, _, htrace, _⟩ := scan_store_cases h
  unfold reopened
  rw [htrace, List.getLast?_concat]

/-- The last thing `init` leaves in the history is a scan. -/
theorem init_reopened {request_size : Nat} {a : Answers} (h : init cfg s request_size a = some s') :
    reopened s' = true := by
  obtain ⟨s₁, hscan, h⟩ := Option.bind_eq_some_iff.mp h
  unfold rotate_store at h
  obtain ⟨s₂, h₂, h⟩ := Option.bind_eq_some_iff.mp h
  obtain ⟨s₃, h₃, h⟩ := Option.bind_eq_some_iff.mp h
  split_ifs at h with hempty
  · exact scan_store_reopened h
  · obtain rfl := Option.some.inj h
    have hlast := scan_store_reopened hscan
    unfold reopened at hlast ⊢
    rw [(rotate_loops h₂ h₃).1]
    exact hlast

/-- **A check**: it is passed, or `init` is called. -/
theorem init_if_cases {due : Bool} {request_size : Nat} {a : Answers}
    (h : init_if cfg due s request_size a = some s') :
    due = false ∧ s' = s ∨ due = true ∧ init cfg s request_size a = some s' := by
  unfold init_if at h
  cases due with
  | false => exact Or.inl ⟨rfl, (Option.some.inj h).symm⟩
  | true => exact Or.inr ⟨rfl, h⟩

theorem init_if_bounded (hstore : cfg.store_max_size_ ≠ 0) {due : Bool} {request_size : Nat}
    {a : Answers} (hbounded : Bounded cfg s) (h : init_if cfg due s request_size a = some s')
    (hharmless : ∀ ev ∈ s'.trace, Harmless cfg ev) : Bounded cfg s' := by
  rcases init_if_cases h with ⟨_, rfl⟩ | ⟨_, hinit⟩
  · exact hbounded
  · exact (init_bounded hstore hinit hharmless).1

/-- **Behind the check of the total** there is room for the text. -/
theorem check_store_total (hstore : cfg.store_max_size_ ≠ 0) {r : Request}
    (hroom : Has_Room cfg s (.check_store r)) (h : move cfg s (.check_store r) = some s')
    (hharmless : ∀ ev ∈ s'.trace, Harmless cfg ev) :
    s'.self.n_total_ + r.len ≤ cfg.store_max_size_ := by
  rcases init_if_cases h with ⟨hpassed, rfl⟩ | ⟨hdue, hinit⟩
  · have hle := of_decide_eq_false hpassed
    rw [not_and, not_lt] at hle
    exact hle hstore
  · exact (init_bounded hstore hinit hharmless).2 (hroom (of_decide_eq_true hdue).2)

/-- **In the file too**: it is the one that was checked, or was opened behind the check. -/
theorem check_file_file (hfile : cfg.file_max_size_ ≠ 0) {r : Request} {s'' : Session}
    (hroom : Room cfg s'' r) (h : move cfg s (.check_file r) = some s')
    (h' : move cfg s' (.check_store r) = some s'') :
    s''.self.n_file_ + r.len ≤ cfg.file_max_size_ := by
  rcases init_if_cases h' with ⟨_, rfl⟩ | ⟨_, hinit⟩
  · rcases init_if_cases h with ⟨hpassed, rfl⟩ | ⟨_, hinit⟩
    · have hle := of_decide_eq_false hpassed
      rw [not_and, not_lt] at hle
      exact hle hfile
    · exact hroom.again (init_reopened hinit)
  · exact hroom.again (init_reopened hinit)

/-! ## §5. The record. -/

theorem write_le (s : Session) (len : Nat) (answer : Int) : (write s len answer).2 ≤ len := by
  unfold write
  cases s.self.fh_ with
  | none =>
      show (-1 : Int) ≤ len
      omega
  | some fh =>
      simp only
      split_ifs
      · exact min_le_right _ _
      · exact min_le_right _ _

theorem log_text_le (s : Session) (len : Nat) (n_byte w_buf : Int) :
    (log_text s len n_byte w_buf).2.2 ≤ len := by
  have hwrite := write_le s len w_buf
  unfold log_text
  simp only
  split_ifs
  · exact hwrite
  · exact hwrite

/-- Bytes that are written to a file with one name at most, and added to the counters. -/
theorem Bounded.write {fh n : Nat} (h : Bounded cfg s) (hfh : s.self.fh_ = some fh)
    (hlinks : s.disk.links (matched cfg) fh ≤ 1) (trace : List Event) :
    Bounded cfg ⟨{ s.self with n_total_ := s.self.n_total_ + n, n_file_ := s.self.n_file_ + n },
      s.disk.append fh n, trace⟩ := by
  refine ⟨?_, ?_⟩
  · show (s.disk.append fh n).total (matched cfg) ≤ s.self.n_total_ + n
    rw [total_append]
    have hmul : n * s.disk.links (matched cfg) fh ≤ n * 1 := Nat.mul_le_mul_left n hlinks
    have htotal := h.total
    omega
  · intro fh' hfh'
    obtain rfl : fh = fh' := Option.some.inj (hfh.symm.trans hfh')
    show Function.update s.disk.size fh (s.disk.size fh + n) fh ≤ s.self.n_file_ + n
    rw [Function.update_self]
    exact Nat.add_le_add_right (h.file fh hfh) n

/-- What a record adds to the counters. -/
structure Adds (s s' : Session) (n : Nat) : Prop where
  total : s'.self.n_total_ ≤ s.self.n_total_ + n
  file : s'.self.n_file_ ≤ s.self.n_file_ + n

/-- **A record** adds its bytes and those of its timestamp. -/
theorem log_record_bounded (r : Request) (h : Bounded cfg s)
    (hharmless : ∀ ev ∈ (log_record s r).1.trace, Harmless cfg ev) :
    Bounded cfg (log_record s r).1 ∧ Adds s (log_record s r).1 (stamp_size r + r.len) := by
  unfold log_record stamp_size at *
  cases hformat : r.time_format with
  | none =>
      simp only [hformat] at hharmless ⊢
      have hle := log_text_le s r.len 0 r.w_buf
      cases log_text_cases s r.len 0 r.w_buf with
      | inl hnone =>
          rw [hnone.1]
          exact ⟨⟨h.total, h.file⟩, ⟨Nat.le_add_right _ _, Nat.le_add_right _ _⟩⟩
      | inr hsome =>
          obtain ⟨fh, hfh, hpos, hs⟩ := hsome
          have hlast := hharmless _ (List.mem_append_right _ (List.mem_singleton.mpr rfl))
          rw [hs, Int.zero_add]
          refine ⟨h.write hfh (hlast.2 fh hfh) _, ⟨?_, ?_⟩⟩
          · show s.self.n_total_ + _ ≤ s.self.n_total_ + _
            omega
          · show s.self.n_file_ + _ ≤ s.self.n_file_ + _
            omega
  | some n_buf =>
      simp only [hformat] at hharmless ⊢
      have hstamp_le := write_le s n_buf r.w_stamp
      cases write_cases s n_buf r.w_stamp with
      | inl hnone =>
          rw [if_neg (not_lt.mpr hnone.2), hnone.1]
          exact ⟨h, ⟨Nat.le_add_right _ _, Nat.le_add_right _ _⟩⟩
      | inr hstamp =>
          obtain ⟨fh, hfh, hpos, hs⟩ := hstamp
          rw [if_pos hpos] at hharmless ⊢
          generalize (write s n_buf r.w_stamp).2 = stamp at hpos hs hstamp_le hharmless ⊢
          have hlast := hharmless _ (List.mem_append_right _ (List.mem_singleton.mpr rfl))
          have hlinks := hlast.2 fh hfh
          rw [hs] at hlast ⊢
          have hle := log_text_le { s with disk := s.disk.append fh stamp.toNat } r.len stamp r.w_buf
          cases log_text_cases { s with disk := s.disk.append fh stamp.toNat } r.len stamp r.w_buf with
          -- a timestamp is not written alone
          | inl hnone => exact absurd (hlast.1 hpos) (not_lt.mpr hnone.2)
          | inr htext =>
              obtain ⟨fh', hfh', htpos, hs'⟩ := htext
              obtain rfl : fh = fh' := Option.some.inj (hfh.symm.trans hfh')
              rw [hs']
              rw [Disk.append_append, ← Int.toNat_add (by omega) (by omega)]
              refine ⟨h.write hfh hlinks _, ⟨?_, ?_⟩⟩
              · show s.self.n_total_ + _ ≤ s.self.n_total_ + _
                simp only [Option.getD_some]
                omega
              · show s.self.n_file_ + _ ≤ s.self.n_file_ + _
                simp only [Option.getD_some]
                omega

/-! ## §6. Moves. -/

theorem move_trace {m : Move} (h : move cfg s m = some s') : s.trace <+: s'.trace := by
  cases m with
  | init request_size a => exact (init_accounts h).1
  | check_time r => exact (init_if_accounts h).1
  | check_file r => exact (init_if_accounts h).1
  | check_store r => exact (init_if_accounts h).1
  | record r =>
      obtain rfl := Option.some.inj h
      exact (log_record_accounts cfg s r).1

/-- **One move.** -/
theorem move_bounded (hstore : cfg.store_max_size_ ≠ 0) {m : Move} (hbounded : Bounded cfg s)
    (h : move cfg s m = some s') (hharmless : ∀ ev ∈ s'.trace, Harmless cfg ev) :
    Bounded cfg s' := by
  cases m with
  | init request_size a => exact (init_bounded hstore h hharmless).1
  | check_time r => exact init_if_bounded hstore hbounded h hharmless
  | check_file r => exact init_if_bounded hstore hbounded h hharmless
  | check_store r => exact init_if_bounded hstore hbounded h hharmless
  | record r =>
      obtain rfl := Option.some.inj h
      exact (log_record_bounded r hbounded hharmless).1

/-- **One record.**  Where there is room for it the files are within the limits. -/
theorem log_quota (hstore : cfg.store_max_size_ ≠ 0) (hfile : cfg.file_max_size_ ≠ 0)
    {r : Request} (hbounded : Bounded cfg s) (h : step cfg s (.log r) = some s')
    (hharmless : ∀ ev ∈ s'.trace, Harmless cfg ev)
    (hroom : Meets (move cfg) s (Has_Room cfg) (Call.log r).moves) : Quota cfg s' := by
  rw [← call_moves] at h
  obtain ⟨s₁, h₁, hrest⟩ := Option.bind_eq_some_iff.mp h
  obtain ⟨s₂, h₂, hrest⟩ := Option.bind_eq_some_iff.mp hrest
  obtain ⟨s₃, h₃, hrest⟩ := Option.bind_eq_some_iff.mp hrest
  obtain rfl : (log_record s₃ r).1 = s' := Option.some.inj hrest
  have hchecks : run (move cfg) s [.check_time r, .check_file r] = some s₂ := by
    rw [run_cons, h₁, Option.bind_some, run_cons, h₂]
    rfl
  -- the two moves that the condition is about
  have hstored : Has_Room cfg s₂ (.check_store r) :=
    hroom [.check_time r, .check_file r] _ ⟨[.record r], rfl⟩ s₂ s₃ hchecks h₃
  have hrecord : Room cfg s₃ r := by
    refine hroom [.check_time r, .check_file r, .check_store r] _ List.prefix_rfl s₃ _ ?_ rfl
    rw [run_cons, h₁, Option.bind_some, run_cons, h₂, Option.bind_some, run_cons, h₃]
    rfl
  -- what is harmless after a move was harmless before it
  have hharmless₃ : ∀ ev ∈ s₃.trace, Harmless cfg ev := fun ev hev =>
    hharmless ev ((log_record_accounts cfg s₃ r).1.subset hev)
  have hharmless₂ : ∀ ev ∈ s₂.trace, Harmless cfg ev := fun ev hev =>
    hharmless₃ ev ((move_trace h₃).subset hev)
  have hbounded₁ := move_bounded hstore hbounded h₁ fun ev hev =>
    hharmless₂ ev ((move_trace h₂).subset hev)
  have hbounded₃ := move_bounded hstore (move_bounded hstore hbounded₁ h₂ hharmless₂) h₃ hharmless₃
  have htotal := hrecord.store_gap (check_store_total hstore hstored h₃ hharmless₃)
  have hlimit := hrecord.file_gap (check_file_file hfile hrecord h₂ h₃)
  obtain ⟨hbounded', hadds⟩ := log_record_bounded r hbounded₃ hharmless
  refine ⟨?_, fun fh hfh => ?_⟩
  · calc (log_record s₃ r).1.disk.total (matched cfg)
        ≤ (log_record s₃ r).1.self.n_total_ := hbounded'.total
      _ ≤ s₃.self.n_total_ + (stamp_size r + r.len) := hadds.total
      _ ≤ cfg.store_max_size_ := htotal
  · calc (log_record s₃ r).1.disk.size fh
        ≤ (log_record s₃ r).1.self.n_file_ := hbounded'.file fh hfh
      _ ≤ s₃.self.n_file_ + (stamp_size r + r.len) := hadds.file
      _ ≤ cfg.file_max_size_ := hlimit

/-! ## §7. Runs. -/

/-- The counters along a run, from the constructor on. -/
theorem run_bounded (hstore : cfg.store_max_size_ ≠ 0) {disk : Disk Bytes} {a : Answers}
    (calls : List Call) (hrun : run (step cfg) (start disk) (.init 0 a :: calls) = some s)
    (hharmless : ∀ ev ∈ s.trace, Harmless cfg ev) : Bounded cfg s := by
  have hfirst : run (step cfg) (start disk) (.init 0 a :: calls)
      = (step cfg (start disk) (.init 0 a)).bind fun s₀ => run (step cfg) s₀ calls := rfl
  rw [hfirst, Option.bind_eq_some_iff] at hrun
  obtain ⟨s₀, hinit, hcalls⟩ := hrun
  rw [← run_moves] at hcalls
  have hall : Always (move cfg) s₀ (fun s => (∀ ev ∈ s.trace, Harmless cfg ev) → Bounded cfg s)
      (calls.flatMap Call.moves) := by
    refine always_of_step _ (fun h₀ => (init_bounded hstore hinit h₀).1)
      (fun s m s' ih hmove hharmless' => ?_) _
    exact move_bounded hstore (ih fun ev hev => hharmless' ev ((move_trace hmove).subset hev)) hmove
      hharmless'
  exact hall _ List.prefix_rfl s hcalls hharmless

/-- **The limits are kept.**  For every logger with both limits, every directory, and every
    run from the constructor on whose records find room: after each record the log files
    and the current file are within the limits. -/
theorem quota_kept (hstore : cfg.store_max_size_ ≠ 0) (hfile : cfg.file_max_size_ ≠ 0)
    (disk : Disk Bytes) (a : Answers) (calls : List Call) (r : Request) (s : Session)
    (hrun : run (step cfg) (start disk) (.init 0 a :: calls ++ [.log r]) = some s)
    (hharmless : ∀ ev ∈ s.trace, Harmless cfg ev)
    (hroom : Meets (move cfg) (start disk) (Has_Room cfg)
      (List.flatMap Call.moves (.init 0 a :: calls ++ [.log r]))) : Quota cfg s := by
  have hlast := hrun
  rw [run_concat, Option.bind_eq_some_iff] at hlast
  obtain ⟨s₀, hcalls, hstep⟩ := hlast
  have hbounded := run_bounded hstore calls hcalls fun ev hev =>
    hharmless ev ((step_accounts hstep).1.subset hev)
  exact log_quota hstore hfile hbounded hstep hharmless
    (hroom.parts call_moves List.prefix_rfl hcalls)

/-- Both limits are 15 bytes. -/
def small : Config := config (lit "a") (lit "log") 0 0 15 15

/-- There are passes for the loops. -/
def passes : Answers := { answers with fuel := 1 }

/-- A record of 5 bytes of timestamp and 5 of text. -/
def short_request : Request := ⟨5, 0, some 5, 5, 5, passes, passes, passes⟩

/-- One record is 10 bytes. -/
theorem quota_kept_record :
    ∃ s, run (step small) (start empty_disk) [.init 0 passes, .log short_request] = some s ∧
      Quota small s := by
  have hsome : (run (step small) (start empty_disk)
      [.init 0 passes, .log short_request]).isSome = true := by decide
  have hharmless : ∀ s ∈ run (step small) (start empty_disk)
      [.init 0 passes, .log short_request], ∀ ev ∈ s.trace, Harmless small ev := by decide
  -- no check is due
  have hpassed : ∀ s ∈ run (move small) (start empty_disk)
      [.init 0 passes, .check_time short_request, .check_file short_request],
      ¬ s.self.n_total_ + short_request.len > small.store_max_size_ := by decide
  have hroom : ∀ s ∈ run (move small) (start empty_disk) [.init 0 passes,
      .check_time short_request, .check_file short_request, .check_store short_request],
      s.self.n_file_ + (stamp_size short_request + short_request.len) ≤ small.file_max_size_ ∧
      s.self.n_total_ + (stamp_size short_request + short_request.len)
        ≤ small.store_max_size_ := by decide
  obtain ⟨s, hs⟩ := Option.isSome_iff_exists.mp hsome
  refine ⟨s, hs, quota_kept (by decide) (by decide) empty_disk passes [] short_request s hs
    (hharmless s hs) ?_⟩
  have hmoves : List.flatMap Call.moves [.init 0 passes, .log short_request]
      = [.init 0 passes, .check_time short_request, .check_file short_request,
        .check_store short_request, .record short_request] := rfl
  show Meets _ _ _ (List.flatMap Call.moves [.init 0 passes, .log short_request])
  rw [hmoves]
  intro pre m hpre s₀ s₁ hs₀ _
  rcases pre with _ | ⟨m₁, _ | ⟨m₂, _ | ⟨m₃, _ | ⟨m₄, _ | ⟨m₅, pre⟩⟩⟩⟩⟩ <;>
    simp only [List.nil_append, List.cons_append, List.cons_prefix_cons] at hpre
  · obtain ⟨rfl, _⟩ := hpre
    trivial
  · obtain ⟨_, rfl, _⟩ := hpre
    trivial
  · obtain ⟨_, _, rfl, _⟩ := hpre
    trivial
  · obtain ⟨rfl, rfl, rfl, rfl, _⟩ := hpre
    exact fun hdue => absurd hdue (hpassed s₀ hs₀)
  · obtain ⟨rfl, rfl, rfl, rfl, rfl, _⟩ := hpre
    obtain ⟨hfile, hstore⟩ := hroom s₀ hs₀
    exact ⟨fun _ => by omega, fun _ => hfile, fun _ => hstore⟩
  · have hnil := hpre.2.2.2.2.2
    simp at hnil

/-- The check of the second record finds room for 5 bytes behind the first 10, and 10 are
    written. -/
theorem quota_exceeded :
    stamp_size short_request + short_request.len ≤ 15 ∧
      ∃ s, run (step small) (start empty_disk)
        [.init 0 passes, .log short_request, .log short_request] = some s ∧ ¬ Quota small s := by
  have htwo : (run (step small) (start empty_disk)
      [.init 0 passes, .log short_request, .log short_request]).map
        (fun s => s.disk.total (matched small)) = some 20 := by decide
  obtain ⟨s, hs, htotal⟩ := Option.map_eq_some_iff.mp htwo
  refine ⟨by decide, s, hs, fun hquota => ?_⟩
  have hstore := hquota.store
  rw [htotal] at hstore
  exact absurd hstore (by decide)

end Aos.Logger
