/-
  Aos.Log.Accounting — what the counters of a `Logger` come to.

  `n_total_` is counted in a scan and from then on kept by every removal and
  every write; `n_file_` is read once and kept by every write.  A record whose
  timestamp is written and whose text is not is counted by neither, and a
  record that goes to a file with no name in the directory is counted by both.

  Main results:
    • `scan_dir_spec` — a scan counts the directory and lists its files;
    • `rotate_store_accounts`, `init_accounts`, `log_record_accounts` — what
      each part keeps, as long as what it meets is fine;
    • `counters_exact` — whole runs.
-/
import Aos.Log.Logger
import Aos.Lib.Runs

namespace Aos.Logger

open Lib.Directory Lib.Directory.Disk Lib.Loop Lib.Runs Lib.Suffixes

variable (cfg : Config)

/-! ## §1. What is counted. -/

/-- A regular file whose name matches prefix and suffix. -/
def matched (e : Entry Bytes) : Bool :=
  e.regular && is_log_filename e.name cfg.prefix_ cfg.suffix_ == some true

/-- **What a call may meet.**  A path leads to the file whose size `lstat` gives; no two
    files have the same ctime in a scan; the text of a record is written when its
    timestamp is, and goes to one of the log files in the directory. -/
def Fine : Event → Prop
  | .opened file_size st_size => file_size = st_size
  | .scanned disk ctime _ => ((disk.dir.filter (matched cfg)).map fun e => ctime e.ino).Nodup
  | .wrote disk fh_ stamp text =>
      (stamp > 0 → text > 0) ∧ (text > 0 → ∀ fh ∈ fh_, disk.links (matched cfg) fh = 1)

instance decidableFine (ev : Event) : Decidable (Fine cfg ev) := by
  cases ev with
  | opened file_size st_size => exact inferInstanceAs (Decidable (file_size = st_size))
  | scanned disk ctime files => exact inferInstanceAs (Decidable (List.Nodup _))
  | wrote disk fh_ stamp text =>
      exact inferInstanceAs (Decidable ((stamp > 0 → text > 0) ∧
        (text > 0 → ∀ fh ∈ fh_, disk.links (matched cfg) fh = 1)))

/-- Every scan so far was exact. -/
def Scans (trace : List Event) : Prop :=
  ∀ disk ctime files, .scanned disk ctime files ∈ trace →
    (files.map Prod.snd).Perm (disk.listing (matched cfg))

/-- **The counters are exact**, and so was every scan. -/
structure Accounts (s : Session) : Prop where
  total : s.self.n_total_ = s.disk.total (matched cfg)
  file : ∀ fh, s.self.fh_ = some fh → s.self.n_file_ = s.disk.size fh
  scans : Scans cfg s.trace

/-- The files are those of the directory, as they were scanned. -/
def Listed (s : Session) : Prop :=
  (s.self.files_.map Prod.snd).Perm (s.disk.listing (matched cfg))

/-- What has happened so far is fine. -/
def AllFine (trace : List Event) : Prop := ∀ ev ∈ trace, Fine cfg ev

/-! ## §2. `scan_store`. -/

theorem insert_new (files : LOG_FILES) (key : Nat) (value : Bytes × Nat)
    (h : key ∉ files.map Prod.fst) : (files.insert key value).Perm ((key, value) :: files) := by
  induction files with
  | nil => exact List.Perm.refl _
  | cons f rest ih =>
      rw [List.map_cons, List.mem_cons, not_or] at h
      rw [LOG_FILES.insert]
      split_ifs with hlt heq
      · exact List.Perm.refl _
      · exact absurd heq h.1
      · exact ((ih h.2).cons f).trans (List.Perm.swap _ _ _)

variable {cfg}

section Scan

variable (size ctime : Nat → Nat)

/-- One entry of the directory is counted, or it is passed over. -/
theorem scan_dir_cons {e : Entry Bytes} {dir : List (Entry Bytes)} {n : Nat} {files : LOG_FILES}
    {r : Nat × LOG_FILES} (h : scan_dir cfg size ctime (e :: dir) n files = some r) :
    (matched cfg e = true ∧ scan_dir cfg size ctime dir (n + size e.ino)
        (files.insert (ctime e.ino) (e.name, size e.ino)) = some r) ∨
      (matched cfg e = false ∧ scan_dir cfg size ctime dir n files = some r) := by
  rw [scan_dir] at h
  unfold matched
  cases hreg : e.regular with
  | false =>
      rw [hreg] at h
      exact Or.inr ⟨rfl, h⟩
  | true =>
      rw [hreg, if_pos rfl, Option.bind_eq_some_iff] at h
      obtain ⟨found, hfound, h⟩ := h
      rw [hfound]
      cases found with
      | false => exact Or.inr ⟨rfl, h⟩
      | true => exact Or.inl ⟨rfl, h⟩

/-- The sum does not depend on the ctimes. -/
theorem scan_dir_total (dir : List (Entry Bytes)) :
    ∀ {n n' : Nat} {files files' : LOG_FILES},
      scan_dir cfg size ctime dir n files = some (n', files') →
      n' = n + ((dir.filter (matched cfg)).map fun e => size e.ino).sum := by
  induction dir with
  | nil =>
      intro n n' files files' h
      obtain ⟨rfl, _⟩ := Prod.mk.inj (Option.some.inj h)
      rfl
  | cons e dir ih =>
      intro n n' files files' h
      cases scan_dir_cons size ctime h with
      | inl hfound =>
          rw [List.filter_cons_of_pos hfound.1, List.map_cons, List.sum_cons, ih hfound.2,
            Nat.add_assoc]
      | inr hpassed =>
          rw [List.filter_cons_of_neg (by simp [hpassed.1])]
          exact ih hpassed.2

/-- With different ctimes no file is left out. -/
theorem scan_dir_files (dir : List (Entry Bytes)) :
    ∀ {n n' : Nat} {files files' : LOG_FILES},
      scan_dir cfg size ctime dir n files = some (n', files') →
      (((dir.filter (matched cfg)).map fun e => ctime e.ino) ++ files.map Prod.fst).Nodup →
      files'.Perm (((dir.filter (matched cfg)).map
        fun e => (ctime e.ino, e.name, size e.ino)) ++ files) := by
  induction dir with
  | nil =>
      intro n n' files files' h _
      obtain ⟨_, rfl⟩ := Prod.mk.inj (Option.some.inj h)
      exact List.Perm.refl _
  | cons e dir ih =>
      intro n n' files files' h hnodup
      cases scan_dir_cons size ctime h with
      | inl hfound =>
          rw [List.filter_cons_of_pos hfound.1, List.map_cons, List.cons_append] at hnodup ⊢
          obtain ⟨hnew, hrest⟩ := List.nodup_cons.mp hnodup
          have hins := insert_new files (ctime e.ino) (e.name, size e.ino)
            fun hmem => hnew (List.mem_append_right _ hmem)
          -- the key inserted stands behind the ones to come
          have hkeys : (((dir.filter (matched cfg)).map fun e => ctime e.ino) ++
              (files.insert (ctime e.ino) (e.name, size e.ino)).map Prod.fst).Nodup := by
            rw [((hins.map Prod.fst).append_left _).nodup_iff, List.map_cons,
              List.perm_middle.nodup_iff]
            exact hnodup
          refine (ih hfound.2 hkeys).trans ?_
          exact (hins.append_left _).trans List.perm_middle
      | inr hpassed =>
          rw [List.filter_cons_of_neg (by simp [hpassed.1])] at hnodup ⊢
          exact ih hpassed.2 hnodup

end Scan

section Calls

variable {s s' : Session}

theorem AllFine.of_prefix {trace trace' : List Event} (h : AllFine cfg trace')
    (hpre : trace <+: trace') : AllFine cfg trace := fun ev hev => h ev (hpre.subset hev)

/-! ## §3. `open_log` and `scan_store`. -/

theorem open_log_trace (s : Session) (o : Opening) : s.trace <+: (open_log cfg s o).trace := by
  unfold open_log
  cases o.file with
  | none => exact List.prefix_rfl
  | some elsewhere => exact List.prefix_append _ _

theorem open_log_scans {o : Opening} (h : Scans cfg s.trace) :
    Scans cfg (open_log cfg s o).trace := by
  unfold open_log
  cases o.file with
  | none => exact h
  | some elsewhere =>
      intro disk ctime files hmem
      rw [List.mem_append, List.mem_singleton] at hmem
      exact h disk ctime files (hmem.resolve_right (by simp))

/-- The size `lstat` gives is that of the file. -/
theorem open_log_file {o : Opening} (hfine : AllFine cfg (open_log cfg s o).trace) :
    ∀ fh, (open_log cfg s o).self.fh_ = some fh →
      (open_log cfg s o).self.n_file_ = (open_log cfg s o).disk.size fh := by
  unfold open_log at hfine ⊢
  cases hfile : o.file with
  | none =>
      intro fh hfh
      exact absurd hfh (by simp)
  | some elsewhere =>
      rw [hfile] at hfine
      intro fh hfh
      obtain rfl := Option.some.inj hfh
      exact (hfine _ (List.mem_append_right _ (List.mem_singleton.mpr rfl))).symm

/-- What a scan makes of a session. -/
theorem scan_store_cases {ctime : Nat → Nat} (h : scan_store cfg s ctime = some s') :
    s'.self.n_total_ = s.disk.total (matched cfg) ∧ s'.disk = s.disk ∧
      s'.self.fh_ = s.self.fh_ ∧ s'.self.n_file_ = s.self.n_file_ ∧
      s'.trace = s.trace ++ [.scanned s.disk ctime s'.self.files_] ∧
      (Fine cfg (.scanned s.disk ctime s'.self.files_) → Listed cfg s') := by
  unfold scan_store at h
  obtain ⟨⟨n_total, files⟩, hscan, rfl⟩ := Option.map_eq_some_iff.mp h
  refine ⟨?_, rfl, rfl, rfl, rfl, ?_⟩
  · have htotal := scan_dir_total _ _ _ hscan
    rw [Nat.zero_add] at htotal
    rw [htotal]
    unfold total listing
    rw [List.map_map]
    rfl
  · intro hfine
    have hperm := scan_dir_files _ _ _ hscan (by rw [List.map_nil, List.append_nil]; exact hfine)
    rw [List.append_nil] at hperm
    unfold Listed listing
    have hvalues := hperm.map Prod.snd
    rw [List.map_map] at hvalues
    exact hvalues

theorem scan_store_trace {ctime : Nat → Nat} (h : scan_store cfg s ctime = some s') :
    s.trace <+: s'.trace := by
  obtain ⟨_, _, _, _, htrace, _⟩ := scan_store_cases h
  rw [htrace]
  exact List.prefix_append _ _

/-- **A file is opened and the directory counted: everything is exact.** -/
theorem reopen_accounts {o : Opening} {ctime : Nat → Nat}
    (h : scan_store cfg (open_log cfg s o) ctime = some s') (hscans : Scans cfg s.trace)
    (hfine : AllFine cfg s'.trace) : Accounts cfg s' ∧ Listed cfg s' := by
  have hopen := open_log_file (hfine.of_prefix (scan_store_trace h))
  obtain ⟨htotal, hdisk, hfh, hn, htrace, hlisted⟩ := scan_store_cases h
  have hlast : Event.scanned (open_log cfg s o).disk ctime s'.self.files_ ∈ s'.trace := by
    rw [htrace]
    exact List.mem_append_right _ (List.mem_singleton.mpr rfl)
  have hls := hlisted (hfine _ hlast)
  refine ⟨⟨?_, ?_, ?_⟩, hls⟩
  · rw [htotal, hdisk]
  · rw [hfh, hn, hdisk]
    exact hopen
  · intro disk ctime' files hmem
    rw [htrace, List.mem_append, List.mem_singleton] at hmem
    cases hmem with
    | inl hold => exact open_log_scans hscans disk ctime' files hold
    | inr hnew =>
        obtain ⟨rfl, _, rfl⟩ := Event.scanned.inj hnew
        rw [← hdisk]
        exact hls

theorem reopen_trace {o : Opening} {ctime : Nat → Nat}
    (h : scan_store cfg (open_log cfg s o) ctime = some s') : s.trace <+: s'.trace :=
  (open_log_trace s o).trans (scan_store_trace h)

/-! ## §4. `rotate_store`. -/

theorem remove_log_trace (s : Session) (ok : Bool) : (remove_log s ok).trace = s.trace := by
  unfold remove_log
  cases s.self.files_ with
  | nil => rfl
  | cons f rest =>
      simp only
      split_ifs <;> rfl

/-- **What is removed is taken off the sum.** -/
theorem remove_log_accounts (h : Accounts cfg s) (hlisted : Listed cfg s) (ok : Bool) :
    Accounts cfg (remove_log s ok) ∧ Listed cfg (remove_log s ok) := by
  unfold remove_log
  cases hfiles : s.self.files_ with
  | nil => exact ⟨h, hlisted⟩
  | cons f rest =>
      simp only
      split_ifs with hok
      · unfold Listed at hlisted
        rw [hfiles, List.map_cons] at hlisted
        have hmem : f.2 ∈ s.disk.listing (matched cfg) := hlisted.subset List.mem_cons_self
        have hunlink := s.disk.listing_unlink (matched cfg) hmem
        have htotal := s.disk.total_unlink (matched cfg) hmem
        refine ⟨⟨?_, h.file, h.scans⟩, ?_⟩
        · show s.self.n_total_ - f.2.2 = (s.disk.unlink f.2.1).total (matched cfg)
          rw [h.total, htotal]
          exact Nat.add_sub_cancel_left _ _
        · exact (hlisted.trans hunlink).cons_inv
      · exact ⟨h, hlisted⟩

/-- **A removal loop that ends** keeps what a removal keeps; then there is no file any more, or
    the first is not due. -/
theorem remove_loop_keeps {P : Session → Prop} (hremove : ∀ s ok, P s → P (remove_log s ok))
    {due : Logger → Nat → Bool} {unlink : Nat → Bool} {fuel : Nat} {s s' : Session × Nat}
    (h : loop (remove_pass due unlink) fuel s = some s') (hP : P s.1) :
    P s'.1 ∧ (s'.1.self.files_ = [] ∨ ∃ f ∈ s'.1.self.files_, due s'.1.self f.1 = false) := by
  refine loop_invariant (remove_pass due unlink) (fun p => P p.1)
    (fun p => P p.1 ∧
      (p.1.self.files_ = [] ∨ ∃ f ∈ p.1.self.files_, due p.1.self f.1 = false))
    ?_ ?_ fuel s s' hP h
  · intro p p' hinv hpass
    unfold remove_pass at hpass
    cases hfiles : p.1.self.files_ with
    | nil => rw [hfiles] at hpass; exact absurd hpass (by simp)
    | cons f rest =>
        rw [hfiles] at hpass
        simp only at hpass
        split_ifs at hpass with hdue
        obtain rfl := Sum.inl.inj hpass
        exact hremove p.1 _ hinv
  · intro p p' hinv hpass
    unfold remove_pass at hpass
    cases hfiles : p.1.self.files_ with
    | nil =>
        rw [hfiles] at hpass
        obtain rfl := Sum.inr.inj hpass
        exact ⟨hinv, Or.inl hfiles⟩
    | cons f rest =>
        rw [hfiles] at hpass
        simp only at hpass
        split_ifs at hpass with hdue
        obtain rfl := Sum.inr.inj hpass
        exact ⟨hinv, Or.inr ⟨f, by rw [hfiles]; exact List.mem_cons_self, by simpa using hdue⟩⟩

theorem remove_loop {due : Logger → Nat → Bool} {unlink : Nat → Bool} {fuel : Nat}
    {s s' : Session × Nat} (h : loop (remove_pass due unlink) fuel s = some s') :
    s'.1.trace = s.1.trace ∧
      (Accounts cfg s.1 ∧ Listed cfg s.1 → Accounts cfg s'.1 ∧ Listed cfg s'.1) := by
  refine (remove_loop_keeps (P := fun t => t.trace = s.1.trace ∧
    (Accounts cfg s.1 ∧ Listed cfg s.1 → Accounts cfg t ∧ Listed cfg t)) ?_ h ⟨rfl, id⟩).1
  intro t ok hinv
  refine ⟨(remove_log_trace t ok).trans hinv.1, fun hstart => ?_⟩
  obtain ⟨hacc, hlisted⟩ := hinv.2 hstart
  exact remove_log_accounts hacc hlisted ok

/-- What the two loops of a rotation keep. -/
theorem rotate_loops {request_size : Nat} {a : Answers} {s₁ s₂ : Session × Nat}
    (h₁ : rotate_expired cfg (s, 0) a = some s₁)
    (h₂ : rotate_too_large cfg s₁ request_size a = some s₂) :
    s₂.1.trace = s.trace ∧
      (Accounts cfg s ∧ Listed cfg s → Accounts cfg s₂.1 ∧ Listed cfg s₂.1) := by
  have hfirst : s₁.1.trace = s.trace ∧
      (Accounts cfg s ∧ Listed cfg s → Accounts cfg s₁.1 ∧ Listed cfg s₁.1) := by
    unfold rotate_expired at h₁
    split_ifs at h₁ with hexpired
    · exact remove_loop h₁
    · obtain rfl := Option.some.inj h₁
      exact ⟨rfl, id⟩
  have hsecond : s₂.1.trace = s₁.1.trace ∧
      (Accounts cfg s₁.1 ∧ Listed cfg s₁.1 → Accounts cfg s₂.1 ∧ Listed cfg s₂.1) := by
    unfold rotate_too_large at h₂
    split_ifs at h₂ with hlarge
    · exact remove_loop h₂
    · obtain rfl := Option.some.inj h₂
      exact ⟨rfl, id⟩
  exact ⟨hsecond.1.trans hfirst.1, fun h => hsecond.2 (hfirst.2 h)⟩

/-- **A rotation keeps what a scan has counted.** -/
theorem rotate_store_accounts {request_size : Nat} {a : Answers}
    (h : rotate_store cfg s request_size a = some s') :
    s.trace <+: s'.trace ∧ (Accounts cfg s → Listed cfg s → AllFine cfg s'.trace →
      Accounts cfg s' ∧ Listed cfg s') := by
  unfold rotate_store at h
  obtain ⟨s₁, h₁, h⟩ := Option.bind_eq_some_iff.mp h
  obtain ⟨s₂, h₂, h⟩ := Option.bind_eq_some_iff.mp h
  obtain ⟨htrace, hkeep⟩ := rotate_loops h₁ h₂
  split_ifs at h with hempty
  · -- all files were removed: a new one is opened and the directory scanned again
    refine ⟨htrace ▸ reopen_trace h, fun hacc _ hfine => ?_⟩
    exact reopen_accounts h (htrace ▸ hacc.scans) hfine
  · obtain rfl := Option.some.inj h
    exact ⟨htrace ▸ List.prefix_rfl, fun hacc hlisted _ => hkeep ⟨hacc, hlisted⟩⟩

/-! ## §5. `init` and `log`. -/

/-- **`init` makes everything exact**, whatever it was before. -/
theorem init_accounts {request_size : Nat} {a : Answers}
    (h : init cfg s request_size a = some s') :
    s.trace <+: s'.trace ∧ (Scans cfg s.trace → AllFine cfg s'.trace →
      Accounts cfg s' ∧ Listed cfg s') := by
  unfold init at h
  obtain ⟨s₁, h₁, h⟩ := Option.bind_eq_some_iff.mp h
  obtain ⟨htrace, hkeep⟩ := rotate_store_accounts h
  refine ⟨(reopen_trace h₁).trans htrace, fun hscans hfine => ?_⟩
  obtain ⟨hacc, hlisted⟩ := reopen_accounts h₁ hscans (hfine.of_prefix htrace)
  exact hkeep hacc hlisted hfine

theorem init_if_accounts {due : Bool} {request_size : Nat} {a : Answers}
    (h : init_if cfg due s request_size a = some s') :
    s.trace <+: s'.trace ∧ (Accounts cfg s → AllFine cfg s'.trace → Accounts cfg s') := by
  unfold init_if at h
  split_ifs at h with hdue
  · obtain ⟨htrace, hinit⟩ := init_accounts h
    exact ⟨htrace, fun hacc hfine => (hinit hacc.scans hfine).1⟩
  · obtain rfl := Option.some.inj h
    exact ⟨List.prefix_rfl, fun hacc _ => hacc⟩

/-- What `write` does: nothing, or the bytes are behind the file's end. -/
theorem write_cases (s : Session) (len : Nat) (answer : Int) :
    ((write s len answer).1 = s ∧ (write s len answer).2 ≤ 0) ∨
      ∃ fh, s.self.fh_ = some fh ∧ (write s len answer).2 > 0 ∧ (write s len answer).1 =
        { s with disk := s.disk.append fh (write s len answer).2.toNat } := by
  unfold write
  cases hfh : s.self.fh_ with
  | none => exact Or.inl ⟨rfl, by show (-1 : Int) ≤ 0; omega⟩
  | some fh =>
      simp only
      split_ifs with hpos
      · exact Or.inr ⟨fh, rfl, hpos, rfl⟩
      · exact Or.inl ⟨rfl, not_lt.mp hpos⟩

/-- Bytes that are written to a log file of the directory and added to the counters. -/
theorem Accounts.write {fh n : Nat} (h : Accounts cfg s) (hfh : s.self.fh_ = some fh)
    (hlinks : s.disk.links (matched cfg) fh = 1) :
    Accounts cfg ⟨{ s.self with n_total_ := s.self.n_total_ + n, n_file_ := s.self.n_file_ + n },
      s.disk.append fh n, s.trace⟩ := by
  refine ⟨?_, ?_, h.scans⟩
  · show s.self.n_total_ + n = (s.disk.append fh n).total (matched cfg)
    rw [total_append, hlinks, Nat.mul_one, h.total]
  · intro fh' hfh'
    obtain rfl : fh = fh' := Option.some.inj (hfh.symm.trans hfh')
    show s.self.n_file_ + n = Function.update s.disk.size fh (s.disk.size fh + n) fh
    rw [Function.update_self, h.file fh hfh]

/-- What is done with the text of a record: nothing, or it is written and counted, with the
    bytes in front of it. -/
theorem log_text_cases (s : Session) (len : Nat) (n_byte w_buf : Int) :
    ((log_text s len n_byte w_buf).1 = s ∧ (log_text s len n_byte w_buf).2.2 ≤ 0) ∨
      ∃ fh, s.self.fh_ = some fh ∧ (log_text s len n_byte w_buf).2.2 > 0 ∧
        (log_text s len n_byte w_buf).1 =
          ⟨{ s.self with
              n_total_ := s.self.n_total_ + (n_byte + (log_text s len n_byte w_buf).2.2).toNat
              n_file_ := s.self.n_file_ + (n_byte + (log_text s len n_byte w_buf).2.2).toNat },
            s.disk.append fh (log_text s len n_byte w_buf).2.2.toNat, s.trace⟩ := by
  unfold log_text
  cases write_cases s len w_buf with
  | inl hnone =>
      simp only [if_neg (not_lt.mpr hnone.2)]
      exact Or.inl hnone
  | inr hsome =>
      obtain ⟨fh, hfh, hpos, hs⟩ := hsome
      simp only [if_pos hpos]
      refine Or.inr ⟨fh, hfh, hpos, ?_⟩
      rw [hs]

theorem Accounts.of_wrote (h : Accounts cfg s) (disk : Disk Bytes) (fh : Option Nat)
    (stamp text : Int) :
    Accounts cfg { s with trace := s.trace ++ [.wrote disk fh stamp text] } := by
  refine ⟨h.total, h.file, ?_⟩
  intro disk' ctime files hmem
  rw [List.mem_append, List.mem_singleton] at hmem
  exact h.scans disk' ctime files (hmem.resolve_right (by simp))

/-- **A record that is fine is counted.** -/
theorem log_record_accounts (cfg : Config) (s : Session) (r : Request) :
    s.trace <+: (log_record s r).1.trace ∧ (Accounts cfg s →
      AllFine cfg (log_record s r).1.trace → Accounts cfg (log_record s r).1) := by
  unfold log_record
  cases r.time_format with
  | none =>
      simp only
      cases log_text_cases s r.len 0 r.w_buf with
      | inl hnone =>
          rw [hnone.1]
          exact ⟨List.prefix_append _ _, fun hacc _ => hacc.of_wrote _ _ _ _⟩
      | inr hsome =>
          obtain ⟨fh, hfh, hpos, hs⟩ := hsome
          rw [hs]
          refine ⟨List.prefix_append _ _, fun hacc hfine => ?_⟩
          have hlast := hfine _ (List.mem_append_right _ (List.mem_singleton.mpr rfl))
          have hlinks := hlast.2 hpos fh hfh
          rw [Int.zero_add]
          exact (hacc.write hfh hlinks).of_wrote _ _ _ _
  | some n_buf =>
      simp only
      cases write_cases s n_buf r.w_stamp with
      | inl hnone =>
          rw [if_neg (not_lt.mpr hnone.2), hnone.1]
          exact ⟨List.prefix_rfl, fun hacc _ => hacc⟩
      | inr hstamp =>
          obtain ⟨fh, hfh, hpos, hs⟩ := hstamp
          rw [if_pos hpos]
          generalize (write s n_buf r.w_stamp).2 = stamp at hpos hs ⊢
          rw [hs]
          cases log_text_cases { s with disk := s.disk.append fh stamp.toNat } r.len stamp r.w_buf with
          | inl hnone =>
              -- the text is missing, which is not fine
              rw [hnone.1]
              refine ⟨List.prefix_append _ _, fun _ hfine => ?_⟩
              have hlast := hfine _ (List.mem_append_right _ (List.mem_singleton.mpr rfl))
              exact absurd (hlast.1 hpos) (not_lt.mpr hnone.2)
          | inr htext =>
              obtain ⟨fh', hfh', htpos, hs'⟩ := htext
              obtain rfl : fh = fh' := Option.some.inj (hfh.symm.trans hfh')
              rw [hs']
              refine ⟨List.prefix_append _ _, fun hacc hfine => ?_⟩
              have hlast := hfine _ (List.mem_append_right _ (List.mem_singleton.mpr rfl))
              have hlinks := hlast.2 htpos fh hfh
              rw [Disk.append_append, ← Int.toNat_add (by omega) (by omega)]
              exact (hacc.write hfh hlinks).of_wrote _ _ _ _

/-- **`log` keeps the counters exact.** -/
theorem log_accounts {r : Request} {rc : Int} (h : log cfg s r = some (s', rc)) :
    s.trace <+: s'.trace ∧ (Accounts cfg s → AllFine cfg s'.trace → Accounts cfg s') := by
  unfold log at h
  obtain ⟨s₁, h₁, h⟩ := Option.bind_eq_some_iff.mp h
  obtain ⟨s₂, h₂, h⟩ := Option.bind_eq_some_iff.mp h
  obtain ⟨s₃, h₃, h⟩ := Option.map_eq_some_iff.mp h
  obtain ⟨htrace₁, hacc₁⟩ := init_if_accounts h₁
  obtain ⟨htrace₂, hacc₂⟩ := init_if_accounts h₂
  obtain ⟨htrace₃, hacc₃⟩ := init_if_accounts h₃
  obtain rfl : (log_record s₃ r).1 = s' := congrArg Prod.fst h
  obtain ⟨htrace, hrecord⟩ := log_record_accounts cfg s₃ r
  refine ⟨htrace₁.trans (htrace₂.trans (htrace₃.trans htrace)), fun hacc hfine => ?_⟩
  -- what is fine at the end was fine on the way
  have hfine₃ := hfine.of_prefix htrace
  have hfine₂ := hfine₃.of_prefix htrace₃
  have hfine₁ := hfine₂.of_prefix htrace₂
  exact hrecord (hacc₃ (hacc₂ (hacc₁ hacc hfine₁) hfine₂) hfine₃) hfine

end Calls

/-! ## §6. Runs. -/

variable (cfg)

inductive Call
  | init (request_size : Nat) (a : Answers)
  | log (r : Request)

def step (s : Session) : Call → Option Session
  | .init request_size a => init cfg s request_size a
  | .log r => (log cfg s r).map Prod.fst

/-- A logger in front of the `init` of its constructor. -/
def start (disk : Disk Bytes) : Session := ⟨⟨none, 0, [], 0, 0⟩, disk, []⟩

variable {cfg}

/-- **One call.** -/
theorem step_accounts {s s' : Session} {call : Call} (h : step cfg s call = some s') :
    s.trace <+: s'.trace ∧ (Accounts cfg s → AllFine cfg s'.trace → Accounts cfg s') := by
  cases call with
  | init request_size a =>
      obtain ⟨htrace, hinit⟩ := init_accounts h
      exact ⟨htrace, fun hacc hfine => (hinit hacc.scans hfine).1⟩
  | log r =>
      obtain ⟨⟨s'', rc⟩, hlog, rfl⟩ := Option.map_eq_some_iff.mp h
      exact log_accounts hlog

theorem run_trace {s₀ : Session} (calls : List Call) (s : Session)
    (h : run (step cfg) s₀ calls = some s) : s₀.trace <+: s.trace := by
  have hall : Always (step cfg) s₀ (fun s => s₀.trace <+: s.trace) calls := by
    refine always_of_step (fun s : Session => s₀.trace <+: s.trace) List.prefix_rfl ?_ calls
    exact fun s call s' hpre hstep => hpre.trans (step_accounts hstep).1
  exact hall calls List.prefix_rfl s h

/-- **Whole runs.** -/
theorem run_accounts {s₀ : Session} (hacc : Accounts cfg s₀) (calls : List Call) (s : Session)
    (h : run (step cfg) s₀ calls = some s) (hfine : AllFine cfg s.trace) : Accounts cfg s := by
  have hall : Always (step cfg) s₀ (fun s => AllFine cfg s.trace → Accounts cfg s) calls := by
    refine always_of_step _ (fun _ => hacc) (fun s call s' ih hstep hfine' => ?_) calls
    -- what is fine after the call was fine before it
    obtain ⟨htrace, hkeep⟩ := step_accounts hstep
    exact hkeep (ih (hfine'.of_prefix htrace)) hfine'
  exact hall calls List.prefix_rfl s h hfine

/-- **The counters are exact.**  For every logger, every directory, every run of `init` and
    `log` from the constructor on, and whatever the system answers: when all that the
    calls have met is fine, the counters are exact, and so was every scan. -/
theorem counters_exact (disk : Disk Bytes) (request_size : Nat) (a : Answers)
    (calls : List Call) (s : Session)
    (hrun : run (step cfg) (start disk) (.init request_size a :: calls) = some s)
    (hfine : AllFine cfg s.trace) : Accounts cfg s := by
  have hfirst : run (step cfg) (start disk) (.init request_size a :: calls)
      = (step cfg (start disk) (.init request_size a)).bind fun s₀ => run (step cfg) s₀ calls := rfl
  rw [hfirst, Option.bind_eq_some_iff] at hrun
  obtain ⟨s₀, hinit, hcalls⟩ := hrun
  obtain ⟨_, hacc⟩ := init_accounts hinit
  have hempty : Scans cfg (start disk).trace := fun _ _ _ hmem => absurd hmem List.not_mem_nil
  have hfine₀ := hfine.of_prefix (run_trace calls s hcalls)
  exact run_accounts (hacc hempty hfine₀).1 calls s hcalls hfine

/-! ### Two runs on an empty directory. -/

/-- An empty directory. -/
def empty_disk : Disk Bytes := ⟨[], fun _ => 0, List.nodup_nil⟩

/-- Every call of the system succeeds, at time 0. -/
def answers : Answers :=
  ⟨⟨true, 0, [], [], some 0⟩, fun _ => 0, 0, fun _ => true, 0, ⟨true, 0, [], [], some 0⟩, fun _ => 0⟩

/-- A record of 20 bytes of timestamp and 5 of text, of which `w_buf` are written. -/
def request (w_buf : Int) : Request := ⟨5, 0, some 20, 20, w_buf, answers, answers, answers⟩

/-- A logger of `a.log` that keeps everything, after one record. -/
def one_record (w_buf : Int) : Option Session :=
  run (step (config (lit "a") (lit "log") 0 0 0 0)) (start empty_disk)
    [.init 0 answers, .log (request w_buf)]

/-- The text is written with its timestamp. -/
theorem counters_exact_record :
    ∃ s, one_record 5 = some s ∧ Accounts (config (lit "a") (lit "log") 0 0 0 0) s := by
  have hsome : (one_record 5).isSome = true := by decide
  have hfine : ∀ s ∈ one_record 5, ∀ ev ∈ s.trace,
      Fine (config (lit "a") (lit "log") 0 0 0 0) ev := by decide
  obtain ⟨s, hs⟩ := Option.isSome_iff_exists.mp hsome
  exact ⟨s, hs, counters_exact empty_disk 0 answers [.log (request 5)] s hs (hfine s hs)⟩

/-- The timestamp is written and the text is not: 20 bytes are in the file, and the
    logger counts none. -/
theorem counters_not_exact :
    ∃ s, one_record (-1) = some s ∧ s.self.n_total_ = 0 ∧
      s.disk.total (matched (config (lit "a") (lit "log") 0 0 0 0)) = 20 ∧
      ¬ Accounts (config (lit "a") (lit "log") 0 0 0 0) s := by
  have hrun : (one_record (-1)).map (fun s => (s.self.n_total_,
      s.disk.total (matched (config (lit "a") (lit "log") 0 0 0 0)))) = some (0, 20) := by
    decide
  obtain ⟨s, hs, hpair⟩ := Option.map_eq_some_iff.mp hrun
  obtain ⟨hzero, htwenty⟩ := Prod.mk.inj hpair
  refine ⟨s, hs, hzero, htwenty, fun hacc => ?_⟩
  have hsame := hacc.total
  rw [hzero, htwenty] at hsame
  exact absurd hsame (by decide)

end Aos.Logger
