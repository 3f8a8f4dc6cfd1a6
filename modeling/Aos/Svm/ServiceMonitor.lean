/-
  Aos.Svm.ServiceMonitor — the monitors of `Service_Monitor`, saved and loaded.

  `save` writes the map of intervals as the section `[*]` of an ini file, and
  remembers the file; `load` imports the file it remembers, and then remembers
  the one it was told to load.

  The files are a map from paths to contents.  The reader of ini files is not
  part of the library: it is a parameter, and takes a text to the values of its
  section `*`, in the order in which it enumerates them.

  Main results:
    • `load_saved` — loading the file that was just saved gives its monitors back;
    • `reload_iff` — when `save(f)` and `load(f)` do.
-/
import Aos.Str.Number
import Aos.Lib.OrderedMap

namespace Aos

open Lib (OrderedMap)

/-! ## §1. The monitors. -/

/-- `std::map< std::string, size_t >` -/
abbrev MONITORS := OrderedMap Bytes Nat

structure Service_Monitor where
  monitors_ : MONITORS
  /-- the file that was loaded or saved last -/
  ini_file_ : Bytes
  deriving Repr, DecidableEq

/-- The files there are; nothing opens the empty path. -/
structure Files where
  content : Bytes → Option Bytes
  no_path : content [] = none

/-- `import_config` of a text, and `enumerate_values` of its section `*`. -/
abbrev Ini_Reader := Bytes → Option (List (Bytes × Bytes))

namespace Service_Monitor

/-- `Service_Monitor()` -/
def new : Service_Monitor := ⟨OrderedMap.empty, []⟩

/-- `set_monitor(service, n_sec)` -/
def set_monitor (s : Service_Monitor) (service : Bytes) (n_sec : Int32) : Service_Monitor :=
  let monitors := s.monitors_.erase service
  { s with
    monitors_ := if n_sec.toInt ≥ 0 then monitors.insert service n_sec.toInt.toNat else monitors }

/-- `itoa(value, buf, 10)` -/
def itoa (i : Int) : Bytes := if i < 0 then 45 :: dec i.natAbs else dec i.toNat

/-- The section `*` with the values. -/
def section_text (values : List (Bytes × Bytes)) : Bytes :=
  lit "[*]\r\n" ++ (values.map fun v => v.1 ++ lit "=" ++ v.2 ++ lit "\r\n").flatten

/-- The values that are saved; the size is converted to `int`. -/
def saved_values (m : MONITORS) : List (Bytes × Bytes) :=
  m.entries.map fun e => (e.1, itoa (toInt e.2))

/-- `fopen(path, "wb")`, `fwrite` and `fclose`. -/
def write_file (files : Files) (path body : Bytes) : Option Files :=
  if hpath : path = [] then none
  else
    some ⟨fun p => if p = path then some body else files.content p, by
      rw [if_neg (Ne.symm hpath)]
      exact files.no_path⟩

/-- `save(ini_file)`, null for the file that is remembered. -/
def save (s : Service_Monitor) (files : Files) (ini_file : Option Bytes) :
    Service_Monitor × Files × Int :=
  let s := match ini_file with
    | some f => { s with ini_file_ := f }
    | none => s
  match write_file files s.ini_file_ (section_text (saved_values s.monitors_)) with
  | some files => (s, files, 0)
  | none => (s, files, -1)

/-- The loop of `load` over the values; `atoi` must have a result. -/
def read_values (m : MONITORS) : List (Bytes × Bytes) → Option MONITORS
  | [] => some m
  | v :: values =>
      (atoi v.2).bind fun monitor_sec =>
        read_values (if monitor_sec ≥ 0 then m.insert v.1 monitor_sec.toNat else m) values

/-- `import_config(ini_file_.c_str())` and the values of the section `*`. -/
def import_config (reader : Ini_Reader) (files : Files) (path : Bytes) :
    Option (List (Bytes × Bytes)) := (files.content path).bind reader

/-- `load(ini_file)` -/
def load (reader : Ini_Reader) (files : Files) (s : Service_Monitor) (ini_file : Bytes) :
    Option (Service_Monitor × Int) :=
  match import_config reader files s.ini_file_ with
  | none => some (s, -1)
  | some values =>
      (read_values OrderedMap.empty values).map fun m => (⟨m, ini_file⟩, 0)

/-! ## §2. What is saved. -/

/-- A name that an ini file can hold. -/
structure Service_Name (name : Bytes) : Prop where
  ne : name ≠ []
  plain : ∀ c ∈ name, c ≠ NUL ∧ c ≠ CR ∧ c ≠ LF ∧ c ≠ 61 ∧ c ≠ 91 ∧ c ≠ 93
  first : ∀ c, name.head? = some c → isspace c = false
  last : ∀ c, name.getLast? = some c → isspace c = false

/-- **The reader of ini files**: from a section of names and numbers it gets these,
    in some order. -/
def Reads_Section (reader : Ini_Reader) : Prop :=
  ∀ values : List (Bytes × Bytes),
    (∀ v ∈ values, Service_Name v.1 ∧ v.2 ≠ [] ∧ ∀ c ∈ v.2, isdigit c = true) →
    (values.map Prod.fst).Nodup →
    ∃ values', reader (section_text values) = some values' ∧ values'.Perm values

/-- The monitors come from calls of `set_monitor` with names that an ini file can hold. -/
def Reached (m : MONITORS) : Prop :=
  ∃ calls : List (Bytes × Int32), (∀ c ∈ calls, Service_Name c.1) ∧
    m = (calls.foldl (fun s c => set_monitor s c.1 c.2) new).monitors_

/-- Names that an ini file can hold, and intervals that are `int`s. -/
def Valid (m : MONITORS) : Prop := ∀ e ∈ m.entries, Service_Name e.1 ∧ e.2 < 2 ^ 31

theorem valid_set {s : Service_Monitor} (h : Valid s.monitors_) {service : Bytes}
    (hname : Service_Name service) (n_sec : Int32) :
    Valid (s.set_monitor service n_sec).monitors_ := by
  have herase : Valid (s.monitors_.erase service) := by
    intro e he
    exact h e (List.mem_of_mem_filter he)
  unfold set_monitor
  simp only
  split_ifs with hpos
  · intro e he
    rcases OrderedMap.mem_insertEntry he with rfl | hold
    · refine ⟨hname, ?_⟩
      have hlt := Int32.toInt_lt n_sec
      show n_sec.toInt.toNat < 2 ^ 31
      omega
    · exact herase e hold
  · exact herase

theorem Reached.valid {m : MONITORS} (h : Reached m) : Valid m := by
  obtain ⟨calls, hnames, rfl⟩ := h
  induction calls using List.reverseRecOn with
  | nil => exact fun e he => absurd he List.not_mem_nil
  | append_singleton calls c ih =>
      rw [List.foldl_append]
      refine valid_set (ih fun d hd => hnames d (List.mem_append_left _ hd)) ?_ _
      exact hnames c (List.mem_append_right _ (List.mem_singleton_self c))

/-! ## §3. What is loaded. -/

/-- An interval as it is written. -/
theorem itoa_interval {v : Nat} (hv : v < 2 ^ 31) : itoa (toInt v) = dec v := by
  rw [toInt_of_lt (by omega) (by omega), itoa, if_neg (by omega), Int.toNat_natCast]

/-- A number that was written is read back. -/
theorem atoi_itoa {v : Nat} (hv : v < 2 ^ 31) : atoi (itoa (toInt v)) = some (v : Int) := by
  obtain ⟨hne, hdigits⟩ := dec_digits v
  have hread := atoi_digits (dec v) [] hne hdigits fun c hc => absurd hc (by simp)
  rw [List.append_nil, value_dec, if_pos hv] at hread
  rw [itoa_interval hv, hread]

/-- The entry that a value stands for. -/
def entry_of (v : Bytes × Bytes) : Bytes × Nat := (v.1, ((atoi v.2).getD 0).toNat)

theorem entry_saved {e : Bytes × Nat} (he : e.2 < 2 ^ 31) :
    entry_of (e.1, itoa (toInt e.2)) = e := by
  unfold entry_of
  rw [atoi_itoa he]
  rfl

/-- Values that are numbers are inserted one after the other. -/
theorem read_values_insertAll {values : List (Bytes × Bytes)}
    (h : ∀ v ∈ values, ∃ n : Nat, atoi v.2 = some (n : Int)) (m : MONITORS) :
    read_values m values = some (m.insertAll (values.map entry_of)) := by
  induction values generalizing m with
  | nil => rfl
  | cons v values ih =>
      obtain ⟨n, hn⟩ := h v List.mem_cons_self
      have hentry : entry_of v = (v.1, n) := by
        unfold entry_of
        rw [hn]
        rfl
      rw [read_values, hn, Option.bind_some, if_pos (by omega), Int.toNat_natCast,
        ih fun w hw => h w (List.mem_cons_of_mem v hw), List.map_cons, hentry]
      rfl

/-- **What was saved is loaded**, whatever the order in which the reader gives it. -/
theorem read_saved {reader : Ini_Reader} (hreader : Reads_Section reader) {m : MONITORS}
    (hvalid : Valid m) :
    (reader (section_text (saved_values m))).bind (read_values OrderedMap.empty) = some m := by
  have hnumbers : ∀ v ∈ saved_values m, ∃ e ∈ m.entries, v = (e.1, itoa (toInt e.2)) := by
    intro v hv
    obtain ⟨e, he, rfl⟩ := List.mem_map.mp hv
    exact ⟨e, he, rfl⟩
  have hgood : ∀ v ∈ saved_values m,
      Service_Name v.1 ∧ v.2 ≠ [] ∧ ∀ c ∈ v.2, isdigit c = true := by
    intro v hv
    obtain ⟨e, he, rfl⟩ := hnumbers v hv
    obtain ⟨hname, hint⟩ := hvalid e he
    refine ⟨hname, ?_⟩
    rw [itoa_interval hint]
    exact dec_digits e.2
  have hkeys : (saved_values m).map Prod.fst = m.keys := by
    unfold saved_values OrderedMap.keys
    rw [List.map_map]
    rfl
  obtain ⟨values, hread, hperm⟩ := hreader _ hgood (hkeys ▸ m.nodup_keys)
  have hatoi : ∀ v ∈ values, ∃ n : Nat, atoi v.2 = some (n : Int) := by
    intro v hv
    obtain ⟨e, he, hv⟩ := hnumbers v (hperm.mem_iff.mp hv)
    refine ⟨e.2, ?_⟩
    rw [hv]
    dsimp only
    rw [atoi_itoa (hvalid e he).2]
  have hentries : (saved_values m).map entry_of = m.entries := by
    unfold saved_values
    rw [List.map_map]
    exact (List.map_congr_left fun e he => entry_saved (hvalid e he).2).trans (List.map_id' _)
  have hall : (values.map entry_of).Perm m.entries := hentries ▸ hperm.map entry_of
  rw [hread, Option.bind_some, read_values_insertAll hatoi, OrderedMap.insertAll_eq hall]

/-! ## §4. Saved, and loaded again. -/

section Reload

variable {reader : Ini_Reader} {files files' : Files} {s s' : Service_Monitor} {f : Bytes}

theorem save_cases (hsave : s.save files (some f) = (s', files', 0)) :
    f ≠ [] ∧ files'.content f = some (section_text (saved_values s.monitors_)) ∧
      ∀ p, p ≠ f → files'.content p = files.content p := by
  unfold save write_file at hsave
  simp only at hsave
  split at hsave
  next files'' hwrite =>
    split_ifs at hwrite with hpath
    obtain rfl := Option.some.inj hwrite
    obtain ⟨_, hfiles⟩ := Prod.mk.inj hsave
    obtain ⟨rfl, _⟩ := Prod.mk.inj hfiles
    exact ⟨hpath, if_pos rfl, fun p hp => if_neg hp⟩
  next =>
    obtain ⟨_, hfiles⟩ := Prod.mk.inj hsave
    exact absurd (Prod.mk.inj hfiles).2 (by decide)

/-- The monitors after `load`. -/
def loaded (reader : Ini_Reader) (files : Files) (l : Service_Monitor) : Option MONITORS :=
  match import_config reader files l.ini_file_ with
  | none => some l.monitors_
  | some values => read_values OrderedMap.empty values

theorem load_monitors (reader : Ini_Reader) (files : Files) (l : Service_Monitor) (f : Bytes) :
    (load reader files l f).map (fun r => r.1.monitors_) = loaded reader files l := by
  unfold load loaded
  split
  · rfl
  · rw [Option.map_map]
    exact Option.map_id'

/-- **The file that was just saved is loaded** by an object that remembers it. -/
theorem load_saved (hreader : Reads_Section reader) (hvalid : Valid s.monitors_)
    (hsave : s.save files (some f) = (s', files', 0)) {l : Service_Monitor}
    (hl : l.ini_file_ = f) : loaded reader files' l = some s.monitors_ := by
  obtain ⟨_, hcontent, _⟩ := save_cases hsave
  have hread := read_saved hreader hvalid
  unfold loaded import_config
  rw [hl, hcontent, Option.bind_some]
  cases hvalues : reader (section_text (saved_values s.monitors_)) with
  | none =>
      rw [hvalues] at hread
      cases hread
  | some values =>
      rw [hvalues] at hread
      exact hread

/-- Before the file was saved, the loading object would have loaded the same monitors:
    from the file it remembers, or by keeping its own where that file is not read. -/
def Same (reader : Ini_Reader) (files : Files) (l : Service_Monitor) (m : MONITORS) : Prop :=
  match import_config reader files l.ini_file_ with
  | none => l.monitors_ = m
  | some values => read_values OrderedMap.empty values = some m

/-- The loading object has the map. -/
theorem load_has_iff (l : Service_Monitor) (m : MONITORS) :
    (∃ l' rc, load reader files l f = some (l', rc) ∧ l'.monitors_ = m)
      ↔ loaded reader files l = some m := by
  rw [← load_monitors reader files l f, Option.map_eq_some_iff]
  constructor
  · intro h
    obtain ⟨l', rc, hload, hsame⟩ := h
    exact ⟨(l', rc), hload, hsame⟩
  · intro h
    obtain ⟨⟨l', rc⟩, hload, hsame⟩ := h
    exact ⟨l', rc, hload, hsame⟩

/-- What is loaded after a file was saved. -/
theorem loaded_iff (hreader : Reads_Section reader) (hreached : Reached s.monitors_)
    (hsave : s.save files (some f) = (s', files', 0)) (l : Service_Monitor) :
    loaded reader files' l = some s.monitors_
      ↔ l.ini_file_ = f ∨ Same reader files l s.monitors_ := by
  by_cases hl : l.ini_file_ = f
  · exact iff_of_true (load_saved hreader hreached.valid hsave hl) (Or.inl hl)
  · -- another file is imported, and that one has not changed
    obtain ⟨_, _, hother⟩ := save_cases hsave
    have himport : import_config reader files' l.ini_file_
        = import_config reader files l.ini_file_ := by
      unfold import_config
      rw [hother _ hl]
    rw [or_iff_right hl]
    unfold loaded Same
    rw [himport]
    cases import_config reader files l.ini_file_ with
    | none => exact Option.some_inj
    | some values => exact Iff.rfl

/-- **Monitors saved and loaded**: the loading object has the map that was saved
    exactly if the file it remembers is the one that was saved, or if it would have
    had the map without it. -/
theorem reload_iff (hreader : Reads_Section reader) (hreached : Reached s.monitors_)
    (hsave : s.save files (some f) = (s', files', 0)) (l : Service_Monitor) :
    (∃ l' rc, load reader files' l f = some (l', rc) ∧ l'.monitors_ = s.monitors_)
      ↔ l.ini_file_ = f ∨ Same reader files l s.monitors_ := by
  rw [load_has_iff]
  exact loaded_iff hreader hreached hsave l

/-- **A fresh object loads nothing**: it has the map that was saved only if that is empty. -/
theorem reload_fresh_iff (hreader : Reads_Section reader) (hreached : Reached s.monitors_)
    (hsave : s.save files (some f) = (s', files', 0)) :
    (∃ l' rc, load reader files' new f = some (l', rc) ∧ l'.monitors_ = s.monitors_)
      ↔ s.monitors_ = OrderedMap.empty := by
  have himport : import_config reader files [] = none := by
    unfold import_config
    rw [files.no_path]
    rfl
  have hpath : ([] : Bytes) ≠ f := Ne.symm (save_cases hsave).1
  rw [load_has_iff, loaded_iff hreader hreached hsave new]
  unfold Same
  rw [show new.ini_file_ = [] from rfl, himport, or_iff_right hpath]
  exact eq_comm

end Reload

/-! ## §5. A reader. -/

/-- The line of an ini file with a value. -/
def ini_line (l : Bytes) : Option (Bytes × Bytes) :=
  if (61 : Byte) ∈ l then
    some (l.takeWhile (· ≠ 61), ((l.dropWhile (· ≠ 61)).drop 1).filter (· ≠ CR))
  else none

/-- A reader of files that have one section. -/
def ini_reader : Ini_Reader := fun text => some ((text.splitOn LF).filterMap ini_line)

theorem ini_line_value {name value : Bytes} (hname : (61 : Byte) ∉ name)
    (hvalue : ∀ c ∈ value, isdigit c = true) :
    ini_line (name ++ lit "=" ++ value ++ lit "\r") = some (name, value) := by
  have hkeep : value.filter (· ≠ CR) = value := by
    rw [List.filter_eq_self]
    intro c hc
    rw [decide_eq_true_eq]
    rintro rfl
    exact absurd (hvalue CR hc) (by decide)
  have htake : (name ++ (61 :: (value ++ [CR]))).takeWhile (· ≠ 61) = name := by
    rw [List.takeWhile_append_of_pos]
    · simp
    · intro c hc
      rw [decide_eq_true_eq]
      rintro rfl
      exact hname hc
  have hdrop : (name ++ (61 :: (value ++ [CR]))).dropWhile (· ≠ 61) = 61 :: (value ++ [CR]) := by
    rw [List.dropWhile_append_of_pos]
    · simp
    · intro c hc
      rw [decide_eq_true_eq]
      rintro rfl
      exact hname hc
  have hline : name ++ lit "=" ++ value ++ lit "\r" = name ++ (61 :: (value ++ [CR])) := by
    rw [List.append_assoc, List.append_assoc]
    rfl
  have hmem : (61 : Byte) ∈ name ++ (61 :: (value ++ [CR])) :=
    List.mem_append_right _ List.mem_cons_self
  have hend : ([CR] : Bytes).filter (· ≠ CR) = [] := rfl
  rw [hline]
  unfold ini_line
  rw [if_pos hmem, htake, hdrop, List.drop_one, List.tail_cons, List.filter_append, hkeep, hend,
    List.append_nil]

/-- The lines of the values, each with its CR. -/
theorem split_values {values : List (Bytes × Bytes)}
    (h : ∀ v ∈ values, Service_Name v.1 ∧ v.2 ≠ [] ∧ ∀ c ∈ v.2, isdigit c = true) :
    ((values.map fun v => v.1 ++ lit "=" ++ v.2 ++ lit "\r\n").flatten.splitOn LF).filterMap
      ini_line = values := by
  induction values with
  | nil => decide
  | cons v values ih =>
      obtain ⟨hname, _, hdigits⟩ := h v List.mem_cons_self
      have hequal : (61 : Byte) ∉ v.1 := fun hmem => (hname.plain 61 hmem).2.2.2.1 rfl
      have hno : LF ∉ v.1 ++ lit "=" ++ v.2 ++ lit "\r" := by
        simp only [List.mem_append, not_or]
        refine ⟨⟨⟨fun hmem => (hname.plain LF hmem).2.2.1 rfl, by decide⟩, ?_⟩,
          by decide⟩
        intro hmem
        exact absurd (hdigits LF hmem) (by decide)
      have hbreak : lit "\r\n" = lit "\r" ++ [LF] := by decide
      rw [List.map_cons, List.flatten_cons, hbreak, ← List.append_assoc, List.append_assoc _ [LF],
        List.singleton_append, List.splitOn_append_cons_self_of_not_mem hno, List.filterMap_cons,
        ini_line_value hequal hdigits]
      simp only
      rw [← hbreak, ih fun w hw => h w (List.mem_cons_of_mem v hw)]

theorem ini_reader_reads : Reads_Section ini_reader := by
  intro values hvalues _
  refine ⟨values, ?_, List.Perm.refl _⟩
  have hhead : lit "[*]\r\n" = lit "[*]\r" ++ [LF] := by decide
  have hno : LF ∉ lit "[*]\r" := by decide
  have hnone : ini_line (lit "[*]\r") = none := by decide
  unfold ini_reader section_text
  rw [hhead, List.append_assoc, List.singleton_append,
    List.splitOn_append_cons_self_of_not_mem hno, List.filterMap_cons, hnone]
  simp only
  rw [split_values hvalues]

/-! ### Runs. -/

/-- No files yet. -/
def no_files : Files := ⟨fun _ => none, rfl⟩

/-- A monitor of five seconds, set before the file is saved. -/
def watching : Service_Monitor := new.set_monitor (lit "httpd") 5

theorem watching_reached : Reached watching.monitors_ := by
  refine ⟨[(lit "httpd", 5)], ?_, rfl⟩
  intro c hc
  obtain rfl := List.mem_singleton.mp hc
  refine ⟨by decide, ?_, ?_, ?_⟩
  · decide +kernel
  · decide +kernel
  · decide +kernel

/-- The file that `svc` loads the monitors from. -/
def svm_ini : Bytes := lit "svm.ini"

/-- The files after `watching` was saved. -/
def saved_files : Files :=
  ⟨fun p => if p = svm_ini then some (section_text (saved_values watching.monitors_)) else none, by
    rw [if_neg (by decide)]⟩

theorem watching_saved :
    watching.save no_files (some svm_ini) = ({ watching with ini_file_ := svm_ini }, saved_files, 0) := by
  have hwrite : write_file no_files svm_ini (section_text (saved_values watching.monitors_))
      = some saved_files := by
    unfold write_file
    rw [dif_neg (by decide)]
    rfl
  unfold save
  simp only [hwrite]

/-- An object that has saved the file itself loads it. -/
theorem reload_own_file :
    (∃ l' rc, load ini_reader saved_files { watching with ini_file_ := svm_ini } svm_ini
        = some (l', rc) ∧ l'.monitors_ = watching.monitors_)
      ↔ svm_ini = svm_ini ∨
        Same ini_reader no_files { watching with ini_file_ := svm_ini } watching.monitors_ :=
  reload_iff ini_reader_reads watching_reached watching_saved { watching with ini_file_ := svm_ini }

/-- A fresh object that is told to load the file loads nothing. -/
theorem fresh_loads_nothing :
    ¬ ∃ l' rc, load ini_reader saved_files new svm_ini = some (l', rc) ∧
        l'.monitors_ = watching.monitors_ := by
  rw [reload_fresh_iff ini_reader_reads watching_reached watching_saved]
  decide

end Service_Monitor

end Aos
