/-
  Aos.Os.Mkdir — making a path with all the directories on it.

  The path is taken apart for its directories to be made one after the other.
  `explode` is given both separators in one string, and so looks for the two
  characters in a row: a path between whose names there is the one of them is
  not taken apart.  What is made is the whole path, in one call, where it
  begins at the root; where it does not, it is taken for the directory to begin
  in, which must be there already.

  Main results:
    • `pieces_of_path`       — the pieces of a path;
    • `mkdir_recursive_iff`  — when a path is made.
-/
import Aos.Lib.Folders
import Aos.Str.Explode

namespace Aos

open Lib.Folders Lib.Occurrence Lib.Pieces Multi_String

/-- `ACE_DIRECTORY_SEPARATOR_CHAR` -/
def ACE_DIRECTORY_SEPARATOR_CHAR : Byte := 0x2F

/-! ## §1. Paths. -/

/-- What a directory can be called. -/
structure Name where
  bytes : Bytes
  ne_nil : bytes ≠ []
  ne_dot : bytes ≠ lit "."
  ne_dots : bytes ≠ lit ".."
  no_separator : ACE_DIRECTORY_SEPARATOR_CHAR ∉ bytes
  no_nul : NUL ∉ bytes
  deriving DecidableEq

/-- The step that what stands between two separators is; between two in a row there is none. -/
def step_of (b : Bytes) : List (Step Name) :=
  if h0 : b = [] then []
  else if h1 : b = lit "." then [.here]
  else if h2 : b = lit ".." then [.up]
  else if h : ACE_DIRECTORY_SEPARATOR_CHAR ∉ b ∧ NUL ∉ b then [.name ⟨b, h0, h1, h2, h.1, h.2⟩]
  else []

/-- The steps of a path, of whose first name `beg` has been read. -/
def steps_from (beg : Bytes) : Bytes → List (Step Name)
  | [] => step_of beg
  | c :: path =>
      if c = ACE_DIRECTORY_SEPARATOR_CHAR then step_of beg ++ steps_from [] path
      else steps_from (beg ++ [c]) path

/-- The steps of a path. -/
def steps (path : Bytes) : List (Step Name) := steps_from [] (c_str path)

/-- The path of a directory, without a link, `.` or `..`. -/
def canonical (q : List Name) : Bytes :=
  if q = [] then [ACE_DIRECTORY_SEPARATOR_CHAR]
  else q.flatMap fun n => ACE_DIRECTORY_SEPARATOR_CHAR :: n.bytes

theorem step_of_name (n : Name) : step_of n.bytes = [.name n] := by
  rw [step_of, dif_neg n.ne_nil, dif_neg n.ne_dot, dif_neg n.ne_dots,
    dif_pos ⟨n.no_separator, n.no_nul⟩]

theorem steps_from_free {b : Bytes} (h : ACE_DIRECTORY_SEPARATOR_CHAR ∉ b) (path : Bytes) :
    ∀ beg, steps_from beg (b ++ path) = steps_from (beg ++ b) path := by
  induction b with
  | nil =>
      intro beg
      rw [List.append_nil]
      rfl
  | cons c b ih =>
      intro beg
      rw [List.mem_cons, not_or] at h
      rw [List.cons_append, steps_from, if_neg (Ne.symm h.1), ih h.2, List.append_assoc]
      rfl

theorem steps_from_concat_separator (path : Bytes) :
    ∀ beg, steps_from beg (path ++ [ACE_DIRECTORY_SEPARATOR_CHAR]) = steps_from beg path := by
  induction path with
  | nil =>
      intro beg
      rw [List.nil_append, steps_from, steps_from, if_pos rfl]
      exact List.append_nil _
  | cons c path ih =>
      intro beg
      rw [List.cons_append, steps_from, steps_from, ih, ih]

theorem steps_from_canonical (q : List Name) :
    ∀ beg, steps_from beg (q.flatMap fun n => ACE_DIRECTORY_SEPARATOR_CHAR :: n.bytes)
      = step_of beg ++ q.map Step.name := by
  induction q with
  | nil =>
      intro beg
      exact (List.append_nil _).symm
  | cons n q ih =>
      intro beg
      rw [List.flatMap_cons, List.cons_append, steps_from, if_pos rfl,
        steps_from_free n.no_separator, List.nil_append, ih, step_of_name, List.map_cons]
      rfl

theorem canonical_no_nul (q : List Name) : NUL ∉ canonical q := by
  unfold canonical
  split_ifs
  · decide
  · intro hmem
    obtain ⟨n, -, hn⟩ := List.mem_flatMap.mp hmem
    rcases List.mem_cons.mp hn with h | h
    · exact absurd h (by decide)
    · exact n.no_nul h

/-- The path of a directory leads from the root. -/
theorem canonical_head (q : List Name) :
    (canonical q).head? = some ACE_DIRECTORY_SEPARATOR_CHAR := by
  cases q with
  | nil => rfl
  | cons n q =>
      rw [canonical, if_neg (List.cons_ne_nil n q)]
      rfl

theorem steps_canonical (q : List Name) : steps (canonical q) = q.map Step.name := by
  rw [steps, c_str_of_no_nul (canonical_no_nul q), canonical]
  split_ifs with h
  · rw [h]
    rfl
  · exact steps_from_canonical q []

/-! ## §2. The file system. -/

/-- The directories, and the one a relative path leads from. -/
structure File_System where
  tree : Directories Name
  cwd : List Name
  cwd_dir : tree.dir cwd = true

namespace File_System

variable (fs : File_System)

/-- Where a path leads from. -/
def start (path : Bytes) : List Name :=
  if (c_str path).head? = some ACE_DIRECTORY_SEPARATOR_CHAR then [] else fs.cwd

/-- The directory a path leads to; the empty path leads nowhere. -/
def resolve (path : Bytes) : Option (List Name) :=
  if c_str path = [] then none else fs.tree.resolve (fs.start path) (steps path)

/-- `path_exists(path)`: everything there is, is a directory. -/
def path_exists (path : Bytes) : Int := if (fs.resolve path).isSome then 2 else 0

/-- `ACE_OS::realpath(path, ...)`, a null pointer where the path leads nowhere. -/
def realpath (path : Bytes) : Option Bytes := (fs.resolve path).map canonical

/-- `ACE_OS::mkdir(path, mode)` -/
def mkdir (path : Bytes) : Int × File_System :=
  match h : fs.tree.make (fs.start path) (steps path) with
  | some tree => (0, ⟨tree, fs.cwd, fs.tree.make_mono h fs.cwd_dir⟩)
  | none => (-1, fs)

theorem dir_start (path : Bytes) : fs.tree.dir (fs.start path) = true := by
  unfold start
  split_ifs
  · exact fs.tree.root
  · exact fs.cwd_dir

theorem mkdir_some {path : Bytes} {tree : Directories Name}
    (h : fs.tree.make (fs.start path) (steps path) = some tree) :
    ∃ fs' : File_System, fs.mkdir path = (0, fs') ∧ fs'.tree = tree ∧ fs'.cwd = fs.cwd := by
  unfold mkdir
  split
  · next t ht =>
      obtain rfl := Option.some.inj (h.symm.trans ht)
      exact ⟨_, rfl, rfl, rfl⟩
  · next hnone => exact absurd (h.symm.trans hnone) (by simp)

theorem mkdir_none {path : Bytes} (h : fs.tree.make (fs.start path) (steps path) = none) :
    fs.mkdir path = (-1, fs) := by
  unfold mkdir
  split
  · next t ht => exact absurd (h.symm.trans ht) (by simp)
  · rfl

/-- The path `realpath` returns exists. -/
theorem path_exists_realpath {path real : Bytes} (h : fs.realpath path = some real) :
    fs.path_exists real = 2 := by
  obtain ⟨q, hq, rfl⟩ := Option.map_eq_some_iff.mp h
  have hdir : fs.tree.dir q = true := by
    unfold resolve at hq
    split_ifs at hq
    exact fs.tree.dir_resolve (fs.dir_start path) hq
  have hhead := canonical_head q
  have htext : c_str (canonical q) = canonical q := c_str_of_no_nul (canonical_no_nul q)
  have hne : canonical q ≠ [] := fun hnil => by rw [hnil] at hhead; cases hhead
  rw [path_exists, resolve, htext, if_neg hne, start, htext, if_pos hhead, steps_canonical,
    fs.tree.resolve_names hdir]
  exact if_pos rfl

end File_System

/-! ## §3. The function. -/

/-- The loop over the pieces, `dir` being those up to number `i` with a separator between them; a
    string from a null pointer is undefined, and there is no result. -/
def mkdir_loop (mstr : Multi_String) (fs : File_System) (i : Nat) (dir : Bytes) :
    Option (Int × File_System) :=
  if i < mstr.count then
    (mstr.at_ i).bind fun mem =>
      if i ≠ 0 then
        -- paths except root
        let dir := dir ++ [ACE_DIRECTORY_SEPARATOR_CHAR] ++ c_str mem
        if fs.path_exists dir ≠ 2 then
          if (fs.mkdir dir).1 ≠ 0 then some (-1, (fs.mkdir dir).2)
          else mkdir_loop mstr (fs.mkdir dir).2 (i + 1) dir
        else mkdir_loop mstr fs (i + 1) dir
      else
        let dir := dir ++ c_str mem
        let root :=
          if dir ≠ lit "." ∧ dir ≠ lit ".." then dir ++ [ACE_DIRECTORY_SEPARATOR_CHAR] else dir
        (fs.realpath root).bind fun root =>
          if fs.path_exists root ≠ 2 then
            if (fs.mkdir root).1 ≠ 0 then some (-1, (fs.mkdir root).2)
            else mkdir_loop mstr (fs.mkdir root).2 (i + 1) dir
          else mkdir_loop mstr fs (i + 1) dir
  else some (0, fs)
termination_by mstr.count - i
decreasing_by all_goals omega

/-- The pieces of a path; one that begins with a separator gets an empty one in front. -/
def mkdir_pieces (path : Bytes) : Option Multi_String :=
  (Multi_String.new.explode_str (lit "/\\") path 0 (-1)).bind fun mstr =>
    if (c_str path).head? = some 0x2F ∨ (c_str path).head? = some 0x5C then mstr.insert 0 []
    else some mstr

/-- `mkdir(path, recursive, mode)` -/
def mkdir (fs : File_System) (path : Bytes) (recursive : Bool) : Option (Int × File_System) :=
  if ¬ recursive then some (fs.mkdir path)
  else (mkdir_pieces path).bind fun mstr => mkdir_loop mstr fs 0 []

/-! ## §4. Paths with one separator. -/

/-- A path whose names are kept apart by `/`: none of them begins with the other character that
    the code takes for a separator. -/
structure Path where
  text : Bytes
  no_nul : NUL ∉ text
  /-- It lies in memory. -/
  room : text.length + 1 < 2 ^ 64
  head : text.head? ≠ some 0x5C
  names : ¬ lit "/\\" <:+: text

variable (fs : File_System) (path : Path)

/-- The empty piece in front of the only one. -/
theorem insert_empty {text : Bytes} (h : text.length + 1 < 2 ^ 64) :
    (packed [text]).insert 0 [] = some (packed [[], text]) := by
  have hcap : (packed [text]).capacity 0 = text.length + 1 := by
    have hlen : (packed [text]).strs_.length = text.length + 1 := by
      show (text ++ [NUL]).length = text.length + 1
      rw [List.length_append, List.length_singleton]
    show size_add (packed [text]).strs_.length (-(0 : Nat)) = text.length + 1
    rw [hlen]
    exact size_add_eq (by omega) h
  unfold Multi_String.insert
  rw [if_pos (by rw [hcap]; omega)]
  rfl

/-- **The pieces of a path**: it is not taken apart. -/
theorem pieces_of_path :
    mkdir_pieces path.text = some (packed
      (if path.text.head? = some ACE_DIRECTORY_SEPARATOR_CHAR then [[], path.text]
        else [path.text])) := by
  have hsep : c_str (lit "/\\") = lit "/\\" := by decide
  have hadd : int_add 0 (-1) = some (0 + -1) := int_add_eq_some (by decide) (by decide)
  have hwhole : pieces (lit "/\\") path.text = [path.text] :=
    pieces_none (occurrence_none_iff_absent.mpr path.names)
  rw [mkdir_pieces, explode_str_kept hadd _ (by rw [hsep]; decide), hsep,
    c_str_of_no_nul path.no_nul, hwhole]
  show (if _ then _ else _) = _
  split_ifs with h habs habs
  · exact insert_empty path.room
  · exact absurd h (not_or.mpr ⟨habs, path.head⟩)
  · exact absurd (Or.inl habs) h
  · rfl

/-- What the loop does at the piece to begin with. -/
theorem mkdir_loop_zero {mstr : Multi_String} {mem : Bytes} (hmem : mstr.at_ 0 = some mem)
    (h0 : 0 < mstr.count) :
    mkdir_loop mstr fs 0 []
      = (fs.realpath
          (if c_str mem ≠ lit "." ∧ c_str mem ≠ lit ".." then
            c_str mem ++ [ACE_DIRECTORY_SEPARATOR_CHAR] else c_str mem)).bind fun _ =>
          mkdir_loop mstr fs 1 (c_str mem) := by
  rw [mkdir_loop, if_pos h0, hmem]
  show (fs.realpath _).bind _ = _
  cases hreal : fs.realpath
      (if c_str mem ≠ lit "." ∧ c_str mem ≠ lit ".." then
        c_str mem ++ [ACE_DIRECTORY_SEPARATOR_CHAR] else c_str mem) with
  | none =>
      rw [List.nil_append, hreal]
      rfl
  | some real =>
      rw [List.nil_append, hreal]
      show (if fs.path_exists real ≠ 2 then _ else _) = _
      rw [if_neg (not_not.mpr (fs.path_exists_realpath hreal))]
      rfl

/-- What it does at a later one. -/
theorem mkdir_loop_succ {mstr : Multi_String} {i : Nat} {mem : Bytes}
    (hmem : mstr.at_ (i + 1) = some mem) (hi : i + 1 < mstr.count) (pre : Bytes) {dir : Bytes}
    (hdir : pre ++ [ACE_DIRECTORY_SEPARATOR_CHAR] ++ c_str mem = dir) :
    mkdir_loop mstr fs (i + 1) pre
      = if fs.path_exists dir ≠ 2 then
          if (fs.mkdir dir).1 ≠ 0 then some (-1, (fs.mkdir dir).2)
          else mkdir_loop mstr (fs.mkdir dir).2 (i + 2) dir
        else mkdir_loop mstr fs (i + 2) dir := by
  rw [mkdir_loop, if_pos hi, hmem, Option.bind_some, if_pos (Nat.succ_ne_zero i)]
  dsimp only
  rw [hdir]

theorem mkdir_loop_end {mstr : Multi_String} {i : Nat} (h : mstr.count ≤ i) (dir : Bytes) :
    mkdir_loop mstr fs i dir = some (0, fs) := by
  rw [mkdir_loop]
  exact if_neg (Nat.not_lt.mpr h)

/-- A piece of a path. -/
theorem packed_at {L : List Bytes} {i : Nat} (hi : i < L.length) (hnul : NUL ∉ L[i]) :
    ∃ mem, (packed L).at_ i = some mem ∧ c_str mem = L[i] := by
  obtain ⟨tail, htail⟩ := (represents_packed L).at_ i hi
  exact ⟨_, htail, c_str_before_nul hnul tail⟩

/-- The directory to begin in is there where the first piece is a path to one. -/
theorem resolve_root {text : Bytes} (hnul : NUL ∉ text) :
    (fs.resolve (if text ≠ lit "." ∧ text ≠ lit ".." then
        text ++ [ACE_DIRECTORY_SEPARATOR_CHAR] else text)).isSome
      = (fs.tree.resolve (fs.start text) (steps text)).isSome := by
  have htext : c_str text = text := c_str_of_no_nul hnul
  by_cases hdots : text ≠ lit "." ∧ text ≠ lit ".."
  · have hroot : c_str (text ++ [ACE_DIRECTORY_SEPARATOR_CHAR])
        = text ++ [ACE_DIRECTORY_SEPARATOR_CHAR] := by
      refine c_str_of_no_nul fun hmem => ?_
      rcases List.mem_append.mp hmem with h | h
      · exact hnul h
      · exact absurd h (by decide)
    rw [if_pos hdots, File_System.resolve, hroot,
      if_neg (List.append_ne_nil_of_right_ne_nil _ (List.cons_ne_nil _ _)), steps, hroot,
      steps_from_concat_separator, steps, htext, File_System.start, hroot, File_System.start, htext]
    cases text with
    | nil => rfl
    | cons c text => rfl
  · have hne : text ≠ [] := by
      rintro rfl
      exact hdots (by decide)
    rw [if_neg hdots, File_System.resolve, htext, if_neg hne]

/-- A relative path is only looked up. -/
theorem mkdir_relative (h : path.text.head? ≠ some ACE_DIRECTORY_SEPARATOR_CHAR) :
    mkdir fs path.text true
      = if (fs.tree.resolve (fs.start path.text) (steps path.text)).isSome then some (0, fs)
        else none := by
  obtain ⟨mem, hat, hmem⟩ := packed_at (L := [path.text]) (i := 0) Nat.one_pos path.no_nul
  have hend : mkdir_loop (packed [path.text]) fs 1 path.text = some (0, fs) :=
    mkdir_loop_end fs le_rfl _
  rw [List.getElem_cons_zero] at hmem
  rw [mkdir, if_neg (not_not.mpr rfl), pieces_of_path, if_neg h, Option.bind_some,
    mkdir_loop_zero fs hat Nat.one_pos, hmem, hend, ← resolve_root fs path.no_nul,
    File_System.realpath]
  cases fs.resolve (if path.text ≠ lit "." ∧ path.text ≠ lit ".." then
      path.text ++ [ACE_DIRECTORY_SEPARATOR_CHAR] else path.text) with
  | none => rfl
  | some q => rfl

/-- One more separator in front of an absolute path changes nothing. -/
theorem steps_separator {text : Bytes} :
    steps (ACE_DIRECTORY_SEPARATOR_CHAR :: text) = steps text := by
  rw [steps, c_str_cons (by decide), steps_from, if_pos rfl]
  rfl

theorem start_separator (text : Bytes) :
    fs.start (ACE_DIRECTORY_SEPARATOR_CHAR :: text) = [] := by
  rw [File_System.start, c_str_cons (by decide)]
  exact if_pos rfl

theorem path_exists_separator (text : Bytes) :
    fs.path_exists (ACE_DIRECTORY_SEPARATOR_CHAR :: text)
      = if (fs.tree.resolve [] (steps text)).isSome then 2 else 0 := by
  rw [File_System.path_exists, File_System.resolve, start_separator, steps_separator,
    c_str_cons (by decide), if_neg (List.cons_ne_nil _ _)]

theorem mkdir_loop_made {mstr : Multi_String} {i : Nat} (hend : mstr.count ≤ i) (dir : Bytes) :
    (if (fs.mkdir dir).1 ≠ 0 then some (-1, (fs.mkdir dir).2)
      else mkdir_loop mstr (fs.mkdir dir).2 i dir) = some (fs.mkdir dir) := by
  rw [mkdir_loop_end _ hend]
  cases hmake : fs.tree.make (fs.start dir) (steps dir) with
  | none =>
      have hfails : (-1 : Int) ≠ 0 := by decide
      rw [fs.mkdir_none hmake, if_pos hfails]
  | some tree =>
      obtain ⟨fs', hmkdir, -, -⟩ := fs.mkdir_some hmake
      rw [hmkdir, if_neg (not_not.mpr rfl)]

/-- Of an absolute path the end is made, in one call. -/
theorem mkdir_absolute (h : path.text.head? = some ACE_DIRECTORY_SEPARATOR_CHAR) :
    mkdir fs path.text true
      = if (fs.tree.resolve [] (steps path.text)).isSome then some (0, fs)
        else some (fs.mkdir (ACE_DIRECTORY_SEPARATOR_CHAR :: path.text)) := by
  obtain ⟨mem₀, hat₀, hmem₀⟩ :=
    packed_at (L := [[], path.text]) (i := 0) Nat.two_pos List.not_mem_nil
  obtain ⟨mem₁, hat₁, hmem₁⟩ :=
    packed_at (L := [[], path.text]) (i := 1) Nat.one_lt_two path.no_nul
  rw [List.getElem_cons_zero] at hmem₀
  rw [List.getElem_cons_succ, List.getElem_cons_zero] at hmem₁
  have hdir : [] ++ [ACE_DIRECTORY_SEPARATOR_CHAR] ++ c_str mem₁
      = ACE_DIRECTORY_SEPARATOR_CHAR :: path.text := by
    rw [hmem₁]
    rfl
  have hroot : fs.realpath [ACE_DIRECTORY_SEPARATOR_CHAR] = some [ACE_DIRECTORY_SEPARATOR_CHAR] :=
    rfl
  have hcount : (packed [[], path.text]).count ≤ 0 + 2 := le_rfl
  rw [mkdir, if_neg (not_not.mpr rfl), pieces_of_path, if_pos h, Option.bind_some,
    mkdir_loop_zero fs hat₀ Nat.two_pos, hmem₀, if_pos (by decide), List.nil_append, hroot,
    Option.bind_some, mkdir_loop_succ fs hat₁ Nat.one_lt_two [] hdir, mkdir_loop_made fs hcount,
    mkdir_loop_end fs hcount, path_exists_separator]
  split_ifs with hthere hno hno
  · exact absurd rfl hno
  · rfl
  · rfl
  · exact absurd (by decide) hno

/-! ## §5. What it is for. -/

/-- The path is made: 0 is returned, the path and all the directories on it are there, and
    nothing else is new. -/
def File_System.Created : Prop :=
  ∃ fs' : File_System, Aos.mkdir fs path.text true = some (0, fs') ∧ fs'.cwd = fs.cwd ∧
    fs.tree.Made fs'.tree (fs.start path.text) (steps path.text)

theorem created_relative (h : path.text.head? ≠ some ACE_DIRECTORY_SEPARATOR_CHAR) :
    fs.Created path ↔ (fs.tree.resolve (fs.start path.text) (steps path.text)).isSome := by
  rw [File_System.Created, mkdir_relative fs path h]
  split_ifs with hthere
  · exact iff_of_true ⟨fs, rfl, rfl, fs.tree.made_self (fs.dir_start _) hthere⟩ hthere
  · refine iff_of_false ?_ hthere
    rintro ⟨fs', hrun, -⟩
    cases hrun

theorem start_absolute (h : path.text.head? = some ACE_DIRECTORY_SEPARATOR_CHAR) :
    fs.start path.text = [] := by
  rw [File_System.start, c_str_of_no_nul path.no_nul]
  exact if_pos h

theorem created_absolute (h : path.text.head? = some ACE_DIRECTORY_SEPARATOR_CHAR) :
    fs.Created path ↔ (fs.tree.resolve [] (steps path.text)).isSome ∨
      (fs.tree.resolve [] (steps path.text).dropLast).isSome := by
  rw [File_System.Created, start_absolute fs path h, mkdir_absolute fs path h]
  by_cases hthere : (fs.tree.resolve [] (steps path.text)).isSome
  · rw [if_pos hthere]
    exact iff_of_true ⟨fs, rfl, rfl, fs.tree.made_self fs.tree.root hthere⟩ (Or.inl hthere)
  · have hnew := Option.not_isSome_iff_eq_none.mp hthere
    have hend : fs.tree.make (fs.start (ACE_DIRECTORY_SEPARATOR_CHAR :: path.text))
        (steps (ACE_DIRECTORY_SEPARATOR_CHAR :: path.text))
          = fs.tree.make [] (steps path.text) := by
      rw [start_separator, steps_separator]
    rw [if_neg hthere, or_iff_right hthere]
    constructor
    · rintro ⟨fs', hrun, -, -⟩
      by_contra hparent
      -- `ACE_OS::mkdir` fails where there is no directory for the new one to lie in
      have hnone := fs.tree.make_none (Option.not_isSome_iff_eq_none.mp hparent)
      rw [fs.mkdir_none (hend.trans hnone)] at hrun
      cases hrun
    · intro hparent
      obtain ⟨tree, hmake, hmade⟩ := fs.tree.made_make fs.tree.root hnew hparent
      obtain ⟨fs', hmkdir, rfl, hcwd⟩ := fs.mkdir_some (hend.trans hmake)
      exact ⟨fs', congrArg some hmkdir, hcwd, hmade⟩

/-- **A path is made** exactly where it is there already, or begins at the root and only its end
    is missing. -/
theorem mkdir_recursive_iff :
    fs.Created path ↔
      (fs.tree.resolve (fs.start path.text) (steps path.text)).isSome ∨
        path.text.head? = some ACE_DIRECTORY_SEPARATOR_CHAR ∧
          (fs.tree.resolve [] (steps path.text).dropLast).isSome := by
  by_cases h : path.text.head? = some ACE_DIRECTORY_SEPARATOR_CHAR
  · rw [created_absolute fs path h, start_absolute fs path h, and_iff_right h]
  · rw [created_relative fs path h, or_iff_left fun habs => h habs.1]

/-- Nothing but the root. -/
def root_only : File_System where
  tree := ⟨fun q => q = [], rfl, fun p n h => absurd h (by simp)⟩
  cwd := []
  cwd_dir := rfl

/-- Two directories to make: the call fails. -/
theorem mkdir_recursive_deep : ¬ ∀ (fs : File_System) (path : Path), fs.Created path := by
  intro h
  have hmade := (created_absolute root_only ⟨lit "/a/b", by decide, by decide, by decide, by decide⟩
    (by decide)).mp (h _ _)
  exact absurd hmade (by decide)

end Aos
