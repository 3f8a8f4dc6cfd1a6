/-
  Aos.Lib.Directory — a directory, and what some of its files come to.

  An entry gives a file a name; no two entries of a directory have the same
  one.  A file can have several names, and it stays as long as somebody holds
  it open when its last name is gone.

  Main results:
    • `listing_unlink` — one name less is one file less in the listing;
    • `total_append` — what is written to a file counts once for each of its
      listed names;
    • `total_create` — a new file changes nothing.
-/
import Mathlib.Tactic

namespace Lib.Directory

variable {N : Type}

structure Entry (N : Type) where
  name : N
  /-- the file of that name -/
  ino : Nat
  /-- it is a regular file, and not a directory or a link or the like -/
  regular : Bool
  deriving Repr, DecidableEq

structure Disk (N : Type) where
  /-- the entries of the directory, in the order they are read in -/
  dir : List (Entry N)
  /-- the bytes of a file -/
  size : Nat → Nat
  names : (dir.map Entry.name).Nodup

namespace Disk

/-! ## §1. Operations. -/

variable [DecidableEq N]

def find (d : Disk N) (name : N) : Option (Entry N) := d.dir.find? fun e => e.name = name

/-- A file no entry gives a name to. -/
def fresh (d : Disk N) : Nat := (d.dir.map Entry.ino).foldr max 0 + 1

/-- A new empty file. -/
def create (d : Disk N) (name : N) (h : d.find name = none) : Disk N where
  dir := d.dir ++ [⟨name, d.fresh, true⟩]
  size := Function.update d.size d.fresh 0
  names := by
    rw [List.map_append, List.nodup_append]
    refine ⟨d.names, List.nodup_singleton _, ?_⟩
    intro a ha b hb hab
    obtain ⟨e, he, rfl⟩ := List.mem_map.mp ha
    have hnot := List.find?_eq_none.mp h e he
    obtain rfl : b = name := by simpa using hb
    exact hnot (by simpa using hab)

/-- The name is taken out of the directory. -/
def unlink (d : Disk N) (name : N) : Disk N where
  dir := d.dir.filter fun e => e.name ≠ name
  size := d.size
  names := d.names.sublist (List.filter_sublist.map _)

/-- Bytes are written behind the end of a file. -/
def append (d : Disk N) (ino n : Nat) : Disk N where
  dir := d.dir
  size := Function.update d.size ino (d.size ino + n)
  names := d.names

/-! ## §2. Some of the files. -/

variable (listed : Entry N → Bool)

/-- Names and sizes of the listed files. -/
def listing (d : Disk N) : List (N × Nat) :=
  (d.dir.filter listed).map fun e => (e.name, d.size e.ino)

/-- The bytes of all of them. -/
def total (d : Disk N) : Nat := ((d.listing listed).map Prod.snd).sum

/-- How many names the file has among them. -/
def links (d : Disk N) (ino : Nat) : Nat := (d.dir.filter listed).countP fun e => e.ino = ino

/-- **One name less is one file less.** -/
theorem listing_unlink (d : Disk N) {name : N} {n : Nat} (h : (name, n) ∈ d.listing listed) :
    (d.listing listed).Perm ((name, n) :: (d.unlink name).listing listed) := by
  obtain ⟨e, he, heq⟩ := List.mem_map.mp h
  obtain ⟨rfl, rfl⟩ := Prod.mk.inj heq
  obtain ⟨before, after, hsplit⟩ := List.append_of_mem he
  -- no other listed file has that name
  have hother : ∀ e' ∈ before ++ after, e'.name ≠ e.name := by
    have hnames : ((d.dir.filter listed).map Entry.name).Nodup :=
      d.names.sublist (List.filter_sublist.map _)
    have hperm : (before ++ e :: after).Perm (e :: (before ++ after)) := List.perm_middle
    rw [hsplit, (hperm.map Entry.name).nodup_iff, List.map_cons, List.nodup_cons] at hnames
    intro e' he' hname
    exact hnames.1 (hname ▸ List.mem_map_of_mem he')
  have hrest : (d.unlink e.name).dir.filter listed = before ++ after := by
    unfold unlink
    rw [List.filter_comm, hsplit, List.filter_append, List.filter_cons_of_neg (by simp),
      ← List.filter_append, List.filter_eq_self]
    intro e' he'
    exact decide_eq_true (hother e' he')
  unfold listing
  rw [hrest, hsplit, List.map_append, List.map_append, List.map_cons]
  exact List.perm_middle

theorem total_unlink (d : Disk N) {name : N} {n : Nat} (h : (name, n) ∈ d.listing listed) :
    d.total listed = n + (d.unlink name).total listed := by
  unfold total
  rw [((d.listing_unlink listed h).map Prod.snd).sum_eq, List.map_cons, List.sum_cons]

omit [DecidableEq N] in
theorem sum_update (entries : List (Entry N)) (size : Nat → Nat) (ino n : Nat) :
    (entries.map fun e => Function.update size ino (size ino + n) e.ino).sum
      = (entries.map fun e => size e.ino).sum + n * entries.countP fun e => e.ino = ino := by
  induction entries with
  | nil => simp
  | cons e entries ih =>
      rw [List.map_cons, List.map_cons, List.sum_cons, List.sum_cons, List.countP_cons, ih]
      by_cases he : e.ino = ino
      · rw [he, Function.update_self, if_pos (by simp)]
        ring
      · rw [Function.update_of_ne he, if_neg (by simp [he])]
        ring

omit [DecidableEq N] in
/-- **What is written to a file counts for each of its listed names.** -/
theorem total_append (d : Disk N) (ino n : Nat) :
    (d.append ino n).total listed = d.total listed + n * d.links listed ino := by
  unfold total listing links
  rw [List.map_map, List.map_map]
  exact sum_update _ d.size ino n

/-- **A new file is empty**, and no other file is changed. -/
theorem total_create (d : Disk N) (name : N) (h : d.find name = none) :
    (d.create name h).total listed = d.total listed := by
  have hsizes : ∀ e ∈ d.dir, Function.update d.size d.fresh 0 e.ino = d.size e.ino := by
    intro e he
    have hle : ∀ l : List Nat, ∀ n ∈ l, n ≤ l.foldr max 0 := by
      intro l
      induction l with
      | nil => exact fun n hn => absurd hn List.not_mem_nil
      | cons m l ih =>
          intro n hn
          rcases List.mem_cons.mp hn with rfl | hn
          · exact Nat.le_max_left _ _
          · exact (ih n hn).trans (Nat.le_max_right _ _)
    have hino := hle _ _ (List.mem_map_of_mem (f := Entry.ino) he)
    have hne : e.ino ≠ d.fresh := by
      unfold fresh
      omega
    exact Function.update_of_ne hne _ _
  have hold : ((d.dir.filter listed).map fun e => Function.update d.size d.fresh 0 e.ino)
      = (d.dir.filter listed).map fun e => d.size e.ino :=
    List.map_congr_left fun e he => hsizes e (List.mem_filter.mp he).1
  unfold total listing create
  rw [List.map_map, List.map_map, List.filter_append, List.map_append, List.sum_append]
  have hnew : ((([⟨name, d.fresh, true⟩] : List (Entry N)).filter listed).map
      fun e => Function.update d.size d.fresh 0 e.ino).sum = 0 := by
    cases hlisted : listed ⟨name, d.fresh, true⟩ with
    | false => simp [hlisted]
    | true => simp [hlisted]
  show ((d.dir.filter listed).map fun e => Function.update d.size d.fresh 0 e.ino).sum
    + ((([⟨name, d.fresh, true⟩] : List (Entry N)).filter listed).map
      fun e => Function.update d.size d.fresh 0 e.ino).sum = _
  rw [hold, hnew]
  rfl

omit [DecidableEq N] in
/-- Two writes to a file are one. -/
theorem append_append (d : Disk N) (ino n n' : Nat) :
    (d.append ino n).append ino n' = d.append ino (n + n') := by
  unfold append
  simp only [Function.update_self, Function.update_idem, Nat.add_assoc]

end Disk

end Lib.Directory
