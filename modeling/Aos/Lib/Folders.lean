/-
  Aos.Lib.Folders — a tree of directories, and the paths that lead through it.

  A directory is the list of the names that lead to it from the root, and the
  directory it lies in is there as well.  A step of a path is a name, the
  directory itself or the one above; every step has to end in a directory.

  Main results:
    • `resolve_concat`  — one more step;
    • `resolve_prefix`  — where a path leads somewhere, so do its beginnings;
    • `resolve_mono`    — more directories do not mislead a path;
    • `resolve_names`   — the names of a directory are a path to it;
    • `make_some`       — a directory is made where the one it is to lie in is there;
    • `made_self`, `made_make` — a path that is there, and one of which only the end
      was not.
-/
import Mathlib.Tactic

namespace Lib.Folders

variable {N : Type}

/-- The directories there are. -/
structure Directories (N : Type) where
  dir : List N → Bool
  root : dir [] = true
  parent : ∀ p n, dir (p ++ [n]) = true → dir p = true

/-- A step of a path. -/
inductive Step (N : Type)
  | name (n : N)
  | here
  | up
  deriving DecidableEq

/-- Where a step leads; nothing is above the root. -/
def Step.next (p : List N) : Step N → List N
  | .name n => p ++ [n]
  | .here => p
  | .up => p.dropLast

namespace Directories

variable (t : Directories N)

theorem dir_dropLast {p : List N} (h : t.dir p = true) : t.dir p.dropLast = true := by
  rcases List.eq_nil_or_concat p with rfl | ⟨q, n, rfl⟩
  · exact h
  · rw [List.concat_eq_append] at h ⊢
    rw [List.dropLast_concat]
    exact t.parent q n h

/-- The directory a path leads to. -/
def resolve (p : List N) : List (Step N) → Option (List N)
  | [] => some p
  | s :: steps => if t.dir (s.next p) then resolve (s.next p) steps else none

theorem resolve_append (steps rest : List (Step N)) :
    ∀ p, t.resolve p (steps ++ rest) = (t.resolve p steps).bind fun q => t.resolve q rest := by
  induction steps with
  | nil => intro p; rfl
  | cons s steps ih =>
      intro p
      rw [List.cons_append, resolve, resolve]
      split
      · exact ih _
      · rfl

/-- **One more step.** -/
theorem resolve_concat (p : List N) (steps : List (Step N)) (s : Step N) :
    t.resolve p (steps ++ [s])
      = (t.resolve p steps).bind fun q => if t.dir (s.next q) then some (s.next q) else none := by
  rw [resolve_append]
  rfl

/-- A path from a directory leads to a directory. -/
theorem dir_resolve {steps : List (Step N)} :
    ∀ {p q : List N}, t.dir p = true → t.resolve p steps = some q → t.dir q = true := by
  induction steps with
  | nil =>
      intro p q hp h
      obtain rfl := Option.some.inj h
      exact hp
  | cons s steps ih =>
      intro p q hp h
      rw [resolve] at h
      split at h
      · next hnext => exact ih hnext h
      · cases h

/-- **The beginnings of a path lead somewhere.** -/
theorem resolve_prefix {pre steps : List (Step N)} (hpre : pre <+: steps) {p : List N}
    (h : (t.resolve p steps).isSome) : (t.resolve p pre).isSome := by
  obtain ⟨rest, rfl⟩ := hpre
  rw [resolve_append] at h
  exact Option.isSome_of_isSome_bind h

/-- **More directories do not mislead.** -/
theorem resolve_mono {t t' : Directories N} (hmore : ∀ q, t.dir q = true → t'.dir q = true)
    {steps : List (Step N)} :
    ∀ {p q : List N}, t.resolve p steps = some q → t'.resolve p steps = some q := by
  induction steps with
  | nil => intro p q h; exact h
  | cons s steps ih =>
      intro p q h
      rw [resolve] at h ⊢
      split at h
      · next hnext =>
          rw [if_pos (hmore _ hnext)]
          exact ih h
      · cases h

/-- The names that lead to a directory are a path to it. -/
theorem resolve_names {q : List N} (h : t.dir q = true) :
    t.resolve [] (q.map Step.name) = some q := by
  induction q using List.reverseRecOn with
  | nil => rfl
  | append_singleton q n ih =>
      rw [List.map_append, List.map_singleton, resolve_concat, ih (t.parent q n h), Option.bind_some]
      exact if_pos h

/-- What making a path with all the directories on it leaves: the path and its beginnings lead
    to directories, and there are no other new ones. -/
def Made (t t' : Directories N) (p : List N) (steps : List (Step N)) : Prop :=
  (∀ pre, pre <+: steps → (t'.resolve p pre).isSome) ∧
    ∀ x, t'.dir x = true ↔
      t.dir x = true ∨ ∃ pre, pre <+: steps ∧ t'.resolve p pre = some x

/-- There is nothing to make on a path that is there. -/
theorem made_self {p : List N} (hp : t.dir p = true) {steps : List (Step N)}
    (h : (t.resolve p steps).isSome) : t.Made t p steps := by
  refine ⟨fun pre hpre => t.resolve_prefix hpre h, fun x => ⟨Or.inl, ?_⟩⟩
  rintro (hx | ⟨pre, -, hpre⟩)
  · exact hx
  · exact t.dir_resolve hp hpre

variable [DecidableEq N]

/-- A new directory in an old one. -/
def add (p : List N) (n : N) (hp : t.dir p = true) : Directories N where
  dir q := q = p ++ [n] ∨ t.dir q = true
  root := decide_eq_true (Or.inr t.root)
  parent q m h := by
    rcases of_decide_eq_true h with heq | hold
    · rw [(List.append_inj' heq rfl).1]
      exact decide_eq_true (Or.inr hp)
    · exact decide_eq_true (Or.inr (t.parent q m hold))

theorem dir_add {p : List N} {n : N} (hp : t.dir p = true) (q : List N) :
    (t.add p n hp).dir q = true ↔ q = p ++ [n] ∨ t.dir q = true := decide_eq_true_iff

/-- Make a directory at the end of a path: the one it is to lie in must be there, and it must
    not be there itself. -/
def make (p : List N) (steps : List (Step N)) : Option (Directories N) :=
  match steps.getLast? with
  | none => none
  | some s =>
      match t.resolve p steps.dropLast with
      | none => none
      | some q =>
          match s with
          | .name n =>
              if hq : t.dir q = true ∧ t.dir (q ++ [n]) = false then some (t.add q n hq.1) else none
          | _ => none

theorem make_none {p : List N} {steps : List (Step N)} (h : t.resolve p steps.dropLast = none) :
    t.make p steps = none := by
  unfold make
  rw [h]
  cases steps.getLast? <;> rfl

/-- **A directory is made** at the end of a path that leads nowhere yet, where the one it is to
    lie in is there. -/
theorem make_some {p : List N} (hp : t.dir p = true) {steps : List (Step N)}
    (hnew : t.resolve p steps = none) (h : (t.resolve p steps.dropLast).isSome) :
    ∃ t' q, t.make p steps = some t' ∧ t'.resolve p steps = some q ∧
      ∀ x, t'.dir x = true ↔ x = q ∨ t.dir x = true := by
  rcases List.eq_nil_or_concat steps with rfl | ⟨init, s, rfl⟩
  · exact absurd hnew (by simp [resolve])
  · rw [List.concat_eq_append] at hnew h ⊢
    rw [List.dropLast_concat] at h
    obtain ⟨q, hq⟩ := Option.isSome_iff_exists.mp h
    have hdir := t.dir_resolve hp hq
    have hlast : t.dir (s.next q) = false := by
      rw [resolve_concat, hq, Option.bind_some] at hnew
      by_contra hthere
      rw [if_pos (by simpa using hthere)] at hnew
      cases hnew
    cases s with
    | here => exact absurd (hdir.symm.trans hlast) (by decide)
    | up => exact absurd ((t.dir_dropLast hdir).symm.trans hlast) (by decide)
    | name n =>
        refine ⟨t.add q n hdir, q ++ [n], ?_, ?_, t.dir_add hdir⟩
        · unfold make
          rw [List.getLast?_concat, List.dropLast_concat, hq]
          exact dif_pos ⟨hdir, hlast⟩
        · have hmore : ∀ x, t.dir x = true → (t.add q n hdir).dir x = true :=
            fun x hx => (t.dir_add hdir x).mpr (Or.inr hx)
          rw [resolve_concat, resolve_mono hmore hq, Option.bind_some]
          exact if_pos ((t.dir_add hdir _).mpr (Or.inl rfl))

/-- No directory goes. -/
theorem make_mono {p : List N} {steps : List (Step N)} {t' : Directories N}
    (h : t.make p steps = some t') {x : List N} (hx : t.dir x = true) : t'.dir x = true := by
  unfold make at h
  split at h
  · cases h
  · split at h
    · cases h
    · split at h
      · split at h
        · next q _ n hq =>
            obtain rfl := Option.some.inj h
            exact (t.dir_add hq.1 x).mpr (Or.inr hx)
        · cases h
      · cases h

/-- Where only the end of the path was missing, `make` makes it. -/
theorem made_make {p : List N} (hp : t.dir p = true) {steps : List (Step N)}
    (hnew : t.resolve p steps = none) (h : (t.resolve p steps.dropLast).isSome) :
    ∃ t', t.make p steps = some t' ∧ t.Made t' p steps := by
  obtain ⟨t', q, hmake, hq, hdir⟩ := t.make_some hp hnew h
  have hmore : ∀ x, t.dir x = true → t'.dir x = true := fun x hx => (hdir x).mpr (Or.inr hx)
  have hpath : (t'.resolve p steps).isSome := Option.isSome_of_eq_some hq
  refine ⟨t', hmake, fun pre hpre => t'.resolve_prefix hpre hpath, fun x => ?_⟩
  constructor
  · intro hx
    rcases (hdir x).mp hx with rfl | hold
    · exact Or.inr ⟨steps, List.prefix_rfl, hq⟩
    · exact Or.inl hold
  · rintro (hold | ⟨pre, -, hpre⟩)
    · exact hmore x hold
    · exact t'.dir_resolve (hmore p hp) hpre

end Directories

end Lib.Folders
