/-
  Aos.Lib.Links — directories with files, directories and links in them.

  A directory is a number, and has a listing for as long as it is there.  A link
  leads to a directory, or not; it says nothing of whether the directory is still
  there.  A path is a list of names that begins at some directory, and goes through
  at most so many links.

  Main results:
    • `below_siblings` — what is below two entries of a directory is apart;
    • `Sound.erase`, `Sound.drop` — an entry is taken out of a directory, or a directory
      that is empty;
    • `walk_concat` — one more name on a path.
-/
import Mathlib.Tactic

namespace Lib.Links

inductive Node
  /-- a file, or what is none of the others -/
  | file
  /-- a link, and the directory that it leads to -/
  | link (target : Option Nat)
  | dir (d : Nat)
  deriving DecidableEq

variable {N : Type}

abbrev Listing (N : Type) := List (N × Node)

/-- The directories there are. -/
abbrev Dirs (N : Type) := Nat → Option (Listing N)

/-! ## §1. What is below a directory. -/

/-- The directory `d` has this entry. -/
def Has (m : Dirs N) (d : Nat) (n : N) (x : Node) : Prop := ∃ l, m d = some l ∧ (n, x) ∈ l

/-- The directories are trees, with names that differ; `rank` is more than the height of what is
    below. -/
structure Sound (m : Dirs N) (rank : Nat → Nat) : Prop where
  names : ∀ d l, m d = some l → (l.map Prod.fst).Nodup
  there : ∀ d n e, Has m d n (.dir e) → m e ≠ none
  one : ∀ d d' n n' e, Has m d n (.dir e) → Has m d' n' (.dir e) → d = d' ∧ n = n'
  lower : ∀ d n e, Has m d n (.dir e) → rank e < rank d

/-- The directory itself, and all that its entries and theirs lead to. -/
def Below (m : Dirs N) : Nat → Nat → Prop :=
  Relation.ReflTransGen fun d e => ∃ n, Has m d n (.dir e)

/-- A link in the directory `q` leads to the directory `t`, which is there. -/
def Link_To (m : Dirs N) (q t : Nat) : Prop := (∃ n, Has m q n (.link (some t))) ∧ m t ≠ none

/-- Entries may be gone, and directories. -/
def Shrinks (m m' : Dirs N) : Prop :=
  ∀ d l', m' d = some l' → ∃ l, m d = some l ∧ l'.Sublist l

section Trees

variable {m m' : Dirs N} {rank : Nat → Nat} {d e x : Nat}

theorem Below.rank_le (h : Sound m rank) (hx : Below m d x) : rank x ≤ rank d := by
  induction hx with
  | refl => exact le_refl _
  | tail _ hstep ih =>
      obtain ⟨n, hn⟩ := hstep
      exact (h.lower _ n _ hn).le.trans ih

/-- No directory is below one of its entries. -/
theorem not_below_parent (h : Sound m rank) {n : N} (he : Has m d n (.dir e)) : ¬ Below m e d :=
  fun hbelow => absurd (hbelow.rank_le h) (not_le.mpr (h.lower d n e he))

/-- **What is below two entries of a directory** is apart. -/
theorem below_siblings (h : Sound m rank) {n n' : N} {e' : Nat} (he : Has m d n (.dir e))
    (he' : Has m d n' (.dir e')) (hx : Below m e x) (hx' : Below m e' x) : n = n' := by
  have hunique : Relator.RightUnique
      (Function.swap fun d e => ∃ n, Has m d n (.dir e)) := by
    rintro a b c ⟨n, hb⟩ ⟨n', hc⟩
    exact (h.one b c n n' a hb hc).1
  -- one of the two is below the other, and so below the directory's entry
  have hparent : ∀ {a b : Nat} {k k' : N}, Has m d k (.dir a) → Has m d k' (.dir b) →
      Below m a b → k = k' := by
    intro a b k k' ha hb hab
    cases hab.cases_tail with
    | inl heq => exact (h.one d d k k' a ha (heq ▸ hb)).2
    | inr htail =>
        obtain ⟨c, hac, i, hc⟩ := htail
        obtain ⟨rfl, -⟩ := h.one c d i k' b hc hb
        exact absurd hac (not_below_parent h ha)
  rcases Relation.ReflTransGen.total_of_right_unique hunique
      (Relation.reflTransGen_swap.mpr hx) (Relation.reflTransGen_swap.mpr hx') with hab | hab
  · exact (hparent he' he (Relation.reflTransGen_swap.mp hab)).symm
  · exact hparent he he' (Relation.reflTransGen_swap.mp hab)

theorem Shrinks.refl (m : Dirs N) : Shrinks m m := fun _ l hl => ⟨l, hl, List.Sublist.refl l⟩

theorem Shrinks.trans {m'' : Dirs N} (h : Shrinks m m') (h' : Shrinks m' m'') :
    Shrinks m m'' := by
  intro d l hl
  obtain ⟨l', hl', hsub'⟩ := h' d l hl
  obtain ⟨l'', hl'', hsub⟩ := h d l' hl'
  exact ⟨l'', hl'', hsub'.trans hsub⟩

theorem Shrinks.has (h : Shrinks m m') {n : N} {y : Node} (hy : Has m' d n y) : Has m d n y := by
  obtain ⟨l', hl', hmem⟩ := hy
  obtain ⟨l, hl, hsub⟩ := h d l' hl'
  exact ⟨l, hl, hsub.subset hmem⟩

theorem Shrinks.gone (h : Shrinks m m') (hd : m d = none) : m' d = none := by
  cases hl : m' d with
  | none => rfl
  | some l' =>
      obtain ⟨l, hl, -⟩ := h d l' hl
      exact absurd (hd.symm.trans hl) (by simp)

/-- A directory that is empty stays so, or goes. -/
theorem Shrinks.empty (h : Shrinks m m') (hd : m d = none ∨ m d = some []) :
    m' d = none ∨ m' d = some [] := by
  cases hl : m' d with
  | none => exact Or.inl rfl
  | some l' =>
      obtain ⟨l, hl, hsub⟩ := h d l' hl
      rcases hd with hd | hd
      · exact absurd (hd.symm.trans hl) (by simp)
      · obtain rfl := Option.some.inj (hd.symm.trans hl)
        exact Or.inr (by rw [List.sublist_nil.mp hsub])

theorem Shrinks.below (h : Shrinks m m') (hx : Below m' d x) : Below m d x := by
  induction hx with
  | refl => exact .refl
  | tail _ hstep ih =>
      obtain ⟨n, hn⟩ := hstep
      exact ih.tail ⟨n, h.has hn⟩

theorem Shrinks.link_to (h : Shrinks m m') {q t : Nat} (ht : Link_To m' q t) : Link_To m q t :=
  ⟨ht.1.imp fun _ hn => h.has hn, fun hnone => ht.2 (h.gone hnone)⟩

/-- Nothing is different below a directory below which all listings are the same. -/
theorem below_same (hsame : ∀ x, Below m d x → m' x = m x) : Below m' d x ↔ Below m d x := by
  constructor
  · intro hx
    induction hx with
    | refl => exact .refl
    | tail _ hstep ih =>
        obtain ⟨n, l, hl, hn⟩ := hstep
        exact ih.tail ⟨n, l, (hsame _ ih).symm.trans hl, hn⟩
  · intro hx
    induction hx with
    | refl => exact .refl
    | tail hbelow hstep ih =>
        obtain ⟨n, l, hl, hn⟩ := hstep
        exact ih.tail ⟨n, l, (hsame _ hbelow).trans hl, hn⟩

end Trees

/-! ## §2. Entries. -/

section Entries

variable [DecidableEq N] {m : Dirs N} {rank : Nat → Nat} {d e : Nat} {n : N}

/-- The entry of that name. -/
def lookup (m : Dirs N) (d : Nat) (n : N) : Option Node :=
  (m d).bind fun l => (l.find? fun x => x.1 = n).map Prod.snd

/-- The entry is taken out of the directory. -/
def erase (m : Dirs N) (d : Nat) (n : N) : Dirs N :=
  Function.update m d ((m d).map fun l => l.filter fun x => x.1 ≠ n)

/-- The directory `e` goes, with its entry. -/
def drop (m : Dirs N) (d : Nat) (n : N) (e : Nat) : Dirs N :=
  Function.update (erase m d n) e none

theorem filter_around {A B : Listing N} {x : Node} (h : ((A ++ (n, x) :: B).map Prod.fst).Nodup) :
    (A ++ (n, x) :: B).filter (fun y => y.1 ≠ n) = A ++ B := by
  rw [List.map_append, List.map_cons, List.nodup_middle, List.nodup_cons, ← List.map_append] at h
  have hkeep : ∀ y ∈ A ++ B, decide (y.1 ≠ n) = true := fun y hy =>
    decide_eq_true fun heq => h.1 (List.mem_map.mpr ⟨y, hy, heq⟩)
  rw [List.filter_append, List.filter_cons_of_neg (by simp), ← List.filter_append,
    List.filter_eq_self.mpr hkeep]

theorem find_around {A B : Listing N} {x : Node} (h : ((A ++ (n, x) :: B).map Prod.fst).Nodup) :
    (A ++ (n, x) :: B).find? (fun y => y.1 = n) = some (n, x) := by
  rw [List.map_append, List.map_cons, List.nodup_middle, List.nodup_cons] at h
  have hA : A.find? (fun y => y.1 = n) = none := by
    rw [List.find?_eq_none]
    intro y hy
    simpa using fun heq : y.1 = n =>
      h.1 (List.mem_append_left _ (List.mem_map.mpr ⟨y, hy, heq⟩))
  rw [List.find?_append, hA, Option.none_or, List.find?_cons_of_pos (by simp)]

theorem Sound.lookup (h : Sound m rank) {x : Node} (hx : Has m d n x) :
    Links.lookup m d n = some x := by
  obtain ⟨l, hl, hmem⟩ := hx
  obtain ⟨A, B, rfl⟩ := List.append_of_mem hmem
  rw [Links.lookup, hl, Option.bind_some, find_around (h.names d _ hl)]
  rfl

theorem erase_here (h : Sound m rank) {A B : Listing N} {x : Node}
    (hd : m d = some (A ++ (n, x) :: B)) : erase m d n d = some (A ++ B) := by
  rw [erase, Function.update_self, hd, Option.map_some, filter_around (h.names d _ hd)]

theorem erase_other {q : Nat} (hq : q ≠ d) : erase m d n q = m q :=
  Function.update_of_ne hq _ _

theorem shrinks_erase (m : Dirs N) (d : Nat) (n : N) : Shrinks m (erase m d n) := by
  intro q l' hl'
  by_cases hq : q = d
  · subst hq
    rw [erase, Function.update_self] at hl'
    obtain ⟨l, hl, rfl⟩ := Option.map_eq_some_iff.mp hl'
    exact ⟨l, hl, List.filter_sublist⟩
  · rw [erase_other hq] at hl'
    exact ⟨l', hl', List.Sublist.refl l'⟩

theorem shrinks_drop (m : Dirs N) (d : Nat) (n : N) (e : Nat) : Shrinks m (drop m d n e) := by
  intro q l' hl'
  by_cases hq : q = e
  · rw [drop, hq, Function.update_self] at hl'
    exact absurd hl' (by simp)
  · rw [drop, Function.update_of_ne hq] at hl'
    exact shrinks_erase m d n q l' hl'

omit [DecidableEq N] in
/-- What is taken away leaves trees. -/
theorem Sound.shrink {m' : Dirs N} (h : Sound m rank) (hs : Shrinks m m')
    (hthere : ∀ d n e, Has m' d n (.dir e) → m' e ≠ none) : Sound m' rank where
  names d l' hl' := by
    obtain ⟨l, hl, hsub⟩ := hs d l' hl'
    exact (h.names d l hl).sublist (hsub.map _)
  there := hthere
  one d d' n n' e he he' := h.one d d' n n' e (hs.has he) (hs.has he')
  lower d n e he := h.lower d n e (hs.has he)

/-- **An entry is taken out.** -/
theorem Sound.erase (h : Sound m rank) (d : Nat) (n : N) : Sound (Links.erase m d n) rank := by
  refine h.shrink (shrinks_erase m d n) fun q k e he => ?_
  have hthere := h.there q k e ((shrinks_erase m d n).has he)
  by_cases hd : e = d
  · subst hd
    rw [Links.erase, Function.update_self, Ne, Option.map_eq_none_iff]
    exact hthere
  · rw [erase_other hd]
    exact hthere

/-- **A directory is taken out**, with its entry. -/
theorem Sound.drop (h : Sound m rank) (he : Has m d n (.dir e)) :
    Sound (Links.drop m d n e) rank := by
  refine h.shrink (shrinks_drop m d n e) fun q k c hc => ?_
  have hold := (shrinks_drop m d n e).has hc
  have hce : c ≠ e := by
    rintro rfl
    -- the one entry it had is gone
    obtain ⟨rfl, rfl⟩ := h.one q d k n c hold he
    obtain ⟨l, hl, hmem⟩ := hc
    have hne : q ≠ c := fun heq => absurd (h.lower q k c hold) (heq ▸ lt_irrefl _)
    rw [Links.drop, Function.update_of_ne hne, Links.erase, Function.update_self] at hl
    obtain ⟨l', -, rfl⟩ := Option.map_eq_some_iff.mp hl
    simpa using (List.mem_filter.mp hmem).2
  rw [Links.drop, Function.update_of_ne hce]
  by_cases hcd : c = d
  · subst hcd
    rw [Links.erase, Function.update_self, Ne, Option.map_eq_none_iff]
    exact h.there q k c hold
  · rw [erase_other hcd]
    exact h.there q k c hold

theorem drop_here (h : Sound m rank) {A B : Listing N}
    (hd : m d = some (A ++ (n, .dir e) :: B)) : Links.drop m d n e d = some (A ++ B) := by
  have hne : d ≠ e := fun heq =>
    absurd (h.lower d n e ⟨_, hd, by simp⟩) (heq ▸ lt_irrefl _)
  rw [Links.drop, Function.update_of_ne hne, erase_here h hd]

theorem drop_other {q : Nat} (hq : q ≠ d) (hqe : q ≠ e) : Links.drop m d n e q = m q := by
  rw [Links.drop, Function.update_of_ne hqe, erase_other hq]

theorem drop_gone : Links.drop m d n e e = none := Function.update_self e _ _

end Entries

/-! ## §3. Paths. -/

section Paths

variable [DecidableEq N] (m : Dirs N)

/-- Where a name leads from the directory `d`, and how many links may still be on the path. -/
def step (d k : Nat) (n : N) : Option (Nat × Nat) :=
  match lookup m d n with
  | some (.dir e) => some (e, k)
  | some (.link (some e)) => if m e = none ∨ k = 0 then none else some (e, k - 1)
  | _ => none

/-- The directory a path leads to. -/
def walk : List N → Nat → Nat → Option (Nat × Nat)
  | [], d, k => some (d, k)
  | n :: ns, d, k => (step m d k n).bind fun r => walk ns r.1 r.2

/-- **One more name.** -/
theorem walk_concat (ns : List N) (n : N) :
    ∀ d k, walk m (ns ++ [n]) d k = (walk m ns d k).bind fun r => step m r.1 r.2 n := by
  induction ns with
  | nil =>
      intro d k
      show ((step m d k n).bind fun r => walk m [] r.1 r.2) = step m d k n
      cases step m d k n with
      | none => rfl
      | some r => rfl
  | cons i ns ih =>
      intro d k
      rw [List.cons_append, walk, walk, Option.bind_assoc]
      exact Option.bind_congr fun r _ => ih r.1 r.2

end Paths

end Lib.Links
