/-
  Aos.Lib.OrderedMap — maps as lists of entries in the order of their keys.

  A map carries the order of its entries, so that two maps with the same entries
  are the same map, in whatever order these were put in.

  Main results:
    • `insert_perm` — the entries after a new key was inserted;
    • `eq_of_perm` — a map is its entries;
    • `insertAll_perm` — so is one that is built from a list of distinct keys;
    • `find_iff` — what is found is what is there.
-/
import Mathlib.Tactic

namespace Lib

/-- The entries, with keys that grow. -/
structure OrderedMap (κ α : Type) [LT κ] where
  entries : List (κ × α)
  sorted : entries.Pairwise (fun a b => a.1 < b.1)
  deriving Repr, DecidableEq

namespace OrderedMap

variable {κ α : Type} [LT κ]

theorem ext {m m' : OrderedMap κ α} (h : m.entries = m'.entries) : m = m' := by
  obtain ⟨entries, _⟩ := m
  obtain rfl := h
  rfl

def empty : OrderedMap κ α := ⟨[], List.Pairwise.nil⟩

def keys (m : OrderedMap κ α) : List κ := m.entries.map Prod.fst

/-! ## §1. Taking out and putting in. -/

/-- The entry with the key is taken out. -/
def erase [DecidableEq κ] (m : OrderedMap κ α) (k : κ) : OrderedMap κ α :=
  ⟨m.entries.filter (fun e => e.1 ≠ k), m.sorted.filter _⟩

variable [DecidableLT κ]

/-- The entry comes to its place, unless there is one with its key. -/
def insertEntry (k : κ) (a : α) : List (κ × α) → List (κ × α)
  | [] => [(k, a)]
  | e :: es =>
      if e.1 < k then e :: insertEntry k a es
      else if k < e.1 then (k, a) :: e :: es
      else e :: es

theorem mem_insertEntry {k : κ} {a : α} {es : List (κ × α)} {e : κ × α}
    (h : e ∈ insertEntry k a es) : e = (k, a) ∨ e ∈ es := by
  induction es with
  | nil => exact Or.inl (List.mem_singleton.mp h)
  | cons d es ih =>
      rw [insertEntry] at h
      split_ifs at h
      · rcases List.mem_cons.mp h with hd | htail
        · exact Or.inr (hd ▸ List.mem_cons_self)
        · exact (ih htail).imp id (List.mem_cons_of_mem d)
      · exact List.mem_cons.mp h
      · exact Or.inr h

section Order

variable [Trans (α := κ) (· < ·) (· < ·) (· < ·)]

theorem sorted_insertEntry (k : κ) (a : α) {es : List (κ × α)}
    (h : es.Pairwise (fun a b => a.1 < b.1)) :
    (insertEntry k a es).Pairwise (fun a b => a.1 < b.1) := by
  induction es with
  | nil => exact List.pairwise_singleton _ _
  | cons d es ih =>
      have hfirst := (List.pairwise_cons.mp h).1
      rw [insertEntry]
      split_ifs with hless hgreater
      · refine List.pairwise_cons.mpr ⟨fun e he => ?_, ih (List.pairwise_cons.mp h).2⟩
        rcases mem_insertEntry he with rfl | hold
        · exact hless
        · exact hfirst e hold
      · refine List.pairwise_cons.mpr ⟨fun e he => ?_, h⟩
        rcases List.mem_cons.mp he with rfl | hold
        · exact hgreater
        · exact Trans.trans hgreater (hfirst e hold)
      · exact h

/-- A key that is there already keeps its value. -/
def insert (m : OrderedMap κ α) (k : κ) (a : α) : OrderedMap κ α :=
  ⟨insertEntry k a m.entries, sorted_insertEntry k a m.sorted⟩

/-- One entry after the other. -/
def insertAll (m : OrderedMap κ α) (es : List (κ × α)) : OrderedMap κ α :=
  es.foldl (fun m e => m.insert e.1 e.2) m

end Order

/-! ## §2. A map is its entries. -/

section Total

variable [Trans (α := κ) (· < ·) (· < ·) (· < ·)] [Std.Trichotomous (α := κ) (· < ·)]

/-- **A new key adds its entry.** -/
theorem insert_perm {m : OrderedMap κ α} {k : κ} (a : α) (hk : k ∉ m.keys) :
    (m.insert k a).entries.Perm ((k, a) :: m.entries) := by
  unfold keys at hk
  show (insertEntry k a m.entries).Perm _
  generalize m.entries = es at hk ⊢
  induction es with
  | nil => exact List.Perm.refl _
  | cons d es ih =>
      rw [List.map_cons, List.mem_cons, not_or] at hk
      rw [insertEntry]
      split_ifs with hless hgreater
      · exact ((ih hk.2).cons d).trans (List.Perm.swap _ _ _)
      · exact List.Perm.refl _
      · exact absurd (Std.Trichotomous.trichotomous k d.1 hgreater hless) hk.1

theorem insertAll_perm {es : List (κ × α)} (hnodup : (es.map Prod.fst).Nodup) :
    ∀ {m : OrderedMap κ α}, (∀ e ∈ es, e.1 ∉ m.keys) →
      (m.insertAll es).entries.Perm (es ++ m.entries) := by
  induction es with
  | nil => intro m _; exact List.Perm.refl _
  | cons e es ih =>
      intro m hnew
      rw [List.map_cons, List.nodup_cons] at hnodup
      have hfirst := insert_perm e.2 (hnew e List.mem_cons_self)
      have hrest : ∀ d ∈ es, d.1 ∉ (m.insert e.1 e.2).keys := by
        intro d hd hmem
        unfold keys at hmem
        rw [(hfirst.map Prod.fst).mem_iff, List.map_cons, List.mem_cons] at hmem
        rcases hmem with heq | hold
        · exact hnodup.1 (heq ▸ List.mem_map_of_mem hd)
        · exact hnew d (List.mem_cons_of_mem e hd) hold
      have hmore : ((m.insert e.1 e.2).insertAll es).entries.Perm _ := ih hnodup.2 hrest
      exact hmore.trans ((hfirst.append_left es).trans List.perm_middle)

variable [Std.Irrefl (α := κ) (· < ·)]

omit [DecidableLT κ] [Std.Trichotomous (α := κ) (· < ·)] in
/-- **Two maps with the same entries are the same.** -/
theorem eq_of_perm {m m' : OrderedMap κ α} (h : m.entries.Perm m'.entries) : m = m' := by
  refine ext (List.Perm.eq_of_pairwise (fun a b _ _ hab hba => ?_) m.sorted m'.sorted h)
  exact absurd (Trans.trans hab hba : a.1 < a.1) (Std.Irrefl.irrefl a.1)

omit [DecidableLT κ] [Trans (α := κ) (· < ·) (· < ·) (· < ·)]
  [Std.Trichotomous (α := κ) (· < ·)] in
theorem nodup_keys (m : OrderedMap κ α) : m.keys.Nodup := by
  unfold keys List.Nodup
  rw [List.pairwise_map]
  refine m.sorted.imp ?_
  intro a b hab heq
  rw [heq] at hab
  exact Std.Irrefl.irrefl b.1 hab

/-- **A map is built from its entries**, in whatever order they come. -/
theorem insertAll_eq {m : OrderedMap κ α} {es : List (κ × α)} (h : es.Perm m.entries) :
    (empty : OrderedMap κ α).insertAll es = m := by
  have hnodup : (es.map Prod.fst).Nodup := (h.map Prod.fst).nodup_iff.mpr m.nodup_keys
  have hperm := insertAll_perm hnodup (m := empty) fun _ _ => List.not_mem_nil
  rw [show (empty : OrderedMap κ α).entries = [] from rfl, List.append_nil] at hperm
  exact eq_of_perm (hperm.trans h)

/-! ## §3. Looking up. -/

omit [DecidableLT κ] [Trans (α := κ) (· < ·) (· < ·) (· < ·)]
  [Std.Trichotomous (α := κ) (· < ·)] [Std.Irrefl (α := κ) (· < ·)] in
theorem mem_erase [DecidableEq κ] {m : OrderedMap κ α} {k : κ} {e : κ × α} :
    e ∈ (m.erase k).entries ↔ e ∈ m.entries ∧ e.1 ≠ k := by
  unfold erase
  rw [List.mem_filter, decide_eq_true_eq]

omit [Std.Irrefl (α := κ) (· < ·)] in
theorem mem_insert {m : OrderedMap κ α} {k : κ} {a : α} (hk : k ∉ m.keys) {e : κ × α} :
    e ∈ (m.insert k a).entries ↔ e = (k, a) ∨ e ∈ m.entries := by
  rw [(insert_perm a hk).mem_iff, List.mem_cons]

omit [DecidableLT κ] [Trans (α := κ) (· < ·) (· < ·) (· < ·)]
  [Std.Trichotomous (α := κ) (· < ·)] [Std.Irrefl (α := κ) (· < ·)] in
theorem mem_keys {m : OrderedMap κ α} {k : κ} : k ∈ m.keys ↔ ∃ a, (k, a) ∈ m.entries := by
  unfold keys
  rw [List.mem_map]
  constructor
  · rintro ⟨⟨_, a⟩, he, rfl⟩
    exact ⟨a, he⟩
  · rintro ⟨a, he⟩
    exact ⟨(k, a), he, rfl⟩

/-- The value of a key. -/
def find [DecidableEq κ] (m : OrderedMap κ α) (k : κ) : Option α :=
  (m.entries.find? fun e => e.1 = k).map Prod.snd

omit [DecidableLT κ] [Trans (α := κ) (· < ·) (· < ·) (· < ·)]
  [Std.Trichotomous (α := κ) (· < ·)] in
/-- **What is found is what is there.** -/
theorem find_iff [DecidableEq κ] {m : OrderedMap κ α} {k : κ} {a : α} :
    m.find k = some a ↔ (k, a) ∈ m.entries := by
  unfold find
  rw [Option.map_eq_some_iff]
  constructor
  · rintro ⟨⟨k', _⟩, he, rfl⟩
    have hk : k' = k := by simpa using List.find?_some he
    exact hk ▸ List.mem_of_find?_eq_some he
  · intro hmem
    have hsome : (m.entries.find? fun e => e.1 = k).isSome :=
      List.find?_isSome.mpr ⟨(k, a), hmem, decide_eq_true rfl⟩
    obtain ⟨e, he⟩ := Option.isSome_iff_exists.mp hsome
    have hk : e.1 = k := by simpa using List.find?_some he
    refine ⟨e, he, ?_⟩
    -- no two entries have the same key
    have heq := List.inj_on_of_nodup_map m.nodup_keys (List.mem_of_find?_eq_some he) hmem hk
    rw [heq]

/-- Every value is changed. -/
def mapValues (m : OrderedMap κ α) (f : α → α) : OrderedMap κ α :=
  ⟨m.entries.map fun e => (e.1, f e.2), List.pairwise_map.mpr m.sorted⟩

end Total

end OrderedMap

end Lib
