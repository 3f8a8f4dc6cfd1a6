/-
  Aos.Matcher.NodePlaces — pointers to nodes, while keys are entered.

  `insert_key` goes down from a node with `set`.  A child that was not there is put
  into the array of the node above it, and `realloc` takes the old array away: a
  pointer to one of that node's other children leads nowhere afterwards.  Every other
  pointer still leads to the node it led to.

  Main results:
    • `At.kept`       — a node has its place for as long as no child beside it comes or goes;
    • `insert_key_at` — what `insert_key` leaves, the nodes and every pointer to one.
-/
import Aos.Matcher.CharIndexer
import Aos.Matcher.NodeCalls

namespace Aos.Node_Memory

open Lib.Blocks
open Lib.Heap (Freed)
open Lib.Trie (Family)
open Char_Node

/-! ## §1. Places that stay. -/

section Places

variable {m m' : Memory} {V V' : Family Byte Cell} {π ρ : List Byte} {self : Cell}

/-- There is no node below one that is not there. -/
theorem Holds.alive (hold : Holds m V) (hpre : π <+: ρ) (hρ : V ρ ≠ none) : V π ≠ none := by
  obtain ⟨τ, rfl⟩ := hpre
  exact fun hnone => hρ (hold.above τ hnone)

theorem At.alive (hold : Holds m V) {P : Place} (hat : At m V π P) : V π ≠ none := by
  obtain ⟨self, hself, -⟩ := load_at (fun _ _ => m.root) hold hat
  simp [hself]

theorem Children.mem_chars {h : Arrays Cell} {cs rest : List Cell}
    (hch : Children h V π self cs rest) (c : Byte) :
    c ∈ cs.map Cell.ch_ ↔ V (π ++ [c]) ≠ none := by
  rw [hch.child, Ne, List.find?_eq_none, List.mem_map]
  push Not
  simp only [decide_eq_true_eq]

/-- **A node has its place**: its parent has the same array, and the same children. -/
theorem At.kept (hold' : Holds m' V') {s s' : Cell} (hπ : V π = some s) (hπ' : V' π = some s')
    (hnode : s'.node_ = s.node_) (hsame : ∀ d, V' (π ++ [d]) ≠ none ↔ V (π ++ [d]) ≠ none)
    {c : Byte} {P : Place} (hat : At m V (π ++ [c]) P) : At m' V' (π ++ [c]) P := by
  generalize hρ : π ++ [c] = ρ at hat
  cases hat with
  | root => exact absurd hρ (by simp)
  | @cell σ t x p A B rest hσ hp hch =>
      obtain ⟨rfl, -⟩ := List.append_inj' hρ rfl
      obtain rfl := Option.some.inj (hπ.symm.trans hσ)
      obtain ⟨cs, rest', hch'⟩ := hold'.arrays π s' hπ'
      -- the characters of the children are in order, and the same
      have hchars : cs.map Cell.ch_ = (A ++ x :: B).map Cell.ch_ := by
        refine List.Pairwise.eq_of_mem_iff (r := (· < ·)) (List.pairwise_map.mpr hch'.sorted)
          (List.pairwise_map.mpr hch.sorted) fun d => ?_
        rw [hch'.mem_chars, hsame, hch.mem_chars]
      rw [List.map_append, List.map_cons] at hchars
      obtain ⟨A', tail, rfl, hA, htail⟩ := List.map_eq_append_iff.mp hchars
      obtain ⟨x', B', rfl, hx, -⟩ := List.map_eq_cons_iff.mp htail
      have hlen : A'.length = A.length := by simpa using congrArg List.length hA
      rw [← hx, ← hlen]
      exact .cell hπ' (hnode.trans hp) hch'

/-! ## §2. Places that are gone. -/

/-- A pointer into a block that was freed. -/
def Gone (m : Memory) : Place → Prop
  | .root => False
  | .cell p _ => Freed m.blocks p

variable (junk : Nat → Nat → Cell)

theorem load_gone {P : Place} (hgone : Gone m P) : m.load junk P = none := by
  cases P with
  | root => exact hgone.elim
  | cell p i =>
      show (Lib.Heap.get m.blocks p).map _ = none
      rw [Freed.get hgone]
      rfl

theorem freed_store {p : Nat} (hp : Freed m.blocks p) {P : Place} {c : Cell}
    (hstore : m.store P c = some m') : Freed m'.blocks p := by
  cases P with
  | root =>
      obtain rfl := Option.some.inj hstore
      exact hp
  | cell q i =>
      obtain ⟨h, hmod, rfl⟩ := Option.map_eq_some_iff.mp hstore
      exact freed_modify hp hmod

theorem freed_added {h : Arrays Cell} {p q i : Nat} (hp : Freed h p) {P Q : Place} {ch : Byte}
    (hadd : set.added m P ch h q i self = some (m', Q)) : Freed m'.blocks p := by
  obtain ⟨h', hmod, hput⟩ := Option.bind_eq_some_iff.mp hadd
  obtain ⟨m₁, hstore, heq⟩ := Option.map_eq_some_iff.mp hput
  rw [← (Prod.mk.inj heq).1]
  exact freed_store (m := { m with blocks := h' }) (freed_modify hp hmod) hstore

/-- What `set` adds to: the array as `realloc` gives it, with room made. -/
theorem freed_copied {h : Arrays Cell} {p q i : Nat} (hp : Freed h p) {P Q : Place} {ch : Byte}
    {f : List Cell → Option (List Cell)}
    (hset : ((modify h q f).bind fun h => set.added m P ch h q i self) = some (m', Q)) :
    Freed m'.blocks p := by
  obtain ⟨h', hmod, hadd⟩ := Option.bind_eq_some_iff.mp hset
  exact freed_added (freed_modify hp hmod) hadd

theorem freed_set {p : Nat} (hp : Freed m.blocks p) {P Q : Place} {ch : Byte}
    (hset : set junk m P ch = some (m', Q)) : Freed m'.blocks p := by
  obtain ⟨self, -, hset⟩ := Option.bind_eq_some_iff.mp hset
  obtain ⟨out, -, hset⟩ := Option.bind_eq_some_iff.mp hset
  cases out with
  | hit mid =>
      obtain ⟨q, -, heq⟩ := Option.map_eq_some_iff.mp hset
      rw [← (Prod.mk.inj heq).1]
      exact hp
  | miss i =>
      dsimp only at hset
      cases hnode : self.node_ with
      | none =>
          rw [hnode] at hset
          exact freed_added (freed_malloc junk hp 1) hset
      | some q =>
          rw [hnode] at hset
          obtain ⟨⟨h, r⟩, hre, hset⟩ := Option.bind_eq_some_iff.mp hset
          exact freed_copied (freed_realloc junk hp hre) hset

/-- **A child that is added** takes the array of its node away. -/
theorem set_frees {p i : Nat} {P Q : Place} {ch : Byte} (hload : m.load junk P = some self)
    (hp : self.node_ = some p) (hfind : find_ junk m self ch = some (.miss i))
    (hset : set junk m P ch = some (m', Q)) : Freed m'.blocks p := by
  unfold set at hset
  rw [hload, Option.bind_some, hfind, Option.bind_some] at hset
  dsimp only at hset
  rw [hp] at hset
  obtain ⟨⟨h, r⟩, hre, hset⟩ := Option.bind_eq_some_iff.mp hset
  exact freed_copied (realloc_frees junk hre) hset

/-! ## §3. A key. -/

/-- `insert_key(buf, size)` from the node `this` on: the loop `node = node->set(*ptr)`. -/
def insert_key : Memory → Place → Bytes → Option Memory
  | m, this, [] => flag junk m this Match
  | m, this, ch :: buf => (set junk m this ch).bind fun (m, node) => insert_key m node buf

/-- `(flag() & Match) == Match` -/
def Cell.matched (node : Cell) : Bool := node.flag_ &&& Match == Match

/-- A key ends at the node. -/
def Marked (V : Family Byte Cell) (ρ : List Byte) : Prop := (V ρ).any Cell.matched = true

/-- The key `buf`, entered from the node `π` on, gives the node above `ρ` another child. -/
def Branches (V : Family Byte Cell) (π buf ρ : List Byte) : Prop :=
  ∃ σ c ch, ρ = σ ++ [c] ∧ π <+: σ ∧ σ ++ [ch] <+: π ++ buf ∧ V (σ ++ [ch]) = none

theorem freed_insert_key {p : Nat} (buf : Bytes) : ∀ {m m' : Memory} {P : Place},
    Freed m.blocks p → insert_key junk m P buf = some m' → Freed m'.blocks p := by
  induction buf with
  | nil =>
      intro m m' P hp hins
      obtain ⟨self, -, hstore⟩ := Option.bind_eq_some_iff.mp hins
      exact freed_store hp hstore
  | cons ch buf ih =>
      intro m m' P hp hins
      obtain ⟨⟨m₁, node⟩, hset, hins⟩ := Option.bind_eq_some_iff.mp hins
      exact ih (freed_set junk hp hset) hins

theorem gone_insert_key {P Q : Place} (hgone : Gone m Q) {buf : Bytes}
    (hins : insert_key junk m P buf = some m') : Gone m' Q := by
  cases Q with
  | root => exact hgone
  | cell p i => exact freed_insert_key junk buf hgone hins

/-- What `insert_key` leaves: the nodes along the key, one more that a key ends at, and the
    pointers. -/
structure Entered (m m' : Memory) (V V' : Family Byte Cell) (π buf : List Byte) : Prop where
  holds : Holds m' V'
  alive : ∀ ρ, V' ρ ≠ none ↔ V ρ ≠ none ∨ ρ <+: π ++ buf
  marked : ∀ ρ, Marked V' ρ ↔ Marked V ρ ∨ ρ = π ++ buf
  stays : ∀ ρ Q, At m V ρ Q → ¬ Branches V π buf ρ → At m' V' ρ Q
  gone : ∀ ρ Q, At m V ρ Q → Branches V π buf ρ → Gone m' Q

/-- The end of a key. -/
theorem entered_nil (hold : Holds m V) {P : Place} (hat : At m V π P) :
    ∃ m' V', flag junk m P Match = some m' ∧ Entered m m' V V' π [] := by
  obtain ⟨self, hself, -⟩ := load_at junk hold hat
  obtain ⟨m', hflag, hold'⟩ := flag_holds junk hold hat hself Match
  have hhere := Function.update_self π (some { self with flag_ := Match }) V
  have hother : ∀ ρ, ρ ≠ π →
      Function.update V π (some { self with flag_ := Match }) ρ = V ρ :=
    fun ρ hρ => Function.update_of_ne hρ _ _
  have halive : ∀ ρ, Function.update V π (some { self with flag_ := Match }) ρ ≠ none ↔
      V ρ ≠ none := by
    intro ρ
    by_cases hρ : ρ = π
    · rw [hρ, hhere, hself]
      simp
    · rw [hother ρ hρ]
  refine ⟨m', _, hflag, hold', fun ρ => ?_, fun ρ => ?_, fun ρ Q hQ _ => ?_,
    fun ρ Q _ hbr => ?_⟩
  · rw [halive, List.append_nil]
    exact ⟨Or.inl, fun h => h.elim id fun hpre => hold.alive hpre (hat.alive hold)⟩
  · rw [List.append_nil]
    by_cases hρ : ρ = π
    · refine iff_of_true ?_ (Or.inr hρ)
      rw [Marked, hρ, hhere]
      show (Match &&& Match == Match) = true
      decide
    · rw [Marked, hother ρ hρ]
      exact ⟨Or.inl, fun h => h.resolve_right hρ⟩
  · rcases List.eq_nil_or_concat' ρ with rfl | ⟨σ, c, rfl⟩
    · cases hQ.unique At.root
      exact .root
    · obtain ⟨s, hs⟩ := Option.ne_none_iff_exists'.mp
        (hold.alive (List.prefix_append σ [c]) (hQ.alive hold))
      by_cases hσ : σ = π
      · obtain rfl := Option.some.inj ((hσ ▸ hs).symm.trans hself)
        exact hQ.kept hold' hs ((congrArg _ hσ).trans hhere) rfl fun d => halive _
      · exact hQ.kept hold' hs ((hother σ hσ).trans hs) rfl fun d => halive _
  · obtain ⟨σ, c, ch, -, hpre, hpre', -⟩ := hbr
    have hle := hpre.length_le
    have hle' := hpre'.length_le
    simp at hle'
    omega

/-- Where the key goes on below a child, the pointers that it takes away are the same. -/
theorem branches_below (hold : Holds m V) {ch : Byte} {buf : Bytes} (hch : V (π ++ [ch]) ≠ none) :
    Branches V π (ch :: buf) ρ ↔ Branches V (π ++ [ch]) buf ρ := by
  have hsplit : π ++ ch :: buf = π ++ [ch] ++ buf := by simp
  unfold Branches
  rw [hsplit]
  refine exists_congr fun σ => exists_congr fun c => exists_congr fun d =>
    and_congr_right fun _ => ⟨fun ⟨hpre, hnew, hnone⟩ => ?_, fun ⟨hpre, hnew, hnone⟩ => ?_⟩
  · refine ⟨?_, hnew, hnone⟩
    -- the child that is added lies below the one that is there
    rcases List.prefix_or_prefix_of_prefix hnew (List.prefix_append (π ++ [ch]) buf) with h | h
    · exact absurd hnone (hold.alive h hch)
    · cases List.prefix_concat_iff.mp h with
      | inl heq => exact absurd (heq ▸ hnone) hch
      | inr hin => exact hin
  · exact ⟨(List.prefix_append π [ch]).trans hpre, hnew, hnone⟩

/-- **A child that is added**: the nodes, the keys' ends and the pointers behind `set`. -/
theorem set_places (hold : Holds m V) {P : Place} (hat : At m V π P) {ch : Byte}
    (hnone : V (π ++ [ch]) = none) :
    ∃ m' V' Q, set junk m P ch = some (m', Q) ∧ Holds m' V' ∧ At m' V' (π ++ [ch]) Q ∧
      (∀ ρ, V' ρ ≠ none ↔ V ρ ≠ none ∨ ρ = π ++ [ch]) ∧
      (∀ ρ, Marked V' ρ ↔ Marked V ρ) ∧
      (∀ ρ R, At m V ρ R → (∀ c, ρ ≠ π ++ [c]) → At m' V' ρ R) ∧
      ∀ c R, At m V (π ++ [c]) R → Gone m' R := by
  obtain ⟨self, hself, hload⟩ := load_at junk hold hat
  obtain ⟨m', Q, q, hset, hold', hQ⟩ := set_absent junk hold hat hself hnone
  have halive : ∀ ρ, with_child V π self ch q ρ ≠ none ↔ V ρ ≠ none ∨ ρ = π ++ [ch] := by
    intro ρ
    by_cases hρ : ρ = π ++ [ch]
    · refine iff_of_true ?_ (Or.inr hρ)
      rw [hρ, with_child_new]
      simp
    · by_cases hρπ : ρ = π
      · refine iff_of_true ?_ (Or.inl ?_)
        · rw [hρπ, with_child_here]
          simp
        · rw [hρπ, hself]
          simp
      · rw [with_child_other hρπ hρ]
        exact ⟨Or.inl, fun h => h.resolve_right hρ⟩
  refine ⟨m', _, Q, hset, hold', hQ, halive, fun ρ => ?_, fun ρ R hR hρ => ?_, fun c R hR => ?_⟩
  · by_cases hρ : ρ = π ++ [ch]
    · rw [Marked, Marked, hρ, with_child_new, hnone]
      show ((0 : Byte) &&& Match == Match) = true ↔ false = true
      decide
    · by_cases hρπ : ρ = π
      · rw [Marked, Marked, hρπ, with_child_here, hself]
        rfl
      · rw [Marked, Marked, with_child_other hρπ hρ]
  · rcases List.eq_nil_or_concat' ρ with rfl | ⟨σ, c, rfl⟩
    · cases hR.unique At.root
      exact .root
    · obtain ⟨s, hs⟩ := Option.ne_none_iff_exists'.mp
        (hold.alive (List.prefix_append σ [c]) (hR.alive hold))
      have hσ : σ ≠ π := fun heq => hρ c (heq ▸ rfl)
      have hσ' : σ ≠ π ++ [ch] := fun heq => by simp [heq ▸ hs] at hnone
      refine hR.kept hold' hs ((with_child_other hσ hσ').trans hs) rfl fun d => ?_
      rw [halive]
      exact ⟨fun h => h.resolve_right (concat_ne hσ d ch), Or.inl⟩
  · generalize hρ : π ++ [c] = ρ at hR
    cases hR with
    | root => exact absurd hρ (by simp)
    | @cell σ s x p A B rest hσ hp hch =>
        obtain ⟨rfl, -⟩ := List.append_inj' hρ rfl
        obtain rfl := Option.some.inj (hσ.symm.trans hself)
        -- the search has not found the character among the children
        rcases find_split junk hch ch with ⟨A', y, B', p', hcs, rfl, -, -⟩ | ⟨A', B', -, -, -, hfind⟩
        · rw [hcs] at hch
          rw [hch.here] at hnone
          exact absurd hnone (by simp)
        · exact set_frees junk hload hp hfind hset

/-- **A key is entered**: each pointer to a node still leads there, unless a node beside it was
    added; then it leads nowhere. -/
theorem insert_key_at (buf : Bytes) : ∀ {m : Memory} {V : Family Byte Cell} {π : List Byte}
    {P : Place}, Holds m V → At m V π P →
      ∃ m' V', insert_key junk m P buf = some m' ∧ Entered m m' V V' π buf := by
  induction buf with
  | nil => exact fun hold hat => entered_nil junk hold hat
  | cons ch buf ih =>
      intro m V π P hold hat
      have hsplit : π ++ ch :: buf = π ++ [ch] ++ buf := by simp
      by_cases hnone : V (π ++ [ch]) = none
      · obtain ⟨m₁, V₁, Q, hset, hold₁, hQ, halive₁, hmarked₁, hstays₁, hgone₁⟩ :=
          set_places junk hold hat hnone
        obtain ⟨m', V', hins, hent⟩ := ih hold₁ hQ
        have hins' : insert_key junk m P (ch :: buf) = some m' := by
          rw [insert_key, hset]
          exact hins
        refine ⟨m', V', hins', hent.holds, fun ρ => ?_, fun ρ => ?_, fun ρ R hR hbr => ?_,
          fun ρ R hR hbr => ?_⟩
        · rw [hent.alive, halive₁, hsplit, or_assoc]
          exact or_congr_right ⟨fun h => h.elim (fun heq => heq ▸ List.prefix_append _ _) id,
            Or.inr⟩
        · rw [hent.marked, hmarked₁, hsplit]
        · refine hent.stays ρ R (hstays₁ ρ R hR fun c hρ => hbr ?_) ?_
          · exact ⟨π, c, ch, hρ, List.prefix_rfl, hsplit ▸ List.prefix_append _ _, hnone⟩
          · -- there was no node below the new one
            rintro ⟨σ, c, d, rfl, hpre, -⟩
            exact hold.alive (hpre.trans (List.prefix_append σ [c])) (hR.alive hold) hnone
        · obtain ⟨σ, c, d, rfl, hpre, hnew, hd⟩ := hbr
          by_cases hσ : σ = π
          · subst hσ
            exact gone_insert_key junk (hgone₁ c R hR) hins
          · -- the key has left the tree above
            rw [hsplit] at hnew
            refine absurd hnone (hold.alive (?_ : π ++ [ch] <+: σ ++ [c]) (hR.alive hold))
            have hpre' : π ++ [ch] <+: σ := by
              obtain ⟨τ, rfl⟩ := hpre
              cases τ with
              | nil => exact absurd (List.append_nil π) hσ
              | cons e τ =>
                  rw [List.append_assoc, List.append_assoc, List.prefix_append_right_inj,
                    List.cons_append, List.singleton_append, List.cons_prefix_cons] at hnew
                  rw [hnew.1, List.prefix_append_right_inj]
                  exact ⟨τ, rfl⟩
            exact hpre'.trans (List.prefix_append σ [c])
      · obtain ⟨Q, -, hset, hQ⟩ := set_present junk hold hat hnone
        obtain ⟨m', V', hins, hent⟩ := ih hold hQ
        refine ⟨m', V', ?_, hent.holds, fun ρ => ?_, fun ρ => ?_, fun ρ R hR hbr => ?_,
          fun ρ R hR hbr => ?_⟩
        · rw [insert_key, hset]
          exact hins
        · rw [hent.alive, hsplit]
        · rw [hent.marked, hsplit]
        · exact hent.stays ρ R hR fun h => hbr ((branches_below hold hnone).mpr h)
        · exact hent.gone ρ R hR ((branches_below hold hnone).mp hbr)

end Places

end Aos.Node_Memory
