/-
  Aos.Matcher.NodeCalls — `set`, `unset`, `clear` and `flag` of a `Char_Node` in memory.

  Each call at a node changes the array of that node, or frees what is below one of
  its children, and writes the node back.

  Main results:
    • `set_present`, `set_absent` — the child that `set` returns;
    • `unset_absent`, `unset_present`, `flag_holds` — what the other calls leave;
    • `clear_frees` — a cleared node takes nothing with it but what is below it.
-/
import Aos.Matcher.NodeMemory

namespace Aos.Node_Memory

open Lib.Blocks
open Lib.Packed (getD_at)
open Lib.Trie (Family)
open Char_Node

section Held

variable {h h' : Arrays Cell} {m : Memory} {V V' : Family Byte Cell} {π : List Byte}
  {self : Cell} {cs rest : List Cell} (junk : Nat → Nat → Cell)

/-! ## §1. `flag`. -/

theorem ne_append (π τ : List Byte) (c : Byte) : π ++ τ ++ [c] ≠ π := by
  intro h
  have hlen := congrArg List.length h
  simp at hlen

theorem flag_rewritten (hold : Holds m V) (hself : V π = some self) (f : Byte) :
    Rewritten m m.blocks V (Function.update V π (some { self with flag_ := f })) π
      { self with flag_ := f } := by
  have hhere := Function.update_self π (some { self with flag_ := f }) V
  have hother : ∀ ρ, ρ ≠ π → Function.update V π (some { self with flag_ := f }) ρ = V ρ :=
    fun ρ hρ => Function.update_of_ne hρ _ _
  -- each node has the array that it had
  have hold_node : ∀ ρ s, Function.update V π (some { self with flag_ := f }) ρ = some s →
      ∃ s', V ρ = some s' ∧ s'.node_ = s.node_ ∧ s'.n_node_ = s.n_node_ := by
    intro ρ s hs
    by_cases hρ : ρ = π
    · subst hρ
      obtain rfl := Option.some.inj (hhere.symm.trans hs)
      exact ⟨self, hself, rfl, rfl⟩
    · exact ⟨s, (hother ρ hρ).symm.trans hs, rfl, rfl⟩
  refine ⟨hhere, fun ρ hρ => hother ρ fun heq => hρ (heq ▸ List.prefix_rfl), ?_, ?_, ?_,
    fun _ _ _ _ _ _ => rfl⟩
  · rintro _ s ⟨τ, rfl⟩ hs
    obtain ⟨s', hs', hnode, hcount⟩ := hold_node _ s hs
    obtain ⟨cs, rest, hch⟩ := hold.arrays _ s' hs'
    refine ⟨cs, rest, ?_, hch.count.trans hcount, hch.sorted, fun c => ?_⟩
    · rw [← hch.array, array, array, hnode]
    · rw [hother _ (ne_append π τ c), hch.child]
  · rintro _ c ⟨τ, rfl⟩ hnone
    have hρ : π ++ τ ≠ π := fun heq => by
      rw [heq, hhere] at hnone
      exact absurd hnone (by simp)
    rw [hother _ hρ] at hnone
    rw [hother _ (ne_append π τ c)]
    exact hold.closed _ c hnone
  · intro ρ ρ' s s' p hs hs' hp hp'
    obtain ⟨t, ht, htn, -⟩ := hold_node ρ s hs
    obtain ⟨t', ht', htn', -⟩ := hold_node ρ' s' hs'
    exact hold.apart ρ ρ' t t' p ht ht' (htn.trans hp) (htn'.trans hp')

/-- **`flag`** changes one flag. -/
theorem flag_holds (hold : Holds m V) {P : Place} (hat : At m V π P) (hself : V π = some self)
    (f : Byte) :
    ∃ m', flag junk m P f = some m' ∧
      Holds m' (Function.update V π (some { self with flag_ := f })) := by
  obtain ⟨m', hstore, hold', -⟩ := hold.write_back hat hself (flag_rewritten hold hself f) rfl
  refine ⟨m', ?_, hold'⟩
  rw [flag, load_self junk hold hat hself, Option.bind_some]
  exact hstore

/-! ## §2. `set`. -/

/-- A child that is there is returned, and nothing changes. -/
theorem set_present (hold : Holds m V) {P : Place} (hat : At m V π P) {ch : Byte}
    (hchild : V (π ++ [ch]) ≠ none) :
    ∃ Q, find junk m P ch = some (some Q) ∧ set junk m P ch = some (m, Q) ∧
      At m V (π ++ [ch]) Q := by
  obtain ⟨Q, hfind, hQ⟩ := (find_at junk hold hat ch).resolve_left fun h => hchild h.1
  refine ⟨Q, hfind, ?_, hQ⟩
  obtain ⟨self, hself, hload⟩ := load_at junk hold hat
  unfold find at hfind
  unfold set
  rw [hload, Option.bind_some] at hfind ⊢
  cases hout : find_ junk m self ch with
  | none =>
      rw [hout, Option.bind_none] at hfind
      exact absurd hfind (by simp)
  | some out =>
      rw [hout, Option.bind_some] at hfind
      cases out with
      | miss insert => exact absurd hfind (by simp)
      | hit mid =>
          obtain ⟨p, hp, hcell⟩ := Option.map_eq_some_iff.mp hfind
          obtain rfl := Option.some.inj hcell
          rw [Option.bind_some]
          dsimp only
          rw [hp]
          rfl

/-- The child that `set` adds. -/
def fresh (ch : Byte) : Cell := ⟨ch, 0, 0, none⟩

/-- **The array that `set` makes**: the children with the new one between them, in a block of
    its own. -/
theorem set_array {A B : List Cell} (hch : Children m.blocks V π self (A ++ B) rest) {P : Place}
    {ch : Byte} (hload : m.load junk P = some self)
    (hfind : find_ junk m self ch = some (.miss A.length)) :
    ∃ h q, set junk m P ch =
        (Memory.store { m with blocks := h } P
          { self with n_node_ := self.n_node_ + 1, node_ := some q }).map (·, .cell q A.length) ∧
      Lib.Heap.get h q = some (A ++ fresh ch :: B) ∧ Lib.Heap.get m.blocks q = none ∧
      ∀ p cells, self.node_ ≠ some p → Lib.Heap.get m.blocks p = some cells →
        Lib.Heap.get h p = some cells := by
  have hnew := get_beyond m.blocks
  have hother : ∀ {p : Nat} {cells : List Cell}, Lib.Heap.get m.blocks p = some cells →
      p ≠ m.blocks.length := by
    intro p cells hp heq
    rw [heq, hnew] at hp
    exact absurd hp (by simp)
  unfold set
  rw [hload, Option.bind_some, hfind, Option.bind_some]
  dsimp only
  cases hp : self.node_ with
  | none =>
      obtain ⟨rfl, rfl⟩ := List.append_eq_nil_iff.mp (hch.of_none hp)
      have hget := malloc_new junk m.blocks 1
      have hput : put ((List.range 1).map (junk m.blocks.length)) 0 (fresh ch) = some [fresh ch] :=
        put_at [] [] _ _
      refine ⟨_, m.blocks.length, ?_, store_here hget [fresh ch], hnew, ?_⟩
      · show set.added m P ch _ m.blocks.length 0 self = _
        rw [set.added, modify_eq hget hput, Option.bind_some]
        rfl
      · intro p cells _ hcells
        exact store_kept _ _ _ p cells (hother hcells)
          (malloc_kept junk m.blocks 1 m.blocks.length p cells (hother hcells) hcells)
  | some p =>
      obtain ⟨h, y, hrealloc, hget, hkept⟩ := realloc_one junk (hch.get hp)
      obtain ⟨y', hcopy⟩ := copy_up_gap (junk m.blocks.length) A B [] y
      rw [List.append_nil, hch.count] at hcopy
      rw [hch.count] at hrealloc
      have hput := put_at A B y' (fresh ch)
      refine ⟨_, m.blocks.length, ?_, store_here (store_here hget (A ++ y' :: B)) _, hnew, ?_⟩
      · dsimp only
        rw [hrealloc, Option.bind_some]
        dsimp only
        rw [modify_eq hget hcopy, Option.bind_some, set.added,
          modify_eq (store_here hget (A ++ y' :: B)) hput, Option.bind_some]
      · intro p' cells hne hcells
        refine store_kept _ _ _ p' cells (hother hcells) (store_kept _ _ _ p' cells (hother hcells) ?_)
        exact hkept p' cells (fun heq => hne (congrArg some heq.symm)) hcells

/-- The nodes behind `set`: a child more, in the block `q`. -/
def with_child (V : Family Byte Cell) (π : List Byte) (node : Cell) (ch : Byte) (q : Nat) :
    Family Byte Cell :=
  Function.update (Function.update V (π ++ [ch]) (some (fresh ch))) π
    (some { node with n_node_ := node.n_node_ + 1, node_ := some q })

section With_Child

variable {ch : Byte} {q : Nat}

theorem with_child_here : with_child V π self ch q π =
    some { self with n_node_ := self.n_node_ + 1, node_ := some q } := Function.update_self _ _ _

theorem with_child_new : with_child V π self ch q (π ++ [ch]) = some (fresh ch) := by
  rw [with_child, Function.update_of_ne (by simp), Function.update_self]

theorem with_child_other {ρ : List Byte} (h : ρ ≠ π) (hch : ρ ≠ π ++ [ch]) :
    with_child V π self ch q ρ = V ρ := by
  rw [with_child, Function.update_of_ne h, Function.update_of_ne hch]

/-- The nodes that were there before. -/
theorem with_child_old {ρ : List Byte} {s : Cell} (hs : with_child V π self ch q ρ = some s) :
    (ρ = π ∧ s.node_ = some q) ∨ (ρ = π ++ [ch] ∧ s = fresh ch) ∨
      (ρ ≠ π ∧ ρ ≠ π ++ [ch] ∧ V ρ = some s) := by
  by_cases h : ρ = π
  · subst h
    rw [with_child_here] at hs
    exact Or.inl ⟨rfl, by rw [← Option.some.inj hs]⟩
  · by_cases hch : ρ = π ++ [ch]
    · subst hch
      rw [with_child_new] at hs
      exact Or.inr (Or.inl ⟨rfl, (Option.some.inj hs).symm⟩)
    · rw [with_child_other h hch] at hs
      exact Or.inr (Or.inr ⟨h, hch, hs⟩)

/-- The children behind `set`. -/
theorem Children.with_child {A B : List Cell} (hch : Children m.blocks V π self (A ++ B) rest)
    (hA : ∀ a ∈ A, a.ch_ < ch) (hB : ∀ b ∈ B, ch < b.ch_)
    (hget : Lib.Heap.get h q = some (A ++ fresh ch :: B)) :
    Children h (Node_Memory.with_child V π self ch q) π
      { self with n_node_ := self.n_node_ + 1, node_ := some q } (A ++ fresh ch :: B) [] := by
  refine ⟨?_, ?_, sorted_insert Cell.ch_ hch.sorted hA hB, fun c => ?_⟩
  · rw [Node_Memory.array, List.append_nil]
    exact hget
  · rw [← hch.count]
    simp only [List.length_append, List.length_cons]
    omega
  · rw [find?_around Cell.ch_ fun a ha heq => absurd (heq ▸ hA a ha) (UInt8.lt_irrefl _)]
    split_ifs with hc
    · rw [hc]
      exact with_child_new
    · have hne : π ++ [c] ≠ π ++ [ch] := fun heq => hc (by simpa using heq : c = ch)
      rw [with_child_other (by simp) hne, hch.child]

end With_Child

/-- The memory that `set` is about to write the node into, when the child was not there. -/
theorem set_rewritten (hold : Holds m V) (hself : V π = some self) {A B : List Cell}
    (hch : Children m.blocks V π self (A ++ B) rest) {ch : Byte} (hA : ∀ a ∈ A, a.ch_ < ch)
    (hB : ∀ b ∈ B, ch < b.ch_) {q : Nat} (hget : Lib.Heap.get h q = some (A ++ fresh ch :: B))
    (hnew : Lib.Heap.get m.blocks q = none)
    (hkept : ∀ p cells, self.node_ ≠ some p → Lib.Heap.get m.blocks p = some cells →
      Lib.Heap.get h p = some cells) :
    Rewritten m h V (with_child V π self ch q) π
        { self with n_node_ := self.n_node_ + 1, node_ := some q } ∧
      Children h (with_child V π self ch q) π
        { self with n_node_ := self.n_node_ + 1, node_ := some q } (A ++ fresh ch :: B) [] := by
  have hnone := hch.miss hA hB
  -- a node that was there before keeps its array, for it is not the one that has moved
  have hold_array : ∀ ρ s, ρ ≠ π → V ρ = some s → ∀ p, s.node_ = some p →
      Lib.Heap.get h p = Lib.Heap.get m.blocks p := by
    intro ρ s hρ hs p hp
    obtain ⟨cs', rest', hch'⟩ := hold.arrays ρ s hs
    rw [hch'.get hp]
    exact hkept p _ (fun heq => hρ (hold.apart ρ π s self p hs hself hp heq)) (hch'.get hp)
  have hne_new : ∀ ρ s, V ρ = some s → s.node_ ≠ some q := by
    intro ρ s hs hq
    obtain ⟨cs', rest', hch'⟩ := hold.arrays ρ s hs
    rw [hch'.get hq] at hnew
    exact absurd hnew (by simp)
  have hchildren := hch.with_child hA hB hget
  refine ⟨⟨with_child_here, ?_, ?_, ?_, ?_, ?_⟩, hchildren⟩
  · exact fun ρ hρ => with_child_other (fun heq => hρ (heq ▸ List.prefix_rfl))
      fun heq => hρ (heq ▸ List.prefix_append π [ch])
  · rintro _ s ⟨τ, rfl⟩ hs
    rcases with_child_old hs with ⟨hρ, -⟩ | ⟨hρ, rfl⟩ | ⟨hρ, hρ', hs'⟩
    · rw [hρ, with_child_here] at hs
      obtain rfl := Option.some.inj hs
      rw [hρ]
      exact ⟨_, _, hchildren⟩
    · -- the new child has no array
      rw [hρ]
      refine ⟨[], [], rfl, rfl, List.Pairwise.nil, fun c => ?_⟩
      rw [with_child_other (ne_append π [ch] c) (by simp), hold.closed _ c hnone]
      rfl
    · obtain ⟨cs', rest', hch'⟩ := hold.arrays _ s hs'
      exact ⟨cs', rest', hch'.frame (hold_array _ s hρ hs') fun c =>
        with_child_other (ne_append π τ c) (concat_ne hρ c ch)⟩
  · rintro _ c ⟨τ, rfl⟩ hnone'
    have hρ : π ++ τ ≠ π := fun heq => by
      rw [heq, with_child_here] at hnone'
      exact absurd hnone' (by simp)
    have hρ' : π ++ τ ≠ π ++ [ch] := fun heq => by
      rw [heq, with_child_new] at hnone'
      exact absurd hnone' (by simp)
    rw [with_child_other hρ hρ'] at hnone'
    rw [with_child_other (ne_append π τ c) (concat_ne hρ c ch)]
    exact hold.closed _ c hnone'
  · intro ρ ρ' s s' p hs hs' hp hp'
    rcases with_child_old hs with ⟨hρ, hq⟩ | ⟨-, rfl⟩ | ⟨-, -, ht⟩
    · rcases with_child_old hs' with ⟨hρ', -⟩ | ⟨-, rfl⟩ | ⟨-, -, ht'⟩
      · rw [hρ, hρ']
      · exact absurd hp' (by simp [fresh])
      · exact absurd (hp'.trans (hp.symm.trans hq)) (hne_new ρ' s' ht')
    · exact absurd hp (by simp [fresh])
    · rcases with_child_old hs' with ⟨-, hq'⟩ | ⟨-, rfl⟩ | ⟨-, -, ht'⟩
      · exact absurd (hp.trans (hp'.symm.trans hq')) (hne_new ρ s ht)
      · exact absurd hp' (by simp [fresh])
      · exact hold.apart ρ ρ' s s' p ht ht' hp hp'
  · exact fun ρ s p hρ hs hp => hold_array ρ s (fun heq => hρ (heq ▸ List.prefix_rfl)) hs p hp

/-- **`set` of a child that is not there** adds one without a flag and without children. -/
theorem set_absent (hold : Holds m V) {P : Place} (hat : At m V π P) (hself : V π = some self)
    {ch : Byte} (hnone : V (π ++ [ch]) = none) :
    ∃ m' Q q, set junk m P ch = some (m', Q) ∧ Holds m' (with_child V π self ch q) ∧
      At m' (with_child V π self ch q) (π ++ [ch]) Q := by
  obtain ⟨cs, rest, hch⟩ := hold.arrays π self hself
  obtain ⟨A, B, rfl, hA, hB, hfind⟩ :
      ∃ A B, cs = A ++ B ∧ (∀ a ∈ A, a.ch_ < ch) ∧ (∀ b ∈ B, ch < b.ch_) ∧
        find_ junk m self ch = some (.miss A.length) := by
    refine (find_split junk hch ch).resolve_left ?_
    rintro ⟨A, x, B, p, rfl, rfl, -⟩
    rw [hch.here] at hnone
    exact absurd hnone (by simp)
  obtain ⟨h, q, hset, hget, hnew, hkept⟩ :=
    set_array junk hch (load_self junk hold hat hself) hfind
  obtain ⟨hre, hchildren⟩ := set_rewritten hold hself hch hA hB hget hnew hkept
  obtain ⟨m', hstore, hold', hsame⟩ := hold.write_back hat hself hre rfl
  have hchildren' : Children m'.blocks (with_child V π self ch q) π
      { self with n_node_ := self.n_node_ + 1, node_ := some q } (A ++ fresh ch :: B) [] :=
    hchildren.frame (fun p hp => hsame p hp) fun c => rfl
  exact ⟨m', .cell q A.length, q, by rw [hset, hstore, Option.map_some], hold',
    .cell with_child_here rfl hchildren'⟩

/-! ## §3. `clear`. -/

/-- The block `p` belongs to the node `π` or to one below it. -/
def Below (V : Family Byte Cell) (π : List Byte) (p : Nat) : Prop :=
  ∃ τ s, V (π ++ τ) = some s ∧ s.node_ = some p

theorem Below.parent {c : Byte} {p : Nat} (h : Below V (π ++ [c]) p) : Below V π p := by
  obtain ⟨τ, s, hs, hp⟩ := h
  exact ⟨c :: τ, s, by rwa [List.append_assoc, List.singleton_append] at hs, hp⟩

/-- A block belongs to one node. -/
theorem Holds.not_below (hold : Holds m V) {ρ : List Byte} {s : Cell} {p : Nat}
    (hs : V ρ = some s) (hp : s.node_ = some p) (h : ¬ π <+: ρ) : ¬ Below V π p := by
  rintro ⟨τ, t, ht, htp⟩
  exact h ⟨τ, hold.apart _ _ t s p ht hs htp hp⟩

/-- What a cleared node is. -/
def cleared (node : Cell) : Cell := { node with n_node_ := 0, node_ := none }

/-- `clear` with this fuel: whatever has become of the rest of the memory, the blocks of what is
    below the node are freed and the node is written. -/
def Clears (m : Memory) (V : Family Byte Cell) (fuel : Nat) : Prop :=
  ∀ π self P m₁, V π = some self → (∀ τ, V (π ++ τ) ≠ none → τ.length < fuel) →
    Memory.load junk m₁ P = some self →
    (∀ p, Below V π p → Lib.Heap.get m₁.blocks p = Lib.Heap.get m.blocks p) →
    ∃ h, (∀ p, ¬ Below V π p → Lib.Heap.get h p = Lib.Heap.get m₁.blocks p) ∧
      clear junk fuel m₁ P = Memory.store ⟨m₁.root, h⟩ P (cleared self)

/-- One of the children is cleared, those in front of it have been. -/
theorem clear_child (hold : Holds m V) {fuel : Nat} (hclears : Clears junk m V fuel)
    (hself : V π = some self) {p : Nat} (hp : self.node_ = some p)
    (hheight : ∀ τ, V (π ++ τ) ≠ none → τ.length < fuel + 1) {A A' B : List Cell} {x : Cell}
    (hch : Children m.blocks V π self (A ++ x :: B) rest) {m₁ : Memory} (hlen : A'.length = A.length)
    (hget : Lib.Heap.get m₁.blocks p = some (A' ++ x :: B ++ rest))
    (hbelow : ∀ p', Below V (π ++ [x.ch_]) p' →
      Lib.Heap.get m₁.blocks p' = Lib.Heap.get m.blocks p') :
    ∃ h, clear junk fuel m₁ (.cell p A.length) = some ⟨m₁.root, h⟩ ∧
      Lib.Heap.get h p = some (A' ++ [cleared x] ++ B ++ rest) ∧
      ∀ p', p' ≠ p → ¬ Below V (π ++ [x.ch_]) p' →
        Lib.Heap.get h p' = Lib.Heap.get m₁.blocks p' := by
  have hload : Memory.load junk m₁ (.cell p A.length) = some x := by
    rw [Memory.load, hget, Option.map_some, List.append_assoc, List.cons_append, ← hlen, getD_at]
  obtain ⟨h, hkeep, hclear⟩ := hclears (π ++ [x.ch_]) x (.cell p A.length) m₁ hch.here
    (fun τ hτ => by
      have hlt := hheight (x.ch_ :: τ) (by rwa [List.append_assoc] at hτ)
      rw [List.length_cons] at hlt
      omega)
    hload hbelow
  have hget' : Lib.Heap.get h p = some (A' ++ x :: B ++ rest) :=
    (hkeep p (hold.not_below hself hp (not_prefix_self π x.ch_))).trans hget
  have hput : put (A' ++ x :: B ++ rest) A.length (cleared x)
      = some (A' ++ [cleared x] ++ B ++ rest) := by
    have hat := put_at A' (B ++ rest) x (cleared x)
    rw [hlen] at hat
    simpa using hat
  refine ⟨Lib.Heap.store h p (A' ++ [cleared x] ++ B ++ rest), ?_, store_here hget' _, ?_⟩
  · rw [hclear, Memory.store, modify_eq hget' hput, Option.map_some]
  · exact fun p' hne hnot => (Lib.Heap.get_store (Ne.symm hne) _).trans (hkeep p' hnot)

/-- What is below one child is not below another. -/
theorem Holds.below_apart (hold : Holds m V) {A B : List Cell} {x b : Cell}
    (hch : Children m.blocks V π self (A ++ x :: B) rest) (hb : b ∈ B) {p : Nat}
    (hbelow : Below V (π ++ [b.ch_]) p) : ¬ Below V (π ++ [x.ch_]) p := by
  have hxb : x.ch_ ≠ b.ch_ := fun heq => by
    have hlt := (List.pairwise_cons.mp (List.pairwise_append.mp hch.sorted).2.1).1 b hb
    exact absurd (heq ▸ hlt) (UInt8.lt_irrefl _)
  obtain ⟨τ, s, hs, hsp⟩ := hbelow
  refine hold.not_below hs hsp fun hpre => hxb ?_
  rw [List.append_assoc, List.prefix_append_right_inj, List.singleton_append,
    List.cons_prefix_cons] at hpre
  exact hpre.1

/-- The children from one on are cleared, those in front of it have been. -/
theorem clear_children (hold : Holds m V) {fuel : Nat} (hclears : Clears junk m V fuel)
    (hself : V π = some self) {p : Nat} (hp : self.node_ = some p)
    (hheight : ∀ τ, V (π ++ τ) ≠ none → τ.length < fuel + 1) (B : List Cell) :
    ∀ (A A' : List Cell) (m₁ : Memory), Children m.blocks V π self (A ++ B) rest →
      A'.length = A.length → Lib.Heap.get m₁.blocks p = some (A' ++ B ++ rest) →
      (∀ b ∈ B, ∀ p', Below V (π ++ [b.ch_]) p' →
        Lib.Heap.get m₁.blocks p' = Lib.Heap.get m.blocks p') →
      ∃ m₂ cells, (List.range' A.length B.length).foldlM
            (fun m i => clear junk fuel m (.cell p i)) m₁ = some m₂ ∧
          m₂.root = m₁.root ∧ Lib.Heap.get m₂.blocks p = some cells ∧
          ∀ p', ¬ Below V π p' → Lib.Heap.get m₂.blocks p' = Lib.Heap.get m₁.blocks p' := by
  induction B with
  | nil =>
      intro A A' m₁ _ _ hget _
      exact ⟨m₁, _, rfl, rfl, hget, fun _ _ => rfl⟩
  | cons x B ih =>
      intro A A' m₁ hch hlen hget hbelow
      obtain ⟨h, hclear, hget', hother⟩ := clear_child junk hold hclears hself hp hheight hch hlen
        hget (hbelow x List.mem_cons_self)
      -- what is below the children behind it is as it was
      have hbelow' : ∀ b ∈ B, ∀ p', Below V (π ++ [b.ch_]) p' →
          Lib.Heap.get h p' = Lib.Heap.get m.blocks p' := by
        intro b hb p' hp'
        have hne : p' ≠ p := fun heq =>
          hold.not_below hself hp (not_prefix_self π b.ch_) (heq ▸ hp')
        exact (hother p' hne (hold.below_apart hch hb hp')).trans
          (hbelow b (List.mem_cons_of_mem x hb) p' hp')
      obtain ⟨m₂, cells, hfold, hroot, hcells, hrest⟩ := ih (A ++ [x]) (A' ++ [cleared x])
        ⟨m₁.root, h⟩ (by rwa [List.append_assoc, List.singleton_append]) (by simp [hlen]) hget' hbelow'
      refine ⟨m₂, cells, ?_, hroot, hcells, fun p' hp' => ?_⟩
      · rw [List.length_cons, List.range'_succ, List.foldlM_cons]
        show (clear junk fuel m₁ (.cell p A.length)).bind _ = _
        rw [hclear, Option.bind_some]
        rw [List.length_append, List.length_singleton] at hfold
        exact hfold
      · refine (hrest p' hp').trans (hother p' (fun heq => hp' ?_) fun hx => hp' hx.parent)
        exact ⟨[], self, by rwa [List.append_nil], heq ▸ hp⟩

/-- **A cleared node takes nothing with it but what is below it.** -/
theorem clear_frees (hold : Holds m V) (fuel : Nat) : Clears junk m V fuel := by
  induction fuel with
  | zero =>
      intro π self P m₁ hself hheight
      exact absurd (hheight [] (by simp [hself])) (by simp)
  | succ fuel ih =>
      intro π self P m₁ hself hheight hload hbelow
      obtain ⟨cs, rest, hch⟩ := hold.arrays π self hself
      rw [clear, hload, Option.bind_some]
      cases hp : self.node_ with
      | none =>
          have hcount : self.n_node_ = 0 := by rw [← hch.count, hch.of_none hp, List.length_nil]
          refine ⟨m₁.blocks, fun _ _ => rfl, ?_⟩
          dsimp only
          rw [if_pos hcount]
          rfl
      | some p =>
          have hown : Below V π p := ⟨[], self, by rwa [List.append_nil], hp⟩
          obtain ⟨m₂, cells, hfold, hroot, hcells, hrest⟩ := clear_children junk hold ih hself hp
            hheight cs [] [] m₁ hch rfl ((hbelow p hown).trans (hch.get hp))
            fun b hb p' hp' => hbelow p' hp'.parent
          refine ⟨Lib.Heap.free m₂.blocks p, fun p' hp' => ?_, ?_⟩
          · have hne : p ≠ p' := fun heq => hp' (heq ▸ hown)
            exact (Lib.Heap.get_free hne).trans (hrest p' hp')
          · rw [List.length_nil, hch.count, ← List.range_eq_range'] at hfold
            dsimp only
            rw [hfold, Option.bind_some, free_eq hcells, Option.bind_some, ← hroot]
            rfl

/-! ## §4. `unset`. -/

/-- The nodes behind `unset`. -/
def without_child (V : Family Byte Cell) (π : List Byte) (node : Cell) (ch : Byte) :
    Family Byte Cell :=
  Function.update (fun ρ => if π ++ [ch] <+: ρ then none else V ρ) π
    (some { node with n_node_ := node.n_node_ - 1 })

section Without_Child

variable {ch : Byte}

theorem without_child_here : without_child V π self ch π =
    some { self with n_node_ := self.n_node_ - 1 } := Function.update_self _ _ _

theorem without_child_gone {ρ : List Byte} (h : π ++ [ch] <+: ρ) :
    without_child V π self ch ρ = none := by
  have hne : ρ ≠ π := fun heq => by
    have := (heq ▸ h).length_le
    simp at this
  rw [without_child, Function.update_of_ne hne, if_pos h]

theorem without_child_other {ρ : List Byte} (h : ρ ≠ π) (hch : ¬ π ++ [ch] <+: ρ) :
    without_child V π self ch ρ = V ρ := by
  rw [without_child, Function.update_of_ne h, if_neg hch]

theorem without_child_old {ρ : List Byte} {s : Cell}
    (hs : without_child V π self ch ρ = some s) :
    ρ = π ∨ (ρ ≠ π ∧ ¬ π ++ [ch] <+: ρ ∧ V ρ = some s) := by
  by_cases h : ρ = π
  · exact Or.inl h
  · by_cases hch : π ++ [ch] <+: ρ
    · rw [without_child_gone hch] at hs
      exact absurd hs (by simp)
    · rw [without_child_other h hch] at hs
      exact Or.inr ⟨h, hch, hs⟩

end Without_Child

theorem unset_absent (hold : Holds m V) {P : Place} (hat : At m V π P) {ch : Byte}
    (hnone : V (π ++ [ch]) = none) (fuel : Nat) : unset junk fuel m P ch = some m := by
  obtain ⟨self, hself, hload⟩ := load_at junk hold hat
  obtain ⟨cs, rest, hch⟩ := hold.arrays π self hself
  rw [unset, hload, Option.bind_some]
  rcases find_split junk hch ch with ⟨A, x, B, p, rfl, rfl, -⟩ | ⟨A, B, rfl, -, -, hfind⟩
  · rw [hch.here] at hnone
    exact absurd hnone (by simp)
  · rw [hfind]
    rfl

/-- The array that `unset` leaves: the other children, and what has been copied from behind
    them. -/
theorem unset_array (hold : Holds m V) (hself : V π = some self) {A B : List Cell} {x : Cell}
    (hch : Children m.blocks V π self (A ++ x :: B) rest) {p : Nat} (hp : self.node_ = some p)
    {P : Place} (hload : m.load junk P = some self)
    (hfind : find_ junk m self x.ch_ = some (.hit A.length)) {fuel : Nat}
    (hheight : ∀ τ, V (π ++ [x.ch_] ++ τ) ≠ none → τ.length < fuel) :
    ∃ h rest', unset junk fuel m P x.ch_ = Memory.store { m with blocks := h } P
          { self with n_node_ := self.n_node_ - 1 } ∧
        Lib.Heap.get h p = some (A ++ B ++ rest') ∧
        ∀ p', p' ≠ p → ¬ Below V (π ++ [x.ch_]) p' →
          Lib.Heap.get h p' = Lib.Heap.get m.blocks p' := by
  have hget := hch.get hp
  have hcell : Memory.load junk m (.cell p A.length) = some x := by
    rw [Memory.load, hget, Option.map_some, List.append_assoc, List.cons_append, getD_at]
  -- what is below the child is freed, if there is anything
  obtain ⟨h₁, x', hclear, hget₁, hkeep⟩ : ∃ h₁ x',
      (if x.n_node_ ≠ 0 then clear junk fuel m (.cell p A.length) else some m)
          = some { m with blocks := h₁ } ∧
        Lib.Heap.get h₁ p = some (A ++ x' :: B ++ rest) ∧
        ∀ p', p' ≠ p → ¬ Below V (π ++ [x.ch_]) p' →
          Lib.Heap.get h₁ p' = Lib.Heap.get m.blocks p' := by
    by_cases hn : x.n_node_ = 0
    · exact ⟨m.blocks, x, if_neg (not_not.mpr hn), hget, fun _ _ _ => rfl⟩
    · obtain ⟨h, hkeep, hclear⟩ := clear_frees junk hold fuel (π ++ [x.ch_]) x (.cell p A.length) m
        hch.here hheight hcell fun _ _ => rfl
      have hown : ¬ Below V (π ++ [x.ch_]) p := hold.not_below hself hp (not_prefix_self π x.ch_)
      have hget' := (hkeep p hown).trans hget
      refine ⟨Lib.Heap.store h p (A ++ cleared x :: B ++ rest), cleared x, ?_, store_here hget' _,
        fun p' hne hnot => (Lib.Heap.get_store (Ne.symm hne) _).trans (hkeep p' hnot)⟩
      rw [if_pos hn, hclear, Memory.store, modify_eq hget' (put_in A B rest x _), Option.map_some]
  obtain ⟨rest', hcopy⟩ := copy_down_gap (junk p) A B rest x'
  have hcount : self.n_node_ - A.length = B.length + 1 := by
    rw [← hch.count, List.length_append, List.length_cons]
    omega
  rw [List.append_assoc, List.cons_append] at hget₁
  refine ⟨Lib.Heap.store h₁ p (A ++ B ++ rest'), rest', ?_, store_here hget₁ _,
    fun p' hne hnot => (Lib.Heap.get_store (Ne.symm hne) _).trans (hkeep p' hne hnot)⟩
  rw [unset, hload, Option.bind_some, hfind, Option.bind_some]
  dsimp only
  rw [hp, Option.bind_some, hcell, Option.bind_some, hclear, Option.bind_some, hcount,
    modify_eq hget₁ hcopy, Option.bind_some]

/-- The memory that `unset` is about to write the node into, when the child was there. -/
theorem unset_rewritten (hold : Holds m V) (hself : V π = some self) {A B rest' : List Cell}
    {x : Cell} (hch : Children m.blocks V π self (A ++ x :: B) rest) {p : Nat}
    (hp : self.node_ = some p) (hget : Lib.Heap.get h p = some (A ++ B ++ rest'))
    (hkeep : ∀ p', p' ≠ p → ¬ Below V (π ++ [x.ch_]) p' →
      Lib.Heap.get h p' = Lib.Heap.get m.blocks p') :
    Rewritten m h V (without_child V π self x.ch_) π { self with n_node_ := self.n_node_ - 1 } := by
  -- a node that stays keeps its array, for it is neither the one that changes nor below the child
  have hold_array : ∀ ρ s, ρ ≠ π → ¬ π ++ [x.ch_] <+: ρ → V ρ = some s → ∀ q, s.node_ = some q →
      Lib.Heap.get h q = Lib.Heap.get m.blocks q := by
    intro ρ s hρ hpre hs q hq
    refine hkeep q (fun heq => hρ ?_) (hold.not_below hs hq hpre)
    exact hold.apart ρ π s self p hs hself (heq ▸ hq) hp
  have hold_node : ∀ ρ s, without_child V π self x.ch_ ρ = some s →
      ∃ s', V ρ = some s' ∧ s'.node_ = s.node_ := by
    intro ρ s hs
    rcases without_child_old hs with rfl | ⟨-, -, hs'⟩
    · rw [without_child_here] at hs
      exact ⟨self, hself, by rw [← Option.some.inj hs]⟩
    · exact ⟨s, hs', rfl⟩
  refine ⟨without_child_here, ?_, ?_, ?_, ?_, ?_⟩
  · exact fun ρ hρ => without_child_other (fun heq => hρ (heq ▸ List.prefix_rfl))
      fun hpre => hρ ((List.prefix_append π [x.ch_]).trans hpre)
  · rintro _ s ⟨τ, rfl⟩ hs
    rcases without_child_old hs with hρ | ⟨hρ, hpre, hs'⟩
    · rw [hρ, without_child_here] at hs
      obtain rfl := Option.some.inj hs
      rw [hρ]
      exact ⟨_, _, hch.erase hp hget (without_child_gone List.prefix_rfl) fun c hc =>
        without_child_other (by simp) fun hpre => hc (by simpa using (hpre.eq_of_length (by simp)).symm)⟩
    · obtain ⟨cs', rest'', hch'⟩ := hold.arrays _ s hs'
      refine ⟨cs', rest'', hch'.frame (hold_array _ s hρ hpre hs') fun c => ?_⟩
      refine without_child_other (ne_append π τ c) fun hpre' => ?_
      cases List.prefix_concat_iff.mp hpre' with
      | inl heq => exact concat_ne hρ c x.ch_ heq.symm
      | inr hin => exact hpre hin
  · rintro _ c ⟨τ, rfl⟩ hnone
    have hρ : π ++ τ ≠ π := fun heq => by
      rw [heq, without_child_here] at hnone
      exact absurd hnone (by simp)
    by_cases hpre : π ++ [x.ch_] <+: π ++ τ ++ [c]
    · exact without_child_gone hpre
    · have hpre' : ¬ π ++ [x.ch_] <+: π ++ τ := fun h => hpre (h.trans (List.prefix_append _ _))
      rw [without_child_other hρ hpre'] at hnone
      rw [without_child_other (ne_append π τ c) hpre]
      exact hold.closed _ c hnone
  · intro ρ ρ' s s' q hs hs' hq hq'
    obtain ⟨t, ht, htn⟩ := hold_node ρ s hs
    obtain ⟨t', ht', htn'⟩ := hold_node ρ' s' hs'
    exact hold.apart ρ ρ' t t' q ht ht' (htn.trans hq) (htn'.trans hq')
  · exact fun ρ s q hρ hs hq => hold_array ρ s (fun heq => hρ (heq ▸ List.prefix_rfl))
      (fun hpre => hρ ((List.prefix_append π [x.ch_]).trans hpre)) hs q hq

/-- **`unset` of a child that is there** takes it away, with what is below it. -/
theorem unset_present (hold : Holds m V) {P : Place} (hat : At m V π P) (hself : V π = some self)
    {ch : Byte} (hchild : V (π ++ [ch]) ≠ none) {fuel : Nat}
    (hheight : ∀ τ, V (π ++ [ch] ++ τ) ≠ none → τ.length < fuel) :
    ∃ m', unset junk fuel m P ch = some m' ∧ Holds m' (without_child V π self ch) := by
  obtain ⟨cs, rest, hch⟩ := hold.arrays π self hself
  obtain ⟨A, x, B, p, rfl, rfl, hp, hfind⟩ :
      ∃ A x B p, cs = A ++ x :: B ∧ x.ch_ = ch ∧ self.node_ = some p ∧
        find_ junk m self ch = some (.hit A.length) := by
    refine (find_split junk hch ch).resolve_right ?_
    rintro ⟨A, B, rfl, hA, hB, -⟩
    exact hchild (hch.miss hA hB)
  obtain ⟨h, rest', hunset, hget, hkeep⟩ :=
    unset_array junk hold hself hch hp (load_self junk hold hat hself) hfind hheight
  obtain ⟨m', hstore, hold', -⟩ :=
    hold.write_back hat hself (unset_rewritten hold hself hch hp hget hkeep) rfl
  exact ⟨m', hunset.trans hstore, hold'⟩

end Held

end Aos.Node_Memory
