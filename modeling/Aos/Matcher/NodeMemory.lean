/-
  Aos.Matcher.NodeMemory — `Char_Node` as it lies in memory.

  The children of a node are an array on the heap, and each holds the pointer to its
  own.  `set` makes room in the array with `realloc` and copies of single cells, that
  carry a child's pointer along; `unset` frees what is below a child and copies the
  later ones over it.  The array stays when its last child is gone.

  The invariant is `Holds`: the children of each node are the first cells of its
  array, in order, and no two nodes share an array.

  Main results:
    • `find_split`, `walk_at` — what `find` gives at a node, and where it leads to;
    • `Children.count_le` — a node has at most 256 children, and `n_node_` holds their number;
    • `Holds.write_back` — a node that is written, with new arrays below it.
-/
import Aos.Lib.Blocks
import Aos.Lib.Trie
import Aos.Matcher.CharNode

namespace Aos.Node_Memory

open Lib.Bisect Lib.Blocks
open Lib.Heap (get)
open Lib.Packed (getD_at)
open Lib.Trie (Family Op)
open Char_Node

/-! ## §1. The node in memory. -/

/-- A `Char_Node`; `node_` is the block its children are in.  A byte has at most 256 children,
    so that `n_node_` never leaves a `short`. -/
structure Cell where
  ch_ : Byte
  flag_ : Byte
  n_node_ : Nat
  node_ : Option Nat
  deriving DecidableEq

/-- A `Char_Node*`: the node that all calls begin with, or a cell of an array. -/
inductive Place
  | root
  | cell (p i : Nat)
  deriving DecidableEq

structure Memory where
  root : Cell
  blocks : Arrays Cell

namespace Memory

/-- `Char_Node(ch, flag)` -/
def new (ch flag : Byte) : Memory := ⟨⟨ch, flag, 0, none⟩, []⟩

variable (junk : Nat → Nat → Cell)

def load (m : Memory) : Place → Option Cell
  | .root => some m.root
  | .cell p i => (get m.blocks p).map fun cells => cells.getD i (junk p i)

def store (m : Memory) : Place → Cell → Option Memory
  | .root, c => some { m with root := c }
  | .cell p i, c => (modify m.blocks p (put · i c)).map fun h => { m with blocks := h }

end Memory

section Calls

variable (junk : Nat → Nat → Cell)

/-- `find_(ch, insert)`, for the node `self` -/
def find_ (m : Memory) (self : Cell) (ch : Byte) : Option Outcome :=
  match self.node_ with
  -- `insert` is not used by the callers
  | none => some (.miss 0)
  | some p =>
      (get m.blocks p).map fun cells =>
        bisect (fun mid =>
            let pn := cells.getD mid (junk p mid)
            if ch = pn.ch_ then .eq else if ch < pn.ch_ then .lt else .gt)
          0 ((self.n_node_ : Int) - 1)

/-- `find(ch)`: the child, where there is one. -/
def find (m : Memory) (this : Place) (ch : Byte) : Option (Option Place) :=
  (m.load junk this).bind fun self =>
    (find_ junk m self ch).bind fun
      | .hit mid => self.node_.map fun p => some (.cell p mid)
      | .miss _ => some none

/-- `set(ch)`: the child that is returned. -/
def set (m : Memory) (this : Place) (ch : Byte) : Option (Memory × Place) :=
  (m.load junk this).bind fun self =>
    (find_ junk m self ch).bind fun
      -- if exists, do nothing
      | .hit mid => self.node_.map fun p => (m, .cell p mid)
      | .miss insert =>
          match self.node_ with
          | some p =>
              (realloc junk m.blocks p (self.n_node_ + 1)).bind fun (h, q) =>
                (modify h q (copy_up (junk q) insert self.n_node_)).bind fun h =>
                  added h q insert self
          | none =>
              let (h, q) := malloc junk m.blocks 1
              added h q 0 self
where
  /-- a node without children, and `++n_node_` -/
  added (h : Arrays Cell) (q i : Nat) (self : Cell) : Option (Memory × Place) :=
    (modify h q (put · i ⟨ch, 0, 0, none⟩)).bind fun h =>
      ({ m with blocks := h }.store this
        { self with n_node_ := self.n_node_ + 1, node_ := some q }).map (·, .cell q i)

/-- `clear()`; `fuel` is more than the height of what is below the node. -/
def clear : Nat → Memory → Place → Option Memory
  | 0, _, _ => none
  | fuel + 1, m, this =>
      (m.load junk this).bind fun self =>
        match self.node_ with
        | none =>
            if self.n_node_ = 0 then m.store this { self with n_node_ := 0, node_ := none } else none
        | some p =>
            -- clear nodes in child nodes first
            ((List.range self.n_node_).foldlM (fun m i => clear fuel m (.cell p i)) m).bind fun m =>
              (Lib.Blocks.free m.blocks p).bind fun h =>
                { m with blocks := h }.store this { self with n_node_ := 0, node_ := none }

/-- `unset(ch)` -/
def unset (fuel : Nat) (m : Memory) (this : Place) (ch : Byte) : Option Memory :=
  (m.load junk this).bind fun self =>
    (find_ junk m self ch).bind fun
      | .miss _ => some m
      | .hit mid =>
          self.node_.bind fun p =>
            (m.load junk (.cell p mid)).bind fun pn =>
              (if pn.n_node_ ≠ 0 then clear junk fuel m (.cell p mid) else some m).bind fun m =>
                (modify m.blocks p (copy_down (junk p) (self.n_node_ - mid) mid)).bind fun h =>
                  { m with blocks := h }.store this { self with n_node_ := self.n_node_ - 1 }

/-- `flag(flag)` -/
def flag (m : Memory) (this : Place) (flag : Byte) : Option Memory :=
  (m.load junk this).bind fun self => m.store this { self with flag_ := flag }

/-- The node that `find` leads to, character by character. -/
def walk (m : Memory) : Place → List Byte → Option (Option Place)
  | this, [] => some (some this)
  | this, ch :: π =>
      (find junk m this ch).bind fun
        | none => some none
        | some pn => walk m pn π

/-- A call at the node `π`; where there is none, nobody can make it. -/
def step (fuel : Nat) (m : Memory) (op : Op Byte Byte) : Option Memory :=
  match op with
  | .set π ch =>
      (walk junk m .root π).bind fun
        | none => some m
        | some this => (set junk m this ch).map Prod.fst
  | .unset π ch =>
      (walk junk m .root π).bind fun
        | none => some m
        | some this => unset junk fuel m this ch
  | .label π f =>
      (walk junk m .root π).bind fun
        | none => some m
        | some this => flag junk m this f

/-- A program's calls, one after the other. -/
def run (fuel : Nat) (m : Memory) (ops : List (Op Byte Byte)) : Option Memory :=
  ops.foldlM (step junk fuel) m

end Calls

/-! ## §2. What a memory holds. -/

/-- The array of a node. -/
def array (h : Arrays Cell) (self : Cell) : Option (List Cell) :=
  match self.node_ with
  | none => some []
  | some p => get h p

/-- The children of the node `π` are the first cells of its array, in order. -/
structure Children (h : Arrays Cell) (V : Family Byte Cell) (π : List Byte) (node : Cell)
    (cs rest : List Cell) : Prop where
  array : array h node = some (cs ++ rest)
  count : cs.length = node.n_node_
  sorted : cs.Pairwise fun a b => a.ch_ < b.ch_
  child : ∀ c, V (π ++ [c]) = cs.find? fun x => x.ch_ = c

/-- The nodes in the memory are those of `V`, and no two of them share an array. -/
structure Holds (m : Memory) (V : Family Byte Cell) : Prop where
  root : V [] = some m.root
  closed : ∀ π c, V π = none → V (π ++ [c]) = none
  arrays : ∀ π self, V π = some self → ∃ cs rest, Children m.blocks V π self cs rest
  apart : ∀ π π' self self' p, V π = some self → V π' = some self' →
    self.node_ = some p → self'.node_ = some p → π = π'

/-- Where the node `π` lies. -/
inductive At (m : Memory) (V : Family Byte Cell) : List Byte → Place → Prop
  | root : At m V [] .root
  | cell {σ : List Byte} {s x : Cell} {p : Nat} {A B rest : List Cell} :
      V σ = some s → s.node_ = some p → Children m.blocks V σ s (A ++ x :: B) rest →
      At m V (σ ++ [x.ch_]) (.cell p A.length)

theorem not_prefix_self (π : List Byte) (c : Byte) : ¬ π ++ [c] <+: π := fun hpre => by
  have := hpre.length_le
  simp at this

theorem concat_ne {ρ π : List Byte} (h : ρ ≠ π) (c d : Byte) : ρ ++ [c] ≠ π ++ [d] :=
  fun heq => h (List.append_inj_left' heq rfl)

section Held

variable {h h' : Arrays Cell} {m : Memory} {V V' : Family Byte Cell} {π : List Byte}
  {self : Cell} {cs rest : List Cell}

theorem holds_new (ch flag : Byte) :
    Holds (.new ch flag) fun ρ => if ρ = [] then some ⟨ch, flag, 0, none⟩ else none := by
  have honly : ∀ {ρ : List Byte} {self : Cell},
      (if ρ = [] then some (⟨ch, flag, 0, none⟩ : Cell) else none) = some self →
        ρ = [] ∧ self = ⟨ch, flag, 0, none⟩ := by
    intro ρ self hself
    split_ifs at hself with hρ
    exact ⟨hρ, (Option.some.inj hself).symm⟩
  refine ⟨rfl, fun π c _ => if_neg (by simp), ?_, ?_⟩
  · intro π self hself
    obtain ⟨rfl, rfl⟩ := honly hself
    exact ⟨[], [], rfl, rfl, List.Pairwise.nil, fun c => if_neg (by simp)⟩
  · intro π π' self self' p hself hself' _ _
    rw [(honly hself).1, (honly hself').1]

theorem Children.get (hch : Children h V π self cs rest) {p : Nat} (hp : self.node_ = some p) :
    Lib.Heap.get h p = some (cs ++ rest) := by
  have harray := hch.array
  rw [Node_Memory.array, hp] at harray
  exact harray

theorem Children.of_none (hch : Children h V π self cs rest) (hp : self.node_ = none) :
    cs = [] := by
  have harray := hch.array
  rw [Node_Memory.array, hp] at harray
  exact (List.append_eq_nil_iff.mp (Option.some.inj harray).symm).1

/-- The characters of the children differ: their number is a `short`. -/
theorem Children.count_le (hch : Children h V π self cs rest) : self.n_node_ ≤ 256 := by
  have hnodup : (cs.map fun x => x.ch_.toNat).Nodup := by
    rw [List.Nodup, List.pairwise_map]
    exact hch.sorted.imp fun hab => (UInt8.lt_iff_toNat_lt.mp hab).ne
  have hsub : (cs.map fun x => x.ch_.toNat) ⊆ List.range 256 := by
    intro n hn
    obtain ⟨x, -, rfl⟩ := List.mem_map.mp hn
    exact List.mem_range.mpr x.ch_.toNat_lt
  have hle := (hnodup.subperm hsub).length_le
  rwa [List.length_map, hch.count, List.length_range] at hle

/-- The child in a cell. -/
theorem Children.here {A B : List Cell} {x : Cell}
    (hch : Children h V π self (A ++ x :: B) rest) : V (π ++ [x.ch_]) = some x := by
  rw [hch.child, find?_around Cell.ch_ (ne_of_sorted Cell.ch_ hch.sorted), if_pos rfl]

/-- No child has a character that lies between theirs. -/
theorem Children.miss {A B : List Cell} {ch : Byte} (hch : Children h V π self (A ++ B) rest)
    (hA : ∀ a ∈ A, a.ch_ < ch) (hB : ∀ b ∈ B, ch < b.ch_) : V (π ++ [ch]) = none := by
  rw [hch.child, List.find?_eq_none]
  intro x hx
  have hne : x.ch_ ≠ ch := by
    cases List.mem_append.mp hx with
    | inl hx => exact fun heq => absurd (heq ▸ hA x hx) (UInt8.lt_irrefl ch)
    | inr hx => exact fun heq => absurd (heq ▸ hB x hx) (UInt8.lt_irrefl ch)
  simpa using hne

/-- One of the children is written, and keeps its character. -/
theorem Children.replace {A B : List Cell} {x y : Cell} {p : Nat}
    (hch : Children h V π self (A ++ x :: B) rest) (hp : self.node_ = some p)
    (hy : y.ch_ = x.ch_) (hget : Lib.Heap.get h' p = some (A ++ y :: B ++ rest))
    (hhere : V' (π ++ [x.ch_]) = some y) (hother : ∀ c, c ≠ x.ch_ → V' (π ++ [c]) = V (π ++ [c])) :
    Children h' V' π self (A ++ y :: B) rest := by
  have hne := ne_of_sorted Cell.ch_ hch.sorted
  refine ⟨?_, ?_, sorted_replace Cell.ch_ hy hch.sorted, fun c => ?_⟩
  · rw [Node_Memory.array, hp]
    exact hget
  · rw [← hch.count]
    simp
  · rw [find?_around Cell.ch_ (by rwa [hy]), hy]
    split_ifs with hc
    · rw [hc, hhere]
    · rw [hother c hc, hch.child, find?_around Cell.ch_ hne, if_neg hc]

/-- One of the children is taken away. -/
theorem Children.erase {A B rest' : List Cell} {x : Cell} {p : Nat}
    (hch : Children h V π self (A ++ x :: B) rest) (hp : self.node_ = some p)
    (hget : Lib.Heap.get h' p = some (A ++ B ++ rest'))
    (hgone : V' (π ++ [x.ch_]) = none) (hother : ∀ c, c ≠ x.ch_ → V' (π ++ [c]) = V (π ++ [c])) :
    Children h' V' π { self with n_node_ := self.n_node_ - 1 } (A ++ B) rest' := by
  have hne := ne_of_sorted Cell.ch_ hch.sorted
  have hsub : (A ++ B).Sublist (A ++ x :: B) := (List.sublist_cons_self x B).append_left A
  refine ⟨?_, ?_, hch.sorted.sublist hsub, fun c => ?_⟩
  · rw [Node_Memory.array]
    dsimp only
    rw [hp]
    exact hget
  · rw [← hch.count]
    simp only [List.length_append, List.length_cons]
    omega
  · by_cases hc : c = x.ch_
    · rw [hc, hgone]
      symm
      rw [List.find?_eq_none]
      intro y hy
      cases List.mem_append.mp hy with
      | inl hy => simpa using hne y hy
      | inr hy =>
          -- the characters behind the child are larger
          have hlt := (List.pairwise_cons.mp (List.pairwise_append.mp hch.sorted).2.1).1 y hy
          have hne' : y.ch_ ≠ x.ch_ := fun heq => absurd (heq ▸ hlt) (UInt8.lt_irrefl _)
          simpa using hne'
    · rw [hother c hc, hch.child, find?_around Cell.ch_ hne, if_neg hc]

/-- Other blocks and other nodes play no part. -/
theorem Children.frame (hch : Children h V π self cs rest)
    (hget : ∀ p, self.node_ = some p → Lib.Heap.get h' p = Lib.Heap.get h p)
    (hV : ∀ c, V' (π ++ [c]) = V (π ++ [c])) : Children h' V' π self cs rest := by
  refine ⟨?_, hch.count, hch.sorted, fun c => (hV c).trans (hch.child c)⟩
  rw [← hch.array]
  unfold Node_Memory.array
  cases hp : self.node_ with
  | none => rfl
  | some p => exact hget p hp

theorem Holds.above (hold : Holds m V) (τ : List Byte) (h : V π = none) : V (π ++ τ) = none := by
  induction τ generalizing π with
  | nil => rwa [List.append_nil]
  | cons c τ ih =>
      have := ih (hold.closed π c h)
      rwa [List.append_assoc, List.singleton_append] at this

variable (junk : Nat → Nat → Cell)

theorem load_at (hold : Holds m V) {P : Place} (hat : At m V π P) :
    ∃ self, V π = some self ∧ m.load junk P = some self := by
  cases hat with
  | root => exact ⟨m.root, hold.root, rfl⟩
  | @cell σ s x p A B rest hσ hp hch =>
      refine ⟨x, hch.here, ?_⟩
      rw [Memory.load, hch.get hp, Option.map_some, List.append_assoc, List.cons_append, getD_at]

theorem load_self (hold : Holds m V) {P : Place} (hat : At m V π P) (hself : V π = some self) :
    m.load junk P = some self := by
  obtain ⟨self', hself', hload⟩ := load_at junk hold hat
  rw [hload, ← hself', hself]

/-- **The search at a node**: its child for the character, and where it lies, or the children
    below and above. -/
theorem find_split (hch : Children m.blocks V π self cs rest) (ch : Byte) :
    (∃ A x B p, cs = A ++ x :: B ∧ x.ch_ = ch ∧ self.node_ = some p ∧
        find_ junk m self ch = some (.hit A.length)) ∨
      ∃ A B, cs = A ++ B ∧ (∀ a ∈ A, a.ch_ < ch) ∧ (∀ b ∈ B, ch < b.ch_) ∧
        find_ junk m self ch = some (.miss A.length) := by
  unfold find_
  cases hp : self.node_ with
  | none =>
      rw [hch.of_none hp]
      exact Or.inr ⟨[], [], rfl, by simp, by simp, rfl⟩
  | some p =>
      have hsplit := bisect_split (fun x : Cell => order ch x.ch_)
        (hch.sorted.imp fun hab => order_lt_of_lt hab)
        (fun mid => order ch ((cs ++ rest).getD mid (junk p mid)).ch_) (by
          intro i hi
          rw [List.getD, List.getElem?_append_left hi, List.getElem?_eq_getElem hi,
            Option.getD_some])
      simp only [order_eq, order_lt, order_gt] at hsplit
      dsimp only
      rw [hch.get hp, Option.map_some, ← hch.count]
      cases hsplit with
      | inl hhit =>
          obtain ⟨A, x, B, hcs, hx, hfind⟩ := hhit
          exact Or.inl ⟨A, x, B, p, hcs, hx, rfl, congrArg some hfind⟩
      | inr hmiss =>
          obtain ⟨A, B, hcs, hA, hB, hfind⟩ := hmiss
          exact Or.inr ⟨A, B, hcs, hA, hB, congrArg some hfind⟩

theorem find_at (hold : Holds m V) {P : Place} (hat : At m V π P) (ch : Byte) :
    (V (π ++ [ch]) = none ∧ find junk m P ch = some none) ∨
      ∃ Q, find junk m P ch = some (some Q) ∧ At m V (π ++ [ch]) Q := by
  obtain ⟨self, hself, hload⟩ := load_at junk hold hat
  obtain ⟨cs, rest, hch⟩ := hold.arrays π self hself
  unfold find
  rw [hload, Option.bind_some]
  rcases find_split junk hch ch with ⟨A, x, B, p, rfl, rfl, hp, hfind⟩ | ⟨A, B, rfl, hA, hB, hfind⟩
  · refine Or.inr ⟨.cell p A.length, ?_, .cell hself hp hch⟩
    rw [hfind, Option.bind_some]
    dsimp only
    rw [hp]
    rfl
  · exact Or.inl ⟨hch.miss hA hB, by rw [hfind]; rfl⟩

/-- **Where `find` leads to**, character by character. -/
theorem walk_at (hold : Holds m V) (τ : List Byte) {P : Place} (hat : At m V π P) :
    (V (π ++ τ) = none ∧ walk junk m P τ = some none) ∨
      ∃ Q, walk junk m P τ = some (some Q) ∧ At m V (π ++ τ) Q := by
  induction τ generalizing π P with
  | nil =>
      rw [List.append_nil]
      exact Or.inr ⟨P, rfl, hat⟩
  | cons c τ ih =>
      have hsplit : π ++ c :: τ = π ++ [c] ++ τ := by simp
      rw [walk, hsplit]
      rcases find_at junk hold hat c with ⟨hnone, hfind⟩ | ⟨Q, hfind, hQ⟩
      · exact Or.inl ⟨hold.above τ hnone, by rw [hfind]; rfl⟩
      · rw [hfind, Option.bind_some]
        exact ih hQ

/-- An element in order has one place. -/
theorem place_unique {A A' B B' : List Cell} {x x' : Cell}
    (hs : (A ++ x :: B).Pairwise fun a b => a.ch_ < b.ch_) (h : A ++ x :: B = A' ++ x' :: B')
    (hx : x.ch_ = x'.ch_) : A.length = A'.length := by
  have hA := ne_of_sorted Cell.ch_ hs
  have hA' := ne_of_sorted Cell.ch_ (h ▸ hs)
  rcases List.append_eq_append_iff.mp h with ⟨C, rfl, hC⟩ | ⟨C, rfl, hC⟩
  · cases C with
    | nil => rw [List.append_nil]
    | cons c C =>
        -- `x` would be in front of `x'`
        obtain rfl := (List.cons.inj hC).1
        exact absurd hx (hA' x (by simp))
  · cases C with
    | nil => rw [List.append_nil]
    | cons c C =>
        obtain rfl := (List.cons.inj hC).1
        exact absurd hx.symm (hA x' (by simp))

theorem At.unique {P Q : Place} (hP : At m V π P) (hQ : At m V π Q) : P = Q := by
  generalize hρ : π = ρ at hQ
  cases hP with
  | root =>
      cases hQ with
      | root => rfl
      | cell _ _ _ => exact absurd hρ (by simp)
  | @cell σ s x p A B rest hσ hp hch =>
      cases hQ with
      | root => exact absurd hρ (by simp)
      | @cell σ' s' x' p' A' B' rest' hσ' hp' hch' =>
          obtain ⟨rfl, hx⟩ := List.append_inj' hρ rfl
          obtain rfl := Option.some.inj (hσ.symm.trans hσ')
          obtain rfl := Option.some.inj (hp.symm.trans hp')
          have hcells := Option.some.inj ((hch.get hp).symm.trans (hch'.get hp))
          have hcs := (List.append_inj hcells (hch.count.trans hch'.count.symm)).1
          rw [place_unique hch.sorted hcs (List.cons.inj hx).1]

/-- The blocks `h` and the nodes `V'`, when the node `π` is about to be written: all that is new
    is that node and what is below it. -/
structure Rewritten (m : Memory) (h : Arrays Cell) (V V' : Family Byte Cell) (π : List Byte)
    (node : Cell) : Prop where
  here : V' π = some node
  outside : ∀ ρ, ¬ π <+: ρ → V' ρ = V ρ
  inside : ∀ ρ s, π <+: ρ → V' ρ = some s → ∃ cs rest, Children h V' ρ s cs rest
  closed : ∀ ρ c, π <+: ρ → V' ρ = none → V' (ρ ++ [c]) = none
  apart : ∀ ρ ρ' s s' p, V' ρ = some s → V' ρ' = some s' →
    s.node_ = some p → s'.node_ = some p → ρ = ρ'
  frame : ∀ ρ s p, ¬ π <+: ρ → V ρ = some s → s.node_ = some p →
    Lib.Heap.get h p = Lib.Heap.get m.blocks p

/-- **Writing a node back**: it keeps its character, and the node above it its other children. -/
theorem Holds.write_back (hold : Holds m V) {P : Place} (hat : At m V π P)
    (hself : V π = some self) {node : Cell} (hre : Rewritten m h V V' π node)
    (hch : node.ch_ = self.ch_) :
    ∃ m', Memory.store { m with blocks := h } P node = some m' ∧ Holds m' V' ∧
      ∀ q, node.node_ = some q → Lib.Heap.get m'.blocks q = Lib.Heap.get h q := by
  cases hat with
  | root =>
      have hall : ∀ ρ : List Byte, [] <+: ρ := fun ρ => List.nil_prefix
      exact ⟨⟨node, h⟩, rfl, ⟨hre.here, fun ρ c => hre.closed ρ c (hall ρ),
        fun ρ s => hre.inside ρ s (hall ρ), hre.apart⟩, fun q _ => rfl⟩
  | @cell σ s x p A B rest hσ hp hchσ =>
      obtain rfl := Option.some.inj (hchσ.here.symm.trans hself)
      have hnot := not_prefix_self σ x.ch_
      have hσ' : V' σ = some s := (hre.outside σ hnot).trans hσ
      -- one cell is written, in the array of the node above
      have hget : Lib.Heap.get h p = some (A ++ x :: B ++ rest) :=
        (hre.frame σ s p hnot hσ hp).trans (hchσ.get hp)
      have hother : ∀ q, q ≠ p →
          Lib.Heap.get (Lib.Heap.store h p (A ++ node :: B ++ rest)) q = Lib.Heap.get h q :=
        fun q hq => Lib.Heap.get_store (Ne.symm hq) _
      have hbelow : ∀ ρ s' q, σ ++ [x.ch_] <+: ρ → V' ρ = some s' → s'.node_ = some q → q ≠ p := by
        intro ρ s' q hρ hs' hq hqp
        exact hnot (hre.apart ρ σ s' s p hs' hσ' (hqp ▸ hq) hp ▸ hρ)
      have hchild : ∀ ρ c, ¬ σ ++ [x.ch_] <+: ρ → ρ ≠ σ ∨ c ≠ x.ch_ →
          V' (ρ ++ [c]) = V (ρ ++ [c]) := by
        intro ρ c hρ hne
        refine hre.outside _ fun hpre => ?_
        cases List.prefix_concat_iff.mp hpre with
        | inl heq =>
            obtain ⟨rfl, hc⟩ := List.append_inj' heq rfl
            exact hne.elim (fun h => h rfl) fun h => h (List.cons.inj hc).1.symm
        | inr hin => exact hρ hin
      refine ⟨⟨m.root, Lib.Heap.store h p (A ++ node :: B ++ rest)⟩, ?_, ⟨?_, ?_, ?_, hre.apart⟩, ?_⟩
      · rw [Memory.store, modify_eq hget (put_in A B rest x node), Option.map_some]
      · exact (hre.outside [] fun hpre => absurd (List.prefix_nil.mp hpre) (by simp)).trans hold.root
      · intro ρ c hρ
        by_cases hin : σ ++ [x.ch_] <+: ρ
        · exact hre.closed ρ c hin hρ
        · rw [hre.outside ρ hin] at hρ
          rw [hchild ρ c hin (Or.inl fun heq => by rw [heq, hσ] at hρ; exact absurd hρ (by simp))]
          exact hold.closed ρ c hρ
      · intro ρ s' hs'
        by_cases hin : σ ++ [x.ch_] <+: ρ
        · obtain ⟨cs, rest', hch'⟩ := hre.inside ρ s' hin hs'
          exact ⟨cs, rest', hch'.frame (fun q hq => hother q (hbelow ρ s' q hin hs' hq))
            fun c => rfl⟩
        · rw [hre.outside ρ hin] at hs'
          by_cases hρ : ρ = σ
          · subst hρ
            obtain rfl := Option.some.inj (hσ.symm.trans hs')
            exact ⟨_, _, hchσ.replace hp hch (store_here hget _) hre.here
              fun c hc => hchild ρ c hnot (Or.inr hc)⟩
          · obtain ⟨cs, rest', hch'⟩ := hold.arrays ρ s' hs'
            refine ⟨cs, rest', hch'.frame (fun q hq => ?_) fun c => hchild ρ c hin (Or.inl hρ)⟩
            have hqp : q ≠ p := fun hqp => hρ (hold.apart ρ σ s' s p hs' hσ (hqp ▸ hq) hp)
            exact (hother q hqp).trans (hre.frame ρ s' q hin hs' hq)
      · exact fun q hq => hother q (hbelow _ node q List.prefix_rfl hre.here hq)

end Held

end Aos.Node_Memory
