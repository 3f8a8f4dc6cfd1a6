/-
  Aos.Matcher.CharNode — `Char_Node`, a node of a byte trie.

  The children of a node lie in one array, ordered by their character: `find_`
  searches it by bisection and `set` makes room for a new child by copying the
  later ones up, one cell at a time.

  The invariant is `Ok`: the children's characters increase, at every node
  below too.  **`find_update`** says what entering at a character means for
  later lookups, so the users of a node never look into the array.
-/
import Aos.Byte
import Aos.Lib.Bisect
import Aos.Lib.Packed

namespace Aos

open Lib.Bisect

/-! ## §1. The node. -/

structure Char_Node where
  ch_ : Byte
  flag_ : Byte
  node_ : List Char_Node

namespace Char_Node

def Match : Byte := 0x01

def new (ch : Byte) (flag : Byte) : Char_Node := ⟨ch, flag, []⟩

/-- What stands in a cell that `realloc` has added. -/
instance : Inhabited Char_Node := ⟨new 0 0⟩

/-- What the search for `ch` learns at place `mid`. -/
def probe (node : List Char_Node) (ch : Byte) (mid : Nat) : Ordering :=
  let pn := node.getD mid default
  if ch = pn.ch_ then .eq
  else if ch < pn.ch_ then .lt
  else .gt

def find_ (node : Char_Node) (ch : Byte) : Outcome :=
  bisect (probe node.node_ ch) 0 ((node.node_.length : Int) - 1)

/-- `find(ch)`: the child for `ch`. -/
def find (node : Char_Node) (ch : Byte) : Option Char_Node :=
  match node.find_ ch with
  | .hit mid => node.node_[mid]?
  | .miss _ => none

/-- `for(int i = n_node_; i > insert; --i) memcpy(node_+i, node_+i-1)`. -/
def shift_copy (insert : Nat) : Nat → List Char_Node → List Char_Node
  | 0, node => node
  | i + 1, node =>
      if i + 1 > insert then shift_copy insert i (node.set (i + 1) (node.getD i default))
      else node

/-- `set(ch)`: the node, and where in its array the child for `ch` now lies. -/
def set (node : Char_Node) (ch : Byte) : Char_Node × Nat :=
  match node.find_ ch with
  | .hit mid => (node, mid)
  | .miss insert =>
      if node.node_.length ≠ 0 then
        let cells := shift_copy insert node.node_.length (node.node_ ++ [default])
        ({ node with node_ := cells.set insert (new ch 0) }, insert)
      else ({ node with node_ := [new ch 0] }, 0)

/-- The children are in order, here and everywhere below. -/
inductive Ok : Char_Node → Prop
  | mk (node : Char_Node) :
      node.node_.Pairwise (fun a b => a.ch_ < b.ch_) → (∀ c ∈ node.node_, Ok c) → Ok node

theorem Ok.sorted {node : Char_Node} (h : Ok node) :
    node.node_.Pairwise (fun a b => a.ch_ < b.ch_) := by
  cases h with
  | mk _ hs _ => exact hs

theorem Ok.child {node c : Char_Node} (h : Ok node) (hc : c ∈ node.node_) : Ok c := by
  cases h with
  | mk _ _ hall => exact hall c hc

theorem ok_new (ch flag : Byte) : Ok (new ch flag) :=
  Ok.mk _ List.Pairwise.nil (fun _ hc => absurd hc List.not_mem_nil)

/-! ## §2. Elements in the order of a character. -/

/-- `ch`, compared with the character of a child. -/
def order (ch c : Byte) : Ordering := if ch = c then .eq else if ch < c then .lt else .gt

theorem order_eq {ch c : Byte} : order ch c = .eq ↔ c = ch := by
  unfold order
  grind

theorem order_lt {ch c : Byte} : order ch c = .lt ↔ ch < c := by
  unfold order
  grind

theorem order_gt {ch c : Byte} : order ch c = .gt ↔ c < ch := by
  unfold order
  grind

/-- What does not lie above a character lies below the next one. -/
theorem order_lt_of_lt {ch c d : Byte} (hcd : c < d) (hc : order ch c ≠ .gt) :
    order ch d = .lt := by
  rw [Ne, order_gt] at hc
  rw [order_lt]
  grind

section Keys

variable {α : Type} (key : α → Byte) {A B : List α} {x : α}

/-- The characters in front of an element differ from its own. -/
theorem ne_of_sorted (hs : (A ++ x :: B).Pairwise fun a b => key a < key b) :
    ∀ a ∈ A, key a ≠ key x := by
  intro a ha
  have hlt := (List.pairwise_append.mp hs).2.2 a ha x List.mem_cons_self
  grind

/-- The first element with a character, in a list that holds `x`. -/
theorem find?_around (hA : ∀ a ∈ A, key a ≠ key x) (d : Byte) :
    (A ++ x :: B).find? (fun n => key n = d)
      = if d = key x then some x else (A ++ B).find? (fun n => key n = d) := by
  by_cases hd : d = key x
  · subst hd
    rw [if_pos rfl, List.find?_append, List.find?_eq_none.mpr (by simpa using hA)]
    simp
  · have hx : ¬ key x = d := fun h => hd h.symm
    rw [if_neg hd, List.find?_append, List.find?_append, List.find?_cons_of_neg (by simpa using hx)]

/-- An element changes, the characters do not. -/
theorem sorted_replace {y : α} (hxy : key y = key x)
    (hs : (A ++ x :: B).Pairwise fun a b => key a < key b) :
    (A ++ y :: B).Pairwise fun a b => key a < key b := by
  rw [← List.pairwise_map (f := key) (R := fun a b => a < b)] at hs ⊢
  simpa [hxy] using hs

/-- A new element goes between the smaller and the larger ones. -/
theorem sorted_insert (hs : (A ++ B).Pairwise fun a b => key a < key b)
    (hA : ∀ a ∈ A, key a < key x) (hB : ∀ b ∈ B, key x < key b) :
    (A ++ x :: B).Pairwise fun a b => key a < key b := by
  obtain ⟨hsA, hsB, hAB⟩ := List.pairwise_append.mp hs
  rw [List.pairwise_append, List.pairwise_cons]
  refine ⟨hsA, ⟨hB, hsB⟩, ?_⟩
  intro a ha b hb
  cases List.mem_cons.mp hb with
  | inl hx => exact hx ▸ hA a ha
  | inr hb => exact hAB a ha b hb

end Keys

/-! ## §3. The search. -/

theorem probe_of_lt (node : List Char_Node) (ch : Byte) (mid : Nat) (h : mid < node.length) :
    probe node ch mid = order ch node[mid].ch_ := by
  unfold probe
  have hcell : node.getD mid default = node[mid] := by simp [List.getD, h]
  rw [hcell]
  rfl

/-- The children around `ch`. -/
theorem find_split (node : Char_Node) (ch : Byte) (hok : Ok node) :
    (∃ A y B, node.node_ = A ++ y :: B ∧ y.ch_ = ch ∧ node.find_ ch = .hit A.length) ∨
    (∃ A B, node.node_ = A ++ B ∧ (∀ a ∈ A, a.ch_ < ch) ∧ (∀ b ∈ B, ch < b.ch_) ∧
      node.find_ ch = .miss A.length) := by
  have hsplit := bisect_split (fun pn : Char_Node => order ch pn.ch_)
    (hok.sorted.imp fun hab => order_lt_of_lt hab) _ (probe_of_lt node.node_ ch)
  simp only [order_eq, order_lt, order_gt] at hsplit
  exact hsplit

/-- **The bisection finds the child a linear search would find.** -/
theorem find_eq (node : Char_Node) (ch : Byte) (hok : Ok node) :
    node.find ch = node.node_.find? (fun n => n.ch_ = ch) := by
  unfold find
  rcases find_split node ch hok with ⟨A, y, B, hl, hy, hf⟩ | ⟨A, B, hl, hA, hB, hf⟩
  · have hne := ne_of_sorted Char_Node.ch_ (hl ▸ hok.sorted)
    rw [hf, hl, find?_around _ hne, if_pos hy.symm]
    show (A ++ y :: B)[A.length]? = some y
    rw [List.getElem?_append_right le_rfl, Nat.sub_self, List.getElem?_cons_zero]
  · rw [hf, hl]
    show none = _
    symm
    rw [List.find?_eq_none]
    intro n hn
    -- no child in front and none behind has the character
    have hne : n.ch_ ≠ ch := by
      rcases List.mem_append.mp hn with hn | hn
      · have := hA n hn
        grind
      · have := hB n hn
        grind
    simpa using hne

theorem ok_of_find {node c : Char_Node} (hok : Ok node) {ch : Byte} (h : node.find ch = some c) :
    Ok c := by
  rw [find_eq node ch hok] at h
  exact hok.child (List.mem_of_find?_eq_some h)

/-! ## §4. Entering at a character. -/

/-- The copying loop opens a gap at `insert`. -/
theorem shift_copy_gap (A B C : List Char_Node) (x : Char_Node) (junk : Char_Node) :
    (shift_copy A.length (A ++ B).length (A ++ B ++ junk :: C)).set A.length x
      = A ++ x :: (B ++ C) := by
  induction B using List.reverseRecOn generalizing junk C with
  | nil =>
      rw [List.append_nil, List.nil_append]
      have hstop : shift_copy A.length A.length (A ++ junk :: C) = A ++ junk :: C := by
        cases hA : A.length with
        | zero => rfl
        | succ n =>
            rw [shift_copy, if_neg (by omega)]
      rw [hstop, Lib.Packed.set_at]
  | append_singleton B b ih =>
      have hlen : (A ++ (B ++ [b])).length = (A ++ B).length + 1 := by
        rw [← List.append_assoc, List.length_append, List.length_singleton]
      have hcell : (A ++ (B ++ [b]) ++ junk :: C) = (A ++ B) ++ b :: junk :: C := by simp
      rw [hlen, shift_copy, if_pos (by simp), hcell]
      -- the cell read is `b`, the cell written the one behind it
      rw [Lib.Packed.getD_at (A ++ B) (junk :: C) b]
      have hset : ((A ++ B) ++ b :: junk :: C).set ((A ++ B).length + 1) b
          = A ++ B ++ b :: b :: C := by
        have h := Lib.Packed.set_at (A ++ B ++ [b]) C junk b
        rw [List.length_append, List.length_singleton] at h
        rwa [List.append_assoc, List.singleton_append, List.append_assoc (A ++ B),
          List.singleton_append] at h
      rw [hset, ih (b :: C) b]
      simp

/-- `set(ch)` and then `f` at the child it returns: one step of entering a key. -/
def update (node : Char_Node) (ch : Byte) (f : Char_Node → Char_Node) : Char_Node :=
  { (node.set ch).1 with node_ := (node.set ch).1.node_.modify (node.set ch).2 f }

theorem modify_at (A B : List Char_Node) (x : Char_Node) (f : Char_Node → Char_Node) :
    (A ++ x :: B).modify A.length f = A ++ f x :: B := by
  induction A with
  | nil => rfl
  | cons a A ih =>
      rw [List.cons_append, List.length_cons, List.modify_succ_cons, ih, List.cons_append]

/-- `set` puts a new child where `find_` has missed it. -/
theorem set_missing {node : Char_Node} {ch : Byte} {A B : List Char_Node}
    (hl : node.node_ = A ++ B) (hf : node.find_ ch = .miss A.length) :
    (node.set ch).1.node_ = A ++ new ch 0 :: B ∧ (node.set ch).2 = A.length := by
  unfold set
  rw [hf]
  show (ite _ _ _ : Char_Node × Nat).1.node_ = _ ∧ (ite _ _ _ : Char_Node × Nat).2 = _
  by_cases hne : node.node_.length ≠ 0
  · rw [if_pos hne]
    refine ⟨?_, rfl⟩
    show (shift_copy A.length node.node_.length (node.node_ ++ [default])).set A.length _ = _
    -- `realloc` has left one cell behind the last child
    have h := shift_copy_gap A B [] (new ch 0) default
    rw [List.append_nil] at h
    rw [hl, h]
  · rw [if_neg hne]
    have h0 : A ++ B = [] := by
      rw [← hl]
      exact List.length_eq_zero_iff.mp (by omega)
    obtain ⟨rfl, rfl⟩ := List.append_eq_nil_iff.mp h0
    exact ⟨rfl, rfl⟩

/-- The array after an update: the child for `ch`, found or new, has become `f` of itself. -/
theorem update_split (node : Char_Node) (ch : Byte) (f : Char_Node → Char_Node) (hok : Ok node) :
    ∃ A B x, (node.update ch f).node_ = A ++ f x :: B ∧ x.ch_ = ch ∧ Ok x ∧
      x = (node.find ch).getD (new ch 0) ∧
      (A ++ x :: B).Pairwise (fun a b => a.ch_ < b.ch_) ∧ (∀ c ∈ A ++ B, Ok c) ∧
      (∀ d, d ≠ ch → node.node_.find? (fun n => n.ch_ = d) = (A ++ B).find? (fun n => n.ch_ = d)) := by
  rcases find_split node ch hok with ⟨A, y, B, hl, hy, hf⟩ | ⟨A, B, hl, hA, hB, hf⟩
  · -- the child is there: `set` changes nothing
    have hs := hl ▸ hok.sorted
    have hset : node.set ch = (node, A.length) := by
      unfold set
      rw [hf]
    have hfind : node.find ch = some y := by
      rw [find_eq node ch hok, hl, find?_around _ (ne_of_sorted _ hs), if_pos hy.symm]
    refine ⟨A, B, y, ?_, hy, hok.child ?_, ?_, hs, ?_, ?_⟩
    · unfold update
      rw [hset]
      show node.node_.modify A.length f = _
      rw [hl, modify_at]
    · rw [hl]
      simp
    · rw [hfind, Option.getD_some]
    · intro c hc
      apply hok.child
      rw [hl]
      rcases List.mem_append.mp hc with hc | hc
      · exact List.mem_append_left _ hc
      · exact List.mem_append_right _ (List.mem_cons_of_mem _ hc)
    · intro d hd
      rw [hl, find?_around _ (ne_of_sorted _ hs), if_neg (by rwa [hy])]
  · -- a new child goes between the smaller and the larger ones
    have hset := set_missing hl hf
    have hnone : node.find ch = none := by
      unfold find
      rw [hf]
    refine ⟨A, B, new ch 0, ?_, rfl, ok_new ch 0, ?_, ?_, ?_, ?_⟩
    · unfold update
      rw [hset.1, hset.2]
      exact modify_at A B _ f
    · rw [hnone, Option.getD_none]
    · exact sorted_insert _ (hl ▸ hok.sorted) hA hB
    · intro c hc
      exact hok.child (hl ▸ hc)
    · intro d _
      rw [hl]

/-- An update keeps the order, when `f` keeps the child's character. -/
theorem ok_update (node : Char_Node) (ch : Byte) (f : Char_Node → Char_Node) (hok : Ok node)
    (hf : ∀ c, Ok c → (f c).ch_ = c.ch_ ∧ Ok (f c)) : Ok (node.update ch f) := by
  obtain ⟨A, B, x, hl, hx, hokx, _, hs, hAB, _⟩ := update_split node ch f hok
  refine Ok.mk _ ?_ ?_
  · rw [hl]
    exact sorted_replace _ (hf x hokx).1 hs
  · intro c hc
    rw [hl] at hc
    rcases List.mem_append.mp hc with hc | hc
    · exact hAB c (List.mem_append_left _ hc)
    · rcases List.mem_cons.mp hc with rfl | hc
      · exact (hf x hokx).2
      · exact hAB c (List.mem_append_right _ hc)

/-- **Lookups after an update.** -/
theorem find_update (node : Char_Node) (ch d : Byte) (f : Char_Node → Char_Node) (hok : Ok node)
    (hf : ∀ c, Ok c → (f c).ch_ = c.ch_ ∧ Ok (f c)) :
    (node.update ch f).find d =
      if d = ch then some (f ((node.find ch).getD (new ch 0))) else node.find d := by
  rw [find_eq _ d (ok_update node ch f hok hf), find_eq node d hok]
  obtain ⟨A, B, x, hl, hx, hokx, hfind, hs, _, hrest⟩ := update_split node ch f hok
  have hfx : (f x).ch_ = ch := (hf x hokx).1.trans hx
  have hne := ne_of_sorted _ (sorted_replace _ (hf x hokx).1 hs)
  rw [hl, find?_around _ hne, hfx, ← hfind]
  -- at `ch` the changed child, elsewhere the children around it
  by_cases hd : d = ch
  · rw [if_pos hd, if_pos hd]
  · rw [if_neg hd, if_neg hd, hrest d hd]

@[simp] theorem update_ch (node : Char_Node) (ch : Byte) (f : Char_Node → Char_Node) :
    (node.update ch f).ch_ = node.ch_ := by
  unfold update set
  cases node.find_ ch with
  | hit mid => rfl
  | miss insert =>
      by_cases hne : node.node_.length ≠ 0
      · simp [hne]
      · simp [hne]

@[simp] theorem update_flag (node : Char_Node) (ch : Byte) (f : Char_Node → Char_Node) :
    (node.update ch f).flag_ = node.flag_ := by
  unfold update set
  cases node.find_ ch with
  | hit mid => rfl
  | miss insert =>
      by_cases hne : node.node_.length ≠ 0
      · simp [hne]
      · simp [hne]

end Char_Node

end Aos
