/-
  Aos.Lib.Groups — neighbours that are gathered.

  Elements come one after the other.  Each is compared with the first element of
  the last group: it joins that group when the comparison `r` takes them together
  and opens one of its own when not.  Every element has a kind; elements of one
  kind are always taken together.

  Main results:
    • `gathered_flatten` — the groups hold the elements in their order;
    • `changes_cut` — what is cut into pieces of one kind each changes its kind
      no more often than it was cut;
    • `gathered_kind`, `apart_of_placed` — the elements find a place under a head of
      their kind exactly when no comparison takes neighbours of two kinds together.
-/
import Mathlib.Data.List.Chain
import Mathlib.Tactic

namespace Lib.Groups

variable {α ε : Type} (r : α → α → Prop) [DecidableRel r]

/-- The groups that `ws` makes behind a group with the head `k`. -/
def gathered (k : α) (g : List α) : List α → List (α × List α)
  | [] => [(k, g)]
  | w :: ws => if r k w then gathered k (g ++ [w]) ws else (k, g) :: gathered w [w] ws

/-- The groups hold the elements in their order. -/
theorem gathered_flatten (ws : List α) :
    ∀ k g, ((gathered r k g ws).map Prod.snd).flatten = g ++ ws := by
  induction ws with
  | nil => intro k g; rfl
  | cons w ws ih =>
      intro k g
      rw [gathered]
      split_ifs
      · rw [ih, List.append_assoc, List.singleton_append]
      · rw [List.map_cons, List.flatten_cons, ih]
        rfl

theorem gathered_ne_nil (ws : List α) : ∀ k g, gathered r k g ws ≠ [] := by
  induction ws with
  | nil => exact fun _ _ => List.cons_ne_nil _ _
  | cons w ws ih =>
      intro k g
      rw [gathered]
      split_ifs
      · exact ih k _
      · exact List.cons_ne_nil _ _

/-- The heads of the groups. -/
def heads (k : α) (ws : List α) : List α := (gathered r k [] ws).map Prod.fst

theorem gathered_heads (ws : List α) :
    ∀ k g, (gathered r k g ws).map Prod.fst = heads r k ws := by
  have hany : ∀ (ws : List α) (k : α) (g g' : List α),
      (gathered r k g ws).map Prod.fst = (gathered r k g' ws).map Prod.fst := by
    intro ws
    induction ws with
    | nil => intro k g g'; rfl
    | cons w ws ih =>
        intro k g g'
        rw [gathered, gathered]
        split_ifs
        · exact ih k _ _
        · rfl
  intro k g
  exact hany ws k g []

/-! ## §1. Changes of the kind. -/

section Changes

variable [DecidableEq ε]

/-- How often neighbours differ. -/
def changes : List ε → Nat
  | a :: b :: l => (if a = b then 0 else 1) + changes (b :: l)
  | _ => 0

theorem changes_cons_le (a : ε) (l : List ε) : changes l ≤ changes (a :: l) := by
  cases l with
  | nil => exact Nat.zero_le _
  | cons b l => exact Nat.le_add_left _ _

/-- A piece of one kind changes its kind at most once, where it ends. -/
theorem changes_piece (x : ε) (g l : List ε) (hg : ∀ w ∈ g, w = x) :
    changes (g ++ l) ≤ changes l + 1 ∧ (l = [] → changes (g ++ l) = 0) := by
  induction g with
  | nil =>
      refine ⟨Nat.le_succ _, fun hl => ?_⟩
      rw [hl]
      rfl
  | cons a g ih =>
      have ha := hg a List.mem_cons_self
      have hrest := ih (fun w hw => hg w (List.mem_cons_of_mem a hw))
      cases g with
      | nil =>
          cases l with
          | nil => exact ⟨Nat.zero_le _, fun _ => rfl⟩
          | cons b l =>
              refine ⟨?_, fun h => absurd h (List.cons_ne_nil b l)⟩
              show (if a = b then 0 else 1) + changes (b :: l) ≤ _
              split_ifs <;> omega
      | cons b g =>
          have hb := hg b (List.mem_cons_of_mem a List.mem_cons_self)
          have hsame : changes (a :: b :: g ++ l) = changes (b :: g ++ l) := by
            show (if a = b then 0 else 1) + changes (b :: (g ++ l)) = _
            rw [if_pos (ha.trans hb.symm), Nat.zero_add]
            rfl
          rw [hsame]
          exact hrest

/-- **What is cut into pieces of one kind each** changes its kind no more often than
    it was cut. -/
theorem changes_cut (f : α → ε) {κ : Type} (kind : κ → ε) (gs : List (List α)) :
    ∀ ks : List κ, List.Forall₂ (fun g k => ∀ w ∈ g, f w = kind k) gs ks →
      changes (gs.flatten.map f) ≤ ks.length - 1 := by
  induction gs with
  | nil => intro ks _; exact Nat.zero_le _
  | cons g gs ih =>
      intro ks h
      cases h with
      | @cons _ k _ ks hg hgs =>
          have hrest := ih ks hgs
          have hpiece := changes_piece (kind k) (g.map f) (gs.flatten.map f)
            (fun x hx => by
              obtain ⟨w, hw, rfl⟩ := List.mem_map.mp hx
              exact hg w hw)
          rw [List.flatten_cons, List.map_append, List.length_cons]
          cases ks with
          | nil =>
              cases hgs
              rw [hpiece.2 rfl]
              exact Nat.zero_le _
          | cons k' ks =>
              rw [List.length_cons] at hrest ⊢
              omega

end Changes

/-! ## §2. Kinds that the comparison takes together. -/

section Kinds

variable {r} {f : α → ε}

/-- No comparison takes neighbours of two kinds together. -/
def Apart (r : α → α → Prop) (f : α → ε) (ws : List α) : Prop :=
  ws.IsChain fun a b => r a b → f a = f b

/-- What is said of a comparison: it sees no more than the kind, and takes every kind
    together with itself. -/
structure Sees_Kind (r : α → α → Prop) (f : α → ε) : Prop where
  same : ∀ {a b}, f a = f b → r a b
  left : ∀ {a b c}, f a = f b → r a c → r b c
  right : ∀ {a b c}, f b = f c → r a b → r a c

/-- Every group but the first one opens with a change of the kind. -/
theorem heads_le_changes [DecidableEq ε] (h : Sees_Kind r f) (ws : List α) :
    ∀ k a, r k a → (heads r k ws).length ≤ changes ((a :: ws).map f) + 1 := by
  induction ws with
  | nil => intro k a _; exact le_rfl
  | cons w ws ih =>
      intro k a hka
      have hmono := changes_cons_le (f a) ((w :: ws).map f)
      rw [heads, gathered]
      split_ifs with hkw
      · rw [gathered_heads]
        exact (ih k w hkw).trans (Nat.succ_le_succ hmono)
      · -- the element opens a group, so its kind is a new one
        have hne : f a ≠ f w := fun heq => hkw (h.right heq hka)
        have hrest := ih w w (h.same rfl)
        rw [List.map_cons, List.length_cons, gathered_heads]
        show _ ≤ (if f a = f w then 0 else 1) + changes ((w :: ws).map f) + 1
        rw [if_neg hne]
        omega

/-- Where a comparison takes two kinds together, there are fewer groups than changes. -/
theorem heads_lt_of_not_apart [DecidableEq ε] (h : Sees_Kind r f) (ws : List α) :
    ∀ k a, f k = f a → ¬ Apart r f (a :: ws) →
      (heads r k ws).length ≤ changes ((a :: ws).map f) := by
  induction ws with
  | nil => intro k a _ hbad; exact absurd (List.isChain_singleton a) hbad
  | cons w ws ih =>
      intro k a hka hbad
      rw [Apart, List.isChain_cons_cons] at hbad
      rw [heads, gathered]
      show _ ≤ (if f a = f w then 0 else 1) + changes ((w :: ws).map f)
      split_ifs with hkw haw
      · -- the group goes on with its kind
        rw [gathered_heads, Nat.zero_add]
        exact ih k w (hka.trans haw) (fun hrest => hbad ⟨fun _ => haw, hrest⟩)
      · -- here two kinds are taken together
        have hrest := heads_le_changes h ws k w hkw
        rw [gathered_heads]
        omega
      · exact absurd (h.same (hka.trans ‹f a = f w›)) hkw
      · have hrest := ih w w rfl
          (fun hrest => hbad ⟨fun haw => absurd (h.left hka.symm haw) hkw, hrest⟩)
        rw [List.map_cons, List.length_cons, gathered_heads]
        omega

/-- **Where no comparison takes two kinds together**, a group has the kind of its head. -/
theorem gathered_kind (h : Sees_Kind r f) (ws : List α) :
    ∀ k g a, f k = f a → (∀ w ∈ g, f w = f k) → Apart r f (a :: ws) →
      ∀ p ∈ gathered r k g ws, ∀ w ∈ p.2, f w = f p.1 := by
  induction ws with
  | nil =>
      intro k g a _ hg _ p hp
      rw [List.mem_singleton.mp hp]
      exact hg
  | cons w ws ih =>
      intro k g a hka hg hapart
      rw [Apart, List.isChain_cons_cons] at hapart
      rw [gathered]
      split_ifs with hkw
      · have hkw' : f k = f w := hka.trans (hapart.1 (h.left hka hkw))
        refine ih k (g ++ [w]) w hkw' ?_ hapart.2
        intro v hv
        rcases List.mem_append.mp hv with hv | hv
        · exact hg v hv
        · rw [List.mem_singleton.mp hv, hkw']
      · intro p hp
        rcases List.mem_cons.mp hp with rfl | hp
        · exact hg
        · refine ih w [w] w rfl ?_ hapart.2 p hp
          intro v hv
          rw [List.mem_singleton.mp hv]

/-- **Elements that find a place under a head of their kind**, in their order, are taken
    together with neighbours of their kind alone. -/
theorem apart_of_placed [DecidableEq ε] (h : Sees_Kind r f) (a : α) (ws : List α)
    (gs : List (List α)) (hflat : gs.flatten = a :: ws)
    (hplaced : List.Forall₂ (fun g p => ∀ w ∈ g, f w = f p.1) gs (gathered r a [a] ws)) :
    Apart r f (a :: ws) := by
  by_contra hbad
  have hcut := changes_cut f (fun p : α × List α => f p.1) gs _ hplaced
  have hfew := heads_lt_of_not_apart h ws a a rfl hbad
  have hpos := List.length_pos_iff.mpr (gathered_ne_nil r ws a [a])
  rw [hflat] at hcut
  rw [← gathered_heads r ws a [a], List.length_map] at hfew
  omega

end Kinds

end Lib.Groups
