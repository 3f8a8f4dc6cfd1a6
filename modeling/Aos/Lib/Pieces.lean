/-
  Aos.Lib.Pieces — a text taken apart at a pattern, and a window on the pieces.

  The pattern is looked for behind its last occurrence, so that two occurrences
  do not overlap.

  Main results:
    • `intercalate_pieces` — the pieces and the pattern between them are the text;
    • `pieces_letter` — at a letter the pieces are those of `List.splitOn`;
    • `window_eq_slice` — testing the number of each piece keeps a slice of them.
-/
import Aos.Lib.Occurrence

namespace Lib.Pieces

open Lib.Occurrence

/-! ## §1. The pieces. -/

section Pieces

variable {α : Type}

theorem intercalate_cons_of_ne_nil (pat a : List α) {L : List (List α)} (h : L ≠ []) :
    pat.intercalate (a :: L) = a ++ pat ++ pat.intercalate L := by
  obtain ⟨b, L, rfl⟩ := List.exists_cons_of_ne_nil h
  simp [List.intercalate, List.intersperse]

variable [DecidableEq α]

theorem occurrence_room {pat text : List α} {p : Nat} (h : occurrence pat text = some p) :
    p + pat.length ≤ text.length := by
  obtain ⟨hle, hpre, -⟩ := occurrence_some_iff.mp h
  have hlen := hpre.length_le
  rw [List.length_drop] at hlen
  omega

theorem behind_shorter {pat text : List α} {p : Nat} (hne : pat ≠ [])
    (h : occurrence pat text = some p) :
    (text.drop (p + pat.length)).length < text.length := by
  have hroom := occurrence_room h
  have hpos := List.length_pos_iff.mpr hne
  rw [List.length_drop]
  omega

/-- The text between the occurrences of a pattern; at an empty one it is not taken apart. -/
def pieces (pat text : List α) : List (List α) :=
  if _hne : pat = [] then [text]
  else
    match _hocc : occurrence pat text with
    | none => [text]
    | some p => text.take p :: pieces pat (text.drop (p + pat.length))
termination_by text.length
decreasing_by exact behind_shorter _hne _hocc

variable {pat text : List α}

theorem pieces_nil (text : List α) : pieces [] text = [text] := by
  rw [pieces, dif_pos rfl]

theorem pieces_none (h : occurrence pat text = none) : pieces pat text = [text] := by
  rw [pieces]
  split_ifs
  · rfl
  · split
    · rfl
    · next p hp => exact absurd (h.symm.trans hp) (by simp)

theorem pieces_some (hne : pat ≠ []) {p : Nat} (h : occurrence pat text = some p) :
    pieces pat text = text.take p :: pieces pat (text.drop (p + pat.length)) := by
  rw [pieces, dif_neg hne]
  split
  · next hp => exact absurd (h.symm.trans hp) (by simp)
  · next q hq =>
      obtain rfl := Option.some.inj (h.symm.trans hq)
      rfl

/-- The pieces behind the first one are those of a shorter text. -/
theorem pieces_induction {motive : List α → Prop} (hne : pat ≠ [])
    (last : ∀ text, occurrence pat text = none → motive text)
    (piece : ∀ text p, occurrence pat text = some p → motive (text.drop (p + pat.length)) →
      motive text) (text : List α) : motive text := by
  induction hn : text.length using Nat.strong_induction_on generalizing text with
  | _ n ih =>
      cases hocc : occurrence pat text with
      | none => exact last text hocc
      | some p =>
          have hlt : (text.drop (p + pat.length)).length < n := hn ▸ behind_shorter hne hocc
          exact piece text p hocc (ih _ hlt _ rfl)

theorem pieces_ne_nil (pat text : List α) : pieces pat text ≠ [] := by
  by_cases hne : pat = []
  · rw [hne, pieces_nil]
    exact List.cons_ne_nil _ _
  · cases hocc : occurrence pat text with
    | none =>
        rw [pieces_none hocc]
        exact List.cons_ne_nil _ _
    | some p =>
        rw [pieces_some hne hocc]
        exact List.cons_ne_nil _ _

/-- **The pieces and the pattern between them are the text.** -/
theorem intercalate_pieces (pat text : List α) : pat.intercalate (pieces pat text) = text := by
  by_cases hne : pat = []
  · rw [hne, pieces_nil, List.intercalate, List.intersperse, List.flatten_singleton]
  · induction text using pieces_induction hne with
    | last text hocc =>
        rw [pieces_none hocc, List.intercalate, List.intersperse, List.flatten_singleton]
    | piece text p hocc ih =>
        obtain ⟨-, ⟨behind, hbehind⟩, -⟩ := occurrence_some_iff.mp hocc
        have hdrop : text.drop (p + pat.length) = behind := by
          rw [← List.drop_drop, ← hbehind, List.drop_left]
        rw [pieces_some hne hocc, intercalate_cons_of_ne_nil _ _ (pieces_ne_nil _ _), ih, hdrop,
          List.append_assoc, hbehind, List.take_append_drop]

/-- **At a letter** the pieces are those of `List.splitOn`. -/
theorem pieces_letter (c : α) (text : List α) : pieces [c] text = text.splitOn c := by
  have hne : [c] ≠ [] := List.cons_ne_nil c []
  induction text using pieces_induction hne with
  | last text hocc =>
      have hfree : c ∉ text := fun hmem =>
        occurrence_none_iff_absent.mp hocc ((List.singleton_infix_iff c text).mpr hmem)
      rw [pieces_none hocc, List.splitOn_eq_singleton hfree]
  | piece text p hocc ih =>
      obtain ⟨a, b, rfl, rfl⟩ := occurrence_split hocc
      have hfree : c ∉ a := fun hmem =>
        occurrence_front hocc rfl rfl hne ((List.singleton_infix_iff c a).mpr hmem)
      have hbehind : (a ++ ([c] ++ b)).drop (a.length + [c].length) = b := by
        rw [← List.drop_drop, List.drop_left, List.drop_left]
      rw [hbehind] at ih
      rw [pieces_some hne hocc, hbehind, ih, List.take_left]
      exact (List.splitOn_append_cons_self_of_not_mem hfree b).symm

end Pieces

/-! ## §2. A window on them. -/

section Window

variable {β : Type}

/-- The number of a piece is one of the window's. -/
def In_Window (start size i : Int) : Prop := start ≤ i ∧ (size < 0 ∨ i < start + size)

instance (start size i : Int) : Decidable (In_Window start size i) :=
  inferInstanceAs (Decidable (_ ∧ _))

/-- The pieces whose number is one of the window's, the first one having number `i`. -/
def window (start size : Int) : Int → List β → List β
  | _, [] => []
  | i, a :: L =>
      if In_Window start size i then a :: window start size (i + 1) L
      else window start size (i + 1) L

/-- `size` pieces from number `start` on, or all of them where it is negative. -/
def slice (start size : Int) (L : List β) : List β :=
  if size < 0 then L.drop start.toNat else (L.drop start.toNat).take size.toNat

variable (start size : Int)

theorem window_append (A B : List β) : ∀ i,
    window start size i (A ++ B)
      = window start size i A ++ window start size (i + A.length) B := by
  induction A with
  | nil =>
      intro i
      rw [List.length_nil, Nat.cast_zero, Int.add_zero]
      rfl
  | cons a A ih =>
      intro i
      have hnum : i + 1 + (A.length : Int) = i + ((a :: A).length : Nat) := by
        rw [List.length_cons]
        omega
      rw [List.cons_append, window, window, ih (i + 1), hnum]
      split_ifs
      · rfl
      · rfl

theorem window_singleton (i : Int) (a : β) :
    window start size i [a] = if In_Window start size i then [a] else [] := by
  rw [window, window]

theorem window_from (L : List β) : ∀ i,
    window start size i L =
      if size < 0 then L.drop (start - i).toNat
      else (L.drop (start - i).toNat).take (start + size - max i start).toNat := by
  induction L with
  | nil =>
      intro i
      rw [window, List.drop_nil, List.take_nil]
      exact (ite_self []).symm
  | cons a L ih =>
      intro i
      rw [window, ih (i + 1)]
      by_cases hbefore : i < start
      · -- in front of the window
        have hsucc : (start - i).toNat = (start - (i + 1)).toNat + 1 := by omega
        have hmax : max (i + 1) start = max i start := by omega
        rw [if_neg fun h => absurd h.1 (by omega), hsucc, List.drop_succ_cons, hmax]
      · have h0 : (start - i).toNat = 0 := by omega
        have h0' : (start - (i + 1)).toNat = 0 := by omega
        rw [h0, h0', List.drop_zero, List.drop_zero]
        by_cases hneg : size < 0
        · rw [if_pos hneg, if_pos hneg, if_pos ⟨by omega, Or.inl hneg⟩]
        · rw [if_neg hneg, if_neg hneg]
          by_cases hin : i < start + size
          · have hsucc : (start + size - max i start).toNat
                = (start + size - max (i + 1) start).toNat + 1 := by omega
            rw [if_pos ⟨by omega, Or.inr hin⟩, hsucc, List.take_succ_cons]
          · -- behind it
            have h1 : (start + size - max i start).toNat = 0 := by omega
            have h1' : (start + size - max (i + 1) start).toNat = 0 := by omega
            rw [if_neg fun h => absurd h.2 (by omega), h1, h1', List.take_zero, List.take_zero]

/-- **Testing the number of each piece** keeps a slice of them. -/
theorem window_eq_slice (h0 : 0 ≤ start) (L : List β) :
    window start size 0 L = slice start size L := by
  have hmax : start + size - max 0 start = size := by omega
  rw [window_from, slice, Int.sub_zero, hmax]

end Window

end Lib.Pieces
