/-
  Aos.Lib.Lines — a stream cut into lines.

  A line ends with its delimiter and holds it nowhere else.  `cut` reads a
  stream behind the part of a line that has been read already, and gives the
  lines completed and the part of the next one.

  Main results:
    • `cut_append` — cutting a stream in two pieces is cutting it whole, so
      the lines do not depend on how the stream arrives;
    • `lines_flatten` — lines written one after the other are found again;
    • `cut_bytes` — no byte is lost;
    • `pieces_cut`, `piece_line` — the pieces a stream is read in, line by line
      within every chunk;
    • `lines_append`, `whole_flatten` — the lines of a text put together from
      texts of whole lines.
-/
import Mathlib.Tactic

namespace Lib.Lines

variable {α : Type}

/-! ## §1. Lines. -/

/-- A line with its delimiter at the end. -/
def IsLine (d : α) (l : List α) : Prop := ∃ t, d ∉ t ∧ l = t ++ [d]

theorem IsLine.ne_nil {d : α} {l : List α} (h : IsLine d l) : l ≠ [] := by
  obtain ⟨t, _, rfl⟩ := h
  exact List.append_ne_nil_of_right_ne_nil t (List.cons_ne_nil d [])

theorem IsLine.getLast? {d : α} {l : List α} (h : IsLine d l) : l.getLast? = some d := by
  obtain ⟨t, _, rfl⟩ := h
  exact List.getLast?_concat

/-- What has come of a stream that begins with a line: a part of its text, or the
    whole line and more. -/
theorem prefix_line {d : α} {t rest buf : List α} (hd : d ∉ t) (h : buf <+: t ++ d :: rest) :
    (d ∉ buf ∧ ∃ t', t = buf ++ t') ∨ ∃ buf', buf = t ++ d :: buf' := by
  by_cases hlen : buf.length ≤ t.length
  · obtain ⟨t', ht'⟩ := List.prefix_of_prefix_length_le h (List.prefix_append t _) hlen
    refine Or.inl ⟨?_, t', ht'.symm⟩
    intro hmem
    exact hd (ht' ▸ List.mem_append_left t' hmem)
  · have hline : t ++ [d] <+: buf := by
      apply List.prefix_of_prefix_length_le ?_ h
      · rw [List.length_append, List.length_singleton]
        omega
      · exact ⟨rest, by simp⟩
    obtain ⟨buf', hbuf'⟩ := hline
    exact Or.inr ⟨buf', by rw [← hbuf']; simp⟩

theorem IsLine.mem {d : α} {l : List α} (h : IsLine d l) : d ∈ l := by
  obtain ⟨t, _, rfl⟩ := h
  simp

/-! ## §2. Cutting step by step. -/

variable [DecidableEq α]

/-- The complete lines of a stream read behind `carry`, and the carry left. -/
def cut (d : α) : List α → List α → List (List α) × List α
  | carry, [] => ([], carry)
  | carry, a :: xs =>
      if a = d then
        let tail := cut d [] xs
        ((carry ++ [a]) :: tail.1, tail.2)
      else cut d (carry ++ [a]) xs

@[simp] theorem cut_nil (d : α) (carry : List α) : cut d carry [] = ([], carry) := rfl

theorem cut_delim (d : α) (carry xs : List α) :
    cut d carry (d :: xs) = ((carry ++ [d]) :: (cut d [] xs).1, (cut d [] xs).2) := by
  rw [cut, if_pos rfl]

theorem cut_skip (d a : α) (carry xs : List α) (h : a ≠ d) :
    cut d carry (a :: xs) = cut d (carry ++ [a]) xs := by
  rw [cut, if_neg h]

/-- Text without a delimiter only lengthens the carry. -/
theorem cut_text (d : α) (t : List α) :
    ∀ carry xs, d ∉ t → cut d carry (t ++ xs) = cut d (carry ++ t) xs := by
  induction t with
  | nil => intro carry xs _; simp
  | cons a t ih =>
      intro carry xs hd
      have ha : a ≠ d := fun h => hd (h ▸ List.mem_cons_self)
      have ht : d ∉ t := fun h => hd (List.mem_cons_of_mem a h)
      rw [List.cons_append, cut_skip d a _ _ ha, ih _ _ ht, List.append_assoc,
        List.singleton_append]

/-- Reading up to the end of a line. -/
theorem cut_line (d : α) (t carry xs : List α) (h : d ∉ t) :
    cut d carry (t ++ d :: xs)
      = ((carry ++ t ++ [d]) :: (cut d [] xs).1, (cut d [] xs).2) := by
  rw [cut_text d t carry _ h, cut_delim]

/-- **The lines do not depend on how the stream is cut up.** -/
theorem cut_append (d : α) (xs ys : List α) :
    ∀ carry, cut d carry (xs ++ ys)
      = ((cut d carry xs).1 ++ (cut d (cut d carry xs).2 ys).1,
         (cut d (cut d carry xs).2 ys).2) := by
  induction xs with
  | nil => intro carry; simp
  | cons a xs ih =>
      intro carry
      by_cases ha : a = d
      · subst ha
        rw [List.cons_append, cut_delim, cut_delim, ih]
        rfl
      · rw [List.cons_append, cut_skip d a _ _ ha, cut_skip d a _ _ ha, ih]

/-- A stream has one first line. -/
theorem line_unique {d : α} {t t' rest rest' : List α} (ht : d ∉ t) (ht' : d ∉ t')
    (h : t ++ d :: rest = t' ++ d :: rest') : t = t' ∧ rest = rest' := by
  have hcut := cut_line d t [] rest ht
  rw [h, cut_line d t' [] rest' ht'] at hcut
  have hfirst : t' ++ [d] = t ++ [d] := (List.cons.inj (congrArg Prod.fst hcut)).1
  obtain rfl := List.append_cancel_right hfirst
  exact ⟨rfl, (List.cons.inj (List.append_cancel_left h)).2⟩

/-! ## §3. What is cut. -/

/-- **Every byte ends up in one line or in the carry.** -/
theorem cut_bytes (d : α) (xs : List α) :
    ∀ carry, (cut d carry xs).1.flatten ++ (cut d carry xs).2 = carry ++ xs := by
  induction xs with
  | nil => intro carry; simp
  | cons a xs ih =>
      intro carry
      by_cases ha : a = d
      · subst ha
        rw [cut_delim, List.flatten_cons, List.append_assoc, ih]
        simp
      · rw [cut_skip d a _ _ ha, ih]
        simp

theorem cut_isLine (d : α) (xs : List α) :
    ∀ carry, d ∉ carry → ∀ l ∈ (cut d carry xs).1, IsLine d l := by
  induction xs with
  | nil =>
      intro carry _ l hl
      exact absurd hl List.not_mem_nil
  | cons a xs ih =>
      intro carry hc l hl
      by_cases ha : a = d
      · subst ha
        rw [cut_delim] at hl
        rcases List.mem_cons.mp hl with rfl | hl
        · exact ⟨carry, hc, rfl⟩
        · exact ih [] List.not_mem_nil l hl
      · rw [cut_skip d a _ _ ha] at hl
        refine ih (carry ++ [a]) ?_ l hl
        simp only [List.mem_append, List.mem_singleton, not_or]
        exact ⟨hc, fun h => ha h.symm⟩

theorem cut_carry (d : α) (xs : List α) :
    ∀ carry, d ∉ carry → d ∉ (cut d carry xs).2 := by
  induction xs with
  | nil => intro carry hc; exact hc
  | cons a xs ih =>
      intro carry hc
      by_cases ha : a = d
      · subst ha
        rw [cut_delim]
        exact ih [] List.not_mem_nil
      · rw [cut_skip d a _ _ ha]
        apply ih (carry ++ [a])
        simp only [List.mem_append, List.mem_singleton, not_or]
        exact ⟨hc, fun h => ha h.symm⟩

/-- The stream ends with a delimiter exactly when nothing is carried. -/
theorem cut_carry_nil_iff (d : α) (xs : List α) (hx : xs ≠ []) :
    (cut d [] xs).2 = [] ↔ xs.getLast? = some d := by
  have hb := cut_bytes d xs []
  rw [List.nil_append] at hb
  constructor
  · intro hc
    rw [hc, List.append_nil] at hb
    have hne : (cut d [] xs).1 ≠ [] := by
      intro h
      rw [h] at hb
      exact hx hb.symm
    obtain ⟨ls, l, hl⟩ := (List.eq_nil_or_concat' (cut d [] xs).1).resolve_left hne
    have hline := cut_isLine d xs [] List.not_mem_nil l (by rw [hl]; simp)
    obtain ⟨t, _, rfl⟩ := hline
    rw [← hb, hl, List.flatten_append, List.flatten_singleton, ← List.append_assoc]
    exact List.getLast?_concat
  · intro hlast
    by_contra hne
    rw [← hb, List.getLast?_append_of_ne_nil _ hne] at hlast
    exact cut_carry d xs [] List.not_mem_nil (List.mem_of_getLast? hlast)

/-! ## §4. Texts of whole lines. -/

/-- The complete lines of a text. -/
def lines (d : α) (xs : List α) : List (List α) := (cut d [] xs).1

/-- The text ends with its last line. -/
def Whole (d : α) (xs : List α) : Prop := (cut d [] xs).2 = []

theorem whole_nil (d : α) : Whole d [] := rfl

theorem lines_nil (d : α) : lines d [] = [] := rfl

theorem whole_of_ends (d : α) (t : List α) : Whole d (t ++ [d]) := by
  refine (cut_carry_nil_iff d (t ++ [d]) ?_).mpr List.getLast?_concat
  exact List.append_ne_nil_of_right_ne_nil t (List.cons_ne_nil d [])

theorem IsLine.whole {d : α} {l : List α} (h : IsLine d l) : Whole d l := by
  obtain ⟨t, _, rfl⟩ := h
  exact whole_of_ends d t

theorem IsLine.lines {d : α} {l : List α} (h : IsLine d l) : lines d l = [l] := by
  obtain ⟨t, ht, rfl⟩ := h
  unfold Lines.lines
  rw [cut_line d t [] [] ht]
  rfl

theorem lines_append {d : α} {xs : List α} (h : Whole d xs) (ys : List α) :
    lines d (xs ++ ys) = lines d xs ++ lines d ys := by
  unfold Whole at h
  unfold lines
  rw [cut_append, h]

theorem Whole.append {d : α} {xs ys : List α} (hx : Whole d xs) (hy : Whole d ys) :
    Whole d (xs ++ ys) := by
  unfold Whole at hx hy ⊢
  rw [cut_append, hx]
  exact hy

theorem Whole.flatten {d : α} {xs : List α} (h : Whole d xs) : (lines d xs).flatten = xs := by
  have hb := cut_bytes d xs []
  unfold Whole at h
  rw [h, List.append_nil, List.nil_append] at hb
  exact hb

theorem whole_flatten {d : α} {ts : List (List α)} (h : ∀ t ∈ ts, Whole d t) :
    Whole d ts.flatten ∧ lines d ts.flatten = ts.flatMap (lines d) := by
  induction ts with
  | nil => exact ⟨whole_nil d, lines_nil d⟩
  | cons t ts ih =>
      have ht := h t List.mem_cons_self
      obtain ⟨hw, hl⟩ := ih (fun t' ht' => h t' (List.mem_cons_of_mem t ht'))
      rw [List.flatten_cons, List.flatMap_cons]
      exact ⟨ht.append hw, by rw [lines_append ht, hl]⟩

/-- **Lines written one after the other** are found again. -/
theorem lines_flatten {d : α} {ls : List (List α)} (h : ∀ l ∈ ls, IsLine d l) :
    Whole d ls.flatten ∧ lines d ls.flatten = ls := by
  obtain ⟨hw, hl⟩ := whole_flatten fun l hl => (h l hl).whole
  refine ⟨hw, ?_⟩
  rw [hl, List.flatMap_congr fun l hl => (h l hl).lines]
  exact List.flatMap_singleton' ls

/-- A text that is not empty begins as its first line does. -/
theorem lines_head {d : α} {a : α} {xs : List α} (h : Whole d (a :: xs)) :
    ∃ l ls, lines d (a :: xs) = (a :: l) :: ls := by
  have hflat := h.flatten
  cases hl : lines d (a :: xs) with
  | nil =>
      rw [hl] at hflat
      exact absurd hflat (by simp)
  | cons l ls =>
      have hline := cut_isLine d (a :: xs) [] List.not_mem_nil l
        (by change l ∈ lines d (a :: xs); rw [hl]; exact List.mem_cons_self)
      cases l with
      | nil => exact absurd rfl hline.ne_nil
      | cons b l =>
          rw [hl, List.flatten_cons, List.cons_append] at hflat
          obtain ⟨rfl, _⟩ := List.cons.inj hflat
          exact ⟨l, ls, rfl⟩

/-! ## §5. Chunk by chunk. -/

/-- The lines of a chunk, and the part of a line it ends with. -/
def pieces (d : α) (xs : List α) : List (List α) :=
  (cut d [] xs).1 ++ if (cut d [] xs).2 = [] then [] else [(cut d [] xs).2]

theorem pieces_nil (d : α) : pieces d [] = [] := rfl

theorem pieces_line {d : α} {t : List α} (h : d ∉ t) (xs : List α) :
    pieces d (t ++ d :: xs) = (t ++ [d]) :: pieces d xs := by
  unfold pieces
  rw [cut_line d t [] xs h]
  rfl

theorem pieces_text {d : α} {t : List α} (h : d ∉ t) (hne : t ≠ []) : pieces d t = [t] := by
  have hcut := cut_text d t [] [] h
  rw [List.append_nil, List.nil_append] at hcut
  unfold pieces
  rw [hcut, cut_nil, if_neg hne]
  rfl

theorem pieces_flatten (d : α) (xs : List α) : (pieces d xs).flatten = xs := by
  have hbytes := cut_bytes d xs []
  rw [List.nil_append] at hbytes
  unfold pieces
  rw [List.flatten_append]
  split
  · rename_i hnil
    rw [hnil, List.append_nil] at hbytes
    rw [List.flatten_nil, List.append_nil, hbytes]
  · rw [List.flatten_singleton, hbytes]

theorem pieces_all_flatten (d : α) (chunks : List (List α)) :
    (chunks.map (pieces d)).flatten.flatten = chunks.flatten := by
  induction chunks with
  | nil => rfl
  | cons chunk chunks ih =>
      rw [List.map_cons, List.flatten_cons, List.flatten_append, pieces_flatten, ih,
        List.flatten_cons]

/-- A part of a line, or the end of one. -/
def IsPiece (d : α) (p : List α) : Prop := p ≠ [] ∧ (d ∉ p ∨ IsLine d p)

theorem pieces_isPiece (d : α) (xs : List α) : ∀ p ∈ pieces d xs, IsPiece d p := by
  intro p hp
  unfold pieces at hp
  rw [List.mem_append] at hp
  rcases hp with hline | hcarry
  · have h := cut_isLine d xs [] (by simp) p hline
    exact ⟨h.ne_nil, Or.inr h⟩
  · split at hcarry
    · exact absurd hcarry (by simp)
    · rename_i hne
      obtain rfl := List.mem_singleton.mp hcarry
      exact ⟨hne, Or.inl (cut_carry d xs [] (by simp))⟩

/-- All pieces of a chunk but the last are lines. -/
theorem pieces_split {d : α} {xs : List α} {a b : List (List α)} (h : pieces d xs = a ++ b)
    (ha : a ≠ []) (hb : b ≠ []) : [d] <:+ a.flatten := by
  have hall : ∀ p ∈ a, IsLine d p := by
    intro p hp
    apply cut_isLine d xs [] (by simp)
    -- what stands behind `a` is longer than the part the chunk ends with
    have hpre : a <+: (cut d [] xs).1 := by
      apply List.prefix_of_prefix_length_le ⟨b, h.symm⟩ (List.prefix_append _ _)
      have hlen := congrArg List.length h
      have hpos := List.length_pos_iff.mpr hb
      unfold pieces at hlen
      rw [List.length_append, List.length_append] at hlen
      split at hlen
      · rw [List.length_nil] at hlen
        omega
      · rw [List.length_singleton] at hlen
        omega
    exact hpre.subset hp
  obtain ⟨t, _, ht⟩ := hall _ (List.getLast_mem ha)
  have hflat : a.flatten = a.dropLast.flatten ++ (t ++ [d]) := by
    rw [← ht]
    conv_lhs => rw [← List.dropLast_append_getLast ha]
    rw [List.flatten_append, List.flatten_singleton]
  rw [hflat, ← List.append_assoc]
  exact List.suffix_append _ _

/-- **A cut behind anything but a delimiter is one between chunks.** -/
theorem pieces_cut {d x : α} (hx : x ≠ d) {chunks : List (List α)} {a b : List (List α)}
    (h : (chunks.map (pieces d)).flatten = a ++ b) (ha : [x] <:+ a.flatten) :
    ∃ before after, chunks = before ++ after ∧ before.flatten = a.flatten ∧
      after.flatten = b.flatten := by
  rcases List.flatten_eq_append_iff.mp h with ⟨as, bs, hsplit, rfl, rfl⟩ |
    ⟨as, bs, c, cs, ds, hsplit, rfl, rfl⟩
  · obtain ⟨before, after, rfl, rfl, rfl⟩ := List.map_eq_append_iff.mp hsplit
    exact ⟨before, after, rfl, (pieces_all_flatten d before).symm,
      (pieces_all_flatten d after).symm⟩
  · obtain ⟨before, after, rfl, rfl, hafter⟩ := List.map_eq_append_iff.mp hsplit
    obtain ⟨chunk, after, rfl, hchunk, rfl⟩ := List.map_eq_cons_iff.mp hafter
    by_cases hbs : bs = []
    · subst hbs
      refine ⟨before, chunk :: after, rfl, ?_, ?_⟩
      · rw [List.append_nil, pieces_all_flatten]
      · rw [List.nil_append] at hchunk
        rw [← hchunk, List.flatten_append, pieces_flatten, pieces_all_flatten,
          List.flatten_cons]
    · -- inside a chunk a piece ends with the delimiter
      have hend := pieces_split hchunk hbs (by simp)
      rw [List.flatten_append] at ha
      obtain ⟨u, hu⟩ := ha
      obtain ⟨v, hv⟩ := hend
      rw [← hv, ← List.append_assoc] at hu
      have heq := List.append_inj_right' hu rfl
      exact absurd (List.singleton_injective heq) hx

/-- **The pieces a line is read in.** -/
theorem piece_line {d : α} {rest : List α} (ps : List (List α)) :
    ∀ t, d ∉ t → (∀ p ∈ ps, IsPiece d p) → ps.flatten = t ++ d :: rest →
      ∃ parts last ps', ps = parts ++ (last ++ [d]) :: ps' ∧
        (∀ q ∈ parts, q ≠ [] ∧ d ∉ q) ∧ d ∉ last ∧ parts.flatten ++ last = t ∧
        ps'.flatten = rest := by
  induction ps with
  | nil =>
      intro t _ _ h
      exact absurd h (by simp)
  | cons p ps ih =>
      intro t ht hps h
      have hp := hps p List.mem_cons_self
      have htail := fun q hq => hps q (List.mem_cons_of_mem p hq)
      rw [List.flatten_cons] at h
      have hpre : p <+: t ++ d :: rest := ⟨ps.flatten, h⟩
      rcases hp.2 with hpart | hline
      · rcases prefix_line ht hpre with ⟨_, t', rfl⟩ | ⟨buf', rfl⟩
        · rw [List.append_assoc, List.append_cancel_left_eq] at h
          obtain ⟨parts, last, ps', rfl, hparts, hlast, hflat, hrest⟩ :=
            ih t' (fun hm => ht (List.mem_append_right p hm)) htail h
          refine ⟨p :: parts, last, ps', rfl, ?_, hlast, ?_, hrest⟩
          · intro q hq
            rcases List.mem_cons.mp hq with rfl | hq
            · exact ⟨hp.1, hpart⟩
            · exact hparts q hq
          · rw [List.flatten_cons, List.append_assoc, hflat]
        · exact absurd (by simp) hpart
      · obtain ⟨s, hs, rfl⟩ := hline
        have hboth : s ++ d :: ps.flatten = t ++ d :: rest := by
          rw [← h]
          simp
        obtain ⟨rfl, hrest⟩ := line_unique hs ht hboth
        exact ⟨[], s, ps, rfl, by simp, hs, rfl, hrest⟩

end Lib.Lines
