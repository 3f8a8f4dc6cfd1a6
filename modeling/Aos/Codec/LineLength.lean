/-
  Aos.Codec.LineLength — how long the lines of an encoded text are.

  Base64 breaks a line behind the group that fills it, quoted-printable in
  front of the character that would not fit any more.  In both the column
  counter is the length of the line so far; the padding of Base64 is written
  without counting it.

  Main results:
    • `Base64.encode_loop_lines_le` — a line of Base64 has at most the line
      size, rounded up to whole groups;
    • `QP.encode_loop_short` — a line of quoted-printable goes over the line
      size by three characters at most.
-/
import Aos.Codec.Base64
import Aos.Codec.QP
import Aos.Lib.Lines

namespace Aos

open Lib.Lines

/-! ## §1. Base64. -/

namespace Base64

/-- A text split at CRLF. -/
def split_crlf : Bytes → List Bytes
  | [] => [[]]
  | [c] => [[c]]
  | a :: b :: s =>
      if a = CR ∧ b = LF then [] :: split_crlf s else (split_crlf (b :: s)).modifyHead (a :: ·)

theorem split_crlf_line (t rest : Bytes) (h : CR ∉ t) :
    split_crlf (t ++ CR :: LF :: rest) = t :: split_crlf rest := by
  induction t with
  | nil => rw [List.nil_append, split_crlf, if_pos ⟨rfl, rfl⟩]
  | cons a t ih =>
      have ha : ¬ (a = CR) := fun heq => h (heq ▸ List.mem_cons_self)
      have hrec := ih fun hmem => h (List.mem_cons_of_mem a hmem)
      obtain ⟨b, s, hs⟩ : ∃ b s, t ++ CR :: LF :: rest = b :: s := by
        cases t with
        | nil => exact ⟨CR, LF :: rest, rfl⟩
        | cons b t => exact ⟨b, _, rfl⟩
      rw [hs] at hrec
      rw [List.cons_append, hs, split_crlf, if_neg fun hboth => ha hboth.1, hrec]
      rfl

theorem split_crlf_text (t : Bytes) (h : CR ∉ t) : split_crlf t = [t] := by
  induction t with
  | nil => rfl
  | cons a t ih =>
      have ha : ¬ (a = CR) := fun heq => h (heq ▸ List.mem_cons_self)
      have hrec := ih fun hmem => h (List.mem_cons_of_mem a hmem)
      cases t with
      | nil => rfl
      | cons b t =>
          rw [split_crlf, if_neg fun hboth => ha hboth.1, hrec]
          rfl

theorem enc_ne_CR (i : Nat) : enc i ≠ CR := by
  have hall : enc_tbl.all (· != CR) = true := by decide +kernel
  have htbl : ∀ c ∈ enc_tbl, c ≠ CR := fun c hc => bne_iff_ne.mp (List.all_eq_true.mp hall c hc)
  unfold enc
  rw [List.getD_eq_getElem?_getD]
  cases h : enc_tbl[i]? with
  | none =>
      rw [Option.getD_none]
      decide
  | some c =>
      rw [Option.getD_some]
      exact htbl c (List.mem_of_getElem? h)

/-- The line size rounded up to whole groups. -/
def full_line (line_size : Nat) : Nat := (line_size + 3) / 4 * 4

/-- A line without a break in it. -/
theorem text_le {line_size : Nat} {t : Bytes} (hno : CR ∉ t) (hlen : t.length ≤ full_line line_size) :
    ∀ line ∈ split_crlf t, line.length ≤ full_line line_size := by
  rw [split_crlf_text t hno]
  intro line hline
  rw [List.mem_singleton.mp hline]
  exact hlen

/-- The padding fits behind the groups of a line that is not full. -/
theorem padding_le {line_size : Nat} (s : EncState) (t : Bytes) (hno : CR ∉ t)
    (hcols : t.length = s.cols) (hgroups : s.cols % 4 = 0) (hlt : s.cols < line_size) :
    ∀ line ∈ split_crlf (t ++ encode_padding line_size s), line.length ≤ full_line line_size := by
  have hfull : ¬ (line_size ≠ 0 ∧ s.cols ≥ line_size) := by omega
  have hpad : CR ≠ pad := by decide
  apply text_le
  · rw [List.mem_append, not_or]
    refine ⟨hno, ?_⟩
    unfold encode_padding
    rw [if_neg hfull]
    have hne : ∀ i, CR ≠ enc i := fun i heq => enc_ne_CR i heq.symm
    split_ifs <;> simp [hne, hpad]
  · have hlen : (encode_padding line_size s).length ≤ 4 := by
      unfold encode_padding
      rw [if_neg hfull]
      split_ifs <;> simp
    rw [List.length_append]
    unfold full_line
    omega

/-- Behind `t` on a line that is not full. -/
theorem encode_loop_lines_le (line_size : Nat) :
    ∀ (x : Bytes) (cols : Nat) (t : Bytes), CR ∉ t → t.length = cols → cols % 4 = 0 →
      cols < line_size → ∀ line ∈ split_crlf (t ++ encode_loop line_size ⟨0, 0, cols⟩ x),
        line.length ≤ full_line line_size
  | [], cols, t, hno, hcols, hgroups, hlt => padding_le ⟨0, 0, cols⟩ t hno hcols hgroups hlt
  | [a], cols, t, hno, hcols, hgroups, hlt => by
      simp only [encode_loop, encode_body]
      exact padding_le ⟨1, _, cols⟩ t hno hcols hgroups hlt
  | [a, b], cols, t, hno, hcols, hgroups, hlt => by
      simp only [encode_loop, encode_body]
      exact padding_le ⟨2, _, cols⟩ t hno hcols hgroups hlt
  | a :: b :: c :: rest, cols, t, hno, hcols, hgroups, hlt => by
      rw [encode_loop_group]
      obtain ⟨group, hgroup, hlen, hcr⟩ : ∃ group, [enc (bits3 a b c >>> 18),
          enc ((bits3 a b c >>> 12) &&& 0x3f), enc ((bits3 a b c >>> 6) &&& 0x3f),
          enc (bits3 a b c &&& 0x3f)] = group ∧ group.length = 4 ∧ CR ∉ group := by
        have hne : ∀ i, CR ≠ enc i := fun i heq => enc_ne_CR i heq.symm
        exact ⟨_, rfl, rfl, by simp [hne]⟩
      rw [hgroup, ← List.append_assoc]
      have hno' : CR ∉ t ++ group := by
        rw [List.mem_append, not_or]
        exact ⟨hno, hcr⟩
      have hcols' : (t ++ group).length = cols + 4 := by
        rw [List.length_append, hcols, hlen]
      by_cases hfull : cols + 4 ≥ line_size
      · -- the group fills the line
        have hbreak : line_break line_size (cols + 4) = [CR, LF] := if_pos ⟨by omega, hfull⟩
        have hnext : next_cols line_size (cols + 4) = 0 := if_pos ⟨by omega, hfull⟩
        rw [hbreak, hnext]
        show ∀ line ∈ split_crlf (t ++ group ++ CR :: LF :: encode_loop line_size ⟨0, 0, 0⟩ rest), _
        rw [split_crlf_line _ _ hno']
        intro line hline
        cases List.mem_cons.mp hline with
        | inl heq =>
            rw [heq, hcols']
            unfold full_line
            omega
        | inr hrest =>
            exact encode_loop_lines_le line_size rest 0 [] List.not_mem_nil rfl rfl (by omega)
              line hrest
      · have hbreak : line_break line_size (cols + 4) = [] := if_neg fun h => hfull h.2
        have hnext : next_cols line_size (cols + 4) = cols + 4 := if_neg fun h => hfull h.2
        rw [hbreak, hnext, List.nil_append]
        exact encode_loop_lines_le line_size rest (cols + 4) (t ++ group) hno' hcols' (by omega)
          (by omega)

/-- **Base64 keeps to its bounds.**  For every input and line size, what is written fits
    the size that is declared; and where lines are broken, none is longer than the line
    size rounded up to whole groups. -/
theorem base64_bounds (line_size : Nat) (x : Bytes) :
    (encode line_size x).length + 1 ≤ enough_encode_size line_size x.length ∧
      (line_size > 0 →
        ∀ line ∈ split_crlf (encode line_size x), line.length ≤ full_line line_size) :=
  ⟨encode_length_le line_size x, fun hpos =>
    encode_loop_lines_le line_size x 0 [] List.not_mem_nil rfl rfl hpos⟩

/-- Eight bytes in lines of six, which are lines of eight. -/
theorem base64_bounds_eight :
    split_crlf (encode 6 (lit "abcdefgh")) = [lit "YWJjZGVm", lit "Z2g="] ∧
      ∀ line ∈ split_crlf (encode 6 (lit "abcdefgh")), line.length ≤ full_line 6 :=
  ⟨by decide, (base64_bounds 6 (lit "abcdefgh")).2 (by decide)⟩

end Base64

/-! ## §2. Quoted-printable. -/

namespace QP

/-- A line without its LF or CRLF. -/
def chomp (line : Bytes) : Bytes :=
  if line.dropLast.getLast? = some CR then line.dropLast.dropLast else line.dropLast

/-- The lines of a text: those that end with LF, without it and a CR in front, and what
    is left behind the last. -/
def text_lines (s : Bytes) : List Bytes := (cut LF [] s).1.map chomp ++ [(cut LF [] s).2]

theorem chomp_crlf (t : Bytes) : chomp (t ++ [CR, LF]) = t := by
  have hdrop : (t ++ [CR, LF]).dropLast = t ++ [CR] := by
    rw [show t ++ [CR, LF] = (t ++ [CR]) ++ [LF] by simp, List.dropLast_concat]
  unfold chomp
  rw [hdrop, List.getLast?_concat, if_pos rfl, List.dropLast_concat]

theorem chomp_le (t : Bytes) : (chomp (t ++ [LF])).length ≤ t.length := by
  unfold chomp
  rw [List.dropLast_concat]
  split_ifs
  · rw [List.length_dropLast]
    omega
  · exact le_rfl

/-- No line is over the line size by more than three characters, nor is what is left. -/
def Short (line_size : Nat) (r : List Bytes × Bytes) : Prop :=
  (∀ line ∈ r.1, (chomp line).length ≤ line_size + 3) ∧ r.2.length ≤ line_size + 3

theorem Short.line {line_size : Nat} {l : Bytes} {r : List Bytes × Bytes}
    (hl : (chomp l).length ≤ line_size + 3) (h : Short line_size r) :
    Short line_size (l :: r.1, r.2) := by
  refine ⟨?_, h.2⟩
  intro line hline
  cases List.mem_cons.mp hline with
  | inl heq => exact heq ▸ hl
  | inr hmem => exact h.1 line hmem

/-- The soft break ends a line that is full, and leaves one that is not. -/
theorem short_soft_break {line_size cols : Nat} {t rest : Bytes} (hpos : line_size > 0)
    (hcols : t.length = cols) (hle : cols ≤ line_size + 2)
    (hrest : ∀ t' : Bytes, t'.length = (soft_break line_size cols).2 → t'.length < line_size →
      Short line_size (cut LF t' rest)) :
    Short line_size (cut LF t ((soft_break line_size cols).1 ++ rest)) := by
  unfold soft_break at hrest ⊢
  by_cases hfull : line_size ≠ 0 ∧ cols ≥ line_size
  · rw [if_pos hfull] at hrest ⊢
    have hno : LF ∉ [EQ, CR] := by decide
    show Short line_size (cut LF t ([EQ, CR] ++ LF :: rest))
    rw [cut_line LF [EQ, CR] t rest hno]
    have hline : t ++ [EQ, CR] ++ [LF] = (t ++ [EQ]) ++ [CR, LF] := by simp
    refine Short.line ?_ (hrest [] rfl hpos)
    rw [hline, chomp_crlf, List.length_append, hcols, List.length_singleton]
    omega
  · rw [if_neg hfull] at hrest ⊢
    exact hrest t hcols (by omega)

/-- Behind `t` on a line. -/
theorem encode_loop_short {line_size : Nat} (hpos : line_size > 0) :
    ∀ (x : Bytes) (cols : Nat) (t : Bytes), t.length = cols → cols ≤ line_size + 2 →
      Short line_size (cut LF t (encode_loop line_size cols x)) := by
  intro x
  induction x with
  | nil =>
      intro cols t hcols hle
      refine ⟨fun line hline => absurd hline List.not_mem_nil, ?_⟩
      show t.length ≤ line_size + 3
      omega
  | cons b x ih =>
      intro cols t hcols hle
      rw [encode_loop]
      simp only
      by_cases hplain : b < 0x80 ∧ b ≠ EQ
      · rw [if_pos hplain]
        apply short_soft_break hpos hcols hle
        intro t' hcols' hlt
        by_cases hb : b = LF
        · -- a line break of the input
          subst hb
          rw [if_pos rfl, cut_delim]
          exact Short.line (le_trans (chomp_le t') (by omega)) (ih 0 [] rfl (by omega))
        · rw [if_neg hb, cut_skip LF b t' _ hb]
          apply ih
          · rw [List.length_append, hcols', List.length_singleton]
          · omega
      · rw [if_neg hplain]
        apply short_soft_break hpos hcols hle
        intro t' hcols' hlt
        obtain ⟨⟨_, _, hhi⟩, ⟨_, _, hlo⟩, _⟩ := hex_digits b
        have heq : EQ ≠ LF := by decide
        rw [cut_skip LF _ _ _ heq, cut_skip LF _ _ _ hhi, cut_skip LF _ _ _ hlo]
        apply ih
        · simp only [List.length_append, List.length_singleton]
          omega
        · omega

/-- **Quoted-printable keeps to its bounds.**  For every input and line size, what is
    written fits the size that is declared; and where lines are broken, none is over the
    line size by more than three characters. -/
theorem qp_bounds (line_size : Nat) (x : Bytes) :
    (encode line_size x).length + 1 ≤ enough_encode_size line_size x.length ∧
      (line_size > 0 →
        ∀ line ∈ text_lines (encode line_size x), line.length ≤ line_size + 3) := by
  refine ⟨encode_length_le line_size x, fun hpos line hline => ?_⟩
  obtain ⟨hlines, hlast⟩ := encode_loop_short hpos x 0 [] rfl (Nat.zero_le _)
  cases List.mem_append.mp hline with
  | inl hmem =>
      obtain ⟨l, hl, rfl⟩ := List.mem_map.mp hmem
      exact hlines l hl
  | inr hmem =>
      rw [List.mem_singleton.mp hmem]
      exact hlast

/-- A line of two characters that becomes one of five, the most there can be. -/
theorem qp_bounds_five :
    text_lines (encode 2 (lit "a==b")) = [lit "a=3D=", lit "=3D=", lit "b"] ∧
      ∀ line ∈ text_lines (encode 2 (lit "a==b")), line.length ≤ 2 + 3 :=
  ⟨by decide, (qp_bounds 2 (lit "a==b")).2 (by decide)⟩

end QP

end Aos
