/-
  Aos.Codec.UUBounds — what `UU` writes against what it declares, and what it reads
  against what it is given.

  `enough_encode_size` counts lines of `line_size_` characters; a line of the
  encoder is the next smaller multiple of four.  The decoder takes the number
  of characters of a line from its first one, and compares it with nothing.

  Main results:
    • `encode_lines_length` — what the encoder writes;
    • `uu_fits_iff` — the lengths for which it fits;
    • `uu_decode_reads_iff` — the texts the decoder does not run off.
-/
import Aos.Codec.UU

namespace Aos.UU

/-! ## §1. What `encode` writes. -/

/-- `enough_encode_size(size_t)`. -/
def enough_encode_size (u : Coder) (size : Nat) : Nat :=
  let size := (size / 3 + 1) * 4 + 1
  let n_line := size / u.line_size_ + 1
  size + n_line * 3

theorem encode_line_length : ∀ (n : Nat) (p : Bytes), (n + 2) / 3 * 3 ≤ p.length →
    (encode_line n p).length = (n + 2) / 3 * 4 := by
  intro n
  induction n using Nat.strong_induction_on with
  | _ n ih =>
      intro p hp
      match n, p with
      | 0, p =>
          rw [encode_line_zero]
          rfl
      | n + 1, [] => exact absurd hp (by simp only [List.length_nil]; omega)
      | n + 1, [_] => exact absurd hp (by simp only [List.length_cons, List.length_nil]; omega)
      | n + 1, [_, _] => exact absurd hp (by simp only [List.length_cons, List.length_nil]; omega)
      | n + 1, p0 :: p1 :: p2 :: rest =>
          have hrest : (n - 2 + 2) / 3 * 3 ≤ rest.length := by
            simp only [List.length_cons] at hp
            omega
          rw [encode_line_group, List.length_append, ih (n - 2) (by omega) rest hrest]
          show 4 + (n - 2 + 2) / 3 * 4 = (n + 1 + 2) / 3 * 4
          omega

theorem line_break_length (u : Coder) : (line_break u).length = 2 := by
  have hge := u.ge
  rw [line_break, if_pos (by omega)]
  rfl

/-- The lines of a text of `n` bytes; one at least is written. -/
def n_line (u : Coder) (n : Nat) : Nat := (max n 1 + n_max u - 1) / n_max u

/-- One line less. -/
theorem n_line_step (u : Coder) {n : Nat} (h : n > n_max u) :
    n_line u n = n_line u (n - n_max u) + 1 := by
  obtain ⟨hlo, _⟩ := n_max_bounds u
  unfold n_line
  have hsum : max n 1 + n_max u - 1 = max (n - n_max u) 1 + n_max u - 1 + n_max u := by omega
  rw [hsum, Nat.add_div_right _ (by omega)]

theorem n_line_one (u : Coder) {n : Nat} (h : n ≤ n_max u) : n_line u n = 1 := by
  obtain ⟨hlo, _⟩ := n_max_bounds u
  unfold n_line
  rw [Nat.div_eq_iff (by omega)]
  omega

/-- A count that is taken off a larger one. -/
theorem toInt_sub {r k : Nat} (h : toInt r > k) : toInt (r - k : Nat) = toInt r - k := by
  have hlong := toInt_length r
  unfold toInt at h hlong ⊢
  rw [Int.bmod_def] at h hlong ⊢
  rw [Int.bmod_def]
  omega

section Encode

variable (u : Coder) (last : Vector Byte 80) (after : Byte) {rest : Bytes} (hne : rest ≠ [])

include hne

/-- A full line. -/
theorem encode_full_line (hfull : toInt rest.length > n_max u) :
    encode_lines u last after rest
      = (encode_lines u last after (rest.drop (n_max u))).map (fun more =>
          enc (UInt8.ofNat (n_max u)) :: (encode_line (n_max u) rest ++ line_break u ++ more)) ∧
    (encode_line (n_max u) rest).length = n_max u / 3 * 4 := by
  constructor
  · rw [encode_lines, if_neg hne]
    simp only
    rw [if_pos hfull]
  · have hle : n_max u ≤ rest.length := by
      have hlong := toInt_length rest.length
      omega
    have hgroups : (n_max u + 2) / 3 * 3 = n_max u ∧ (n_max u + 2) / 3 = n_max u / 3 := by
      unfold n_max
      omega
    rw [encode_line_length _ _ (hgroups.1.trans_le hle), hgroups.2]

/-- The last line, of a text that is shorter or whose length is taken for less. -/
theorem encode_last_length {k : Int} (hk : toInt rest.length = k) (hlast : ¬ k > n_max u)
    (hmin : -1 ≤ k) :
    ∃ out, encode_lines u last after rest = some out ∧
      out.length = (k.toNat + 2) / 3 * 4 + 3 := by
  have hlong := toInt_length rest.length
  have hline : encode_lines u last after rest = _ := encode_last_line hne (hk ▸ hlast)
  rw [hk] at hline hlong
  rw [if_neg (by omega)] at hline
  refine ⟨_, hline, ?_⟩
  obtain ⟨_, hhi⟩ := n_max_bounds u
  have hcopy := copy_last_length last after rest k (by omega) (by omega)
  have hgroups := encode_line_length k.toNat (copy_last last after rest k) (by omega)
  simp only [List.length_cons, List.length_append, line_break_length]
  omega

end Encode

/-- **The length of what the encoder writes** for a text whose length narrows to
`k`: four characters for every three bytes it takes the text for, and three
characters of overhead for every line.  By induction on the text: a full line
comes off both, and the last line is one line. -/
theorem encode_lines_length (u : Coder) (last : Vector Byte 80) (after : Byte) (rest : Bytes)
    (hne : rest ≠ []) (k : Int) (hk : toInt rest.length = k) :
    if k < -1 then encode_lines u last after rest = none
    else ∃ out, encode_lines u last after rest = some out ∧
      out.length = (k.toNat + 2) / 3 * 4 + n_line u k.toNat * 3 := by
  induction hr : rest.length using Nat.strong_induction_on generalizing rest k with
  | _ r ih =>
      obtain ⟨hlo, hhi⟩ := n_max_bounds u
      by_cases hfull : k > n_max u
      · -- a full line, and the text behind it
        have hpos : 0 < rest.length := List.length_pos_iff.mpr hne
        have hle : (rest.length : Int) ≥ k := by
          have hlong := toInt_length rest.length
          omega
        obtain ⟨henc, hline⟩ := encode_full_line u last after hne (hk ▸ hfull)
        have hdrop : toInt (rest.drop (n_max u)).length = k - n_max u := by
          rw [List.length_drop, toInt_sub (hk ▸ hfull), hk]
        have hmore : rest.drop (n_max u) ≠ [] := by
          rw [← List.length_pos_iff, List.length_drop]
          omega
        have hrec := ih (r - n_max u) (by omega) _ hmore _ hdrop (by rw [List.length_drop, hr])
        rw [if_neg (by omega)] at hrec ⊢
        obtain ⟨more, hsome, hlen⟩ := hrec
        refine ⟨_, by rw [henc, hsome]; rfl, ?_⟩
        have hnat : (k - n_max u).toNat = k.toNat - n_max u := by omega
        have hcount : n_line u k.toNat = n_line u (k - n_max u).toNat + 1 := by
          rw [n_line_step u (n := k.toNat) (by omega), hnat]
        have hthree : n_max u / 3 * 3 = n_max u := by
          unfold n_max
          omega
        simp only [List.length_cons, List.length_append, hline, line_break_length, hlen, hcount]
        omega
      · by_cases hmin : k < -1
        · rw [if_pos hmin, encode_last_line hne (hk ▸ hfull), hk, if_pos (by omega)]
        · rw [if_neg hmin]
          obtain ⟨out, hout, hlen⟩ := encode_last_length u last after hne hk hfull (by omega)
          refine ⟨out, hout, ?_⟩
          rw [hlen, n_line_one u (by omega)]

/-! ## §2. The lengths for which it fits. -/

/-- The lines the bound counts. -/
def declared_n_line (u : Coder) (n : Nat) : Nat := ((n / 3 + 1) * 4 + 1) / u.line_size_ + 1

/-- The lengths for which the bound holds: the length does not narrow to less
than `-1`, and below 2³¹ the encoder's lines of `n_max` bytes are no more than
the lines the bound counts.  A length that is a multiple of three has a group
to spare, which pays for one line. -/
def Fits (u : Coder) (n : Nat) : Prop :=
  -1 ≤ toInt n ∧
    (n < 2 ^ 31 →
      (n + n_max u - 1) / n_max u ≤ declared_n_line u n + (if n % 3 = 0 then 1 else 0))

/-- No line is shorter than nine bytes. -/
theorem n_line_le (u : Coder) (k : Nat) : n_line u k ≤ k / 9 + 1 := by
  obtain ⟨hlo, _⟩ := n_max_bounds u
  unfold n_line
  rw [Nat.div_le_iff_le_mul_add_pred (by omega)]
  have hm : 9 * (k / 9 + 1) ≤ n_max u * (k / 9 + 1) := Nat.mul_le_mul_right _ hlo
  have hk : k < 9 * (k / 9 + 1) := Nat.lt_mul_div_succ k (by decide)
  omega

theorem fits_zero (u : Coder) : Fits u 0 := by
  obtain ⟨hlo, _⟩ := n_max_bounds u
  refine ⟨by decide, fun _ => ?_⟩
  rw [Nat.zero_add, Nat.div_eq_of_lt (by omega)]
  omega

/-- What is written of `n` bytes, compared with what is declared. -/
theorem fits_iff (u : Coder) {n : Nat} (hpos : 0 < n) (hmin : -1 ≤ toInt n) :
    ((toInt n).toNat + 2) / 3 * 4 + n_line u (toInt n).toNat * 3 + 1 ≤ enough_encode_size u n
      ↔ Fits u n := by
  have hdeclared : enough_encode_size u n = (n / 3 + 1) * 4 + 1 + declared_n_line u n * 3 := rfl
  rw [hdeclared]
  unfold Fits
  rcases toInt_length n with ⟨hsmall, hn⟩ | ⟨hbig, hlt, hle⟩
  · have hline : n_line u n = (n + n_max u - 1) / n_max u := by
      rw [n_line, Nat.max_eq_left hpos]
    rw [hn, Int.toNat_natCast, hline]
    generalize (n + n_max u - 1) / n_max u = written
    generalize declared_n_line u n = declared
    split <;> omega
  · -- what the length narrows to is less than half of it
    have hwritten := n_line_le u (toInt n).toNat
    have hhalf : toInt n < 2 ^ 31 := by
      unfold toInt
      rw [Int.bmod_def]
      omega
    generalize declared_n_line u n = declared at *
    generalize n_line u (toInt n).toNat = written at *
    generalize toInt n = k at *
    have hcount : (k.toNat + 2) / 3 * 4 + written * 3 + 1 ≤ (n / 3 + 1) * 4 + 1 + declared * 3 := by
      omega
    exact iff_of_true hcount ⟨hmin, fun h => by omega⟩

/-- What the encoder writes, its NUL included, fits exactly when the length does. -/
theorem encode_fits_iff (u : Coder) (last : Vector Byte 80) (after : Byte) (x : Bytes) :
    (∃ out, encode u last after x = some out ∧ out.length + 1 ≤ enough_encode_size u x.length)
      ↔ Fits u x.length := by
  by_cases hne : x = []
  · -- nothing is written but the NUL
    have hout : encode u last after x = some [] := by
      rw [hne, encode, encode_lines, if_pos rfl]
    refine iff_of_true ⟨[], hout, ?_⟩ ?_
    · show 1 ≤ (x.length / 3 + 1) * 4 + 1 + _
      omega
    · rw [hne]
      exact fits_zero u
  · obtain ⟨k, hk⟩ : ∃ k, toInt x.length = k := ⟨_, rfl⟩
    have hlen := encode_lines_length u last after x hne k hk
    by_cases hmin : k < -1
    · rw [if_pos hmin] at hlen
      refine iff_of_false ?_ (fun h => absurd h.1 (by omega))
      intro h
      obtain ⟨out, hout, _⟩ := h
      rw [encode, hlen] at hout
      cases hout
    · rw [if_neg hmin] at hlen
      obtain ⟨out, hout, hlen⟩ := hlen
      have hbound : (∃ out, encode u last after x = some out ∧
            out.length + 1 ≤ enough_encode_size u x.length)
          ↔ out.length + 1 ≤ enough_encode_size u x.length := by
        constructor
        · intro h
          obtain ⟨out', hout', hle⟩ := h
          cases hout.symm.trans hout'
          exact hle
        · intro h
          exact ⟨out, hout, h⟩
      have hfits := fits_iff u (List.length_pos_iff.mpr hne) (by omega)
      rw [hbound, hlen, ← hfits, hk]

/-- A line size that is a multiple of four is what the bound takes it for. -/
theorem fits_of_four_dvd (u : Coder) {n : Nat} (hn : n < 2 ^ 31) (hfour : 4 ∣ u.line_size_) :
    Fits u n := by
  refine ⟨?_, fun _ => ?_⟩
  · rw [toInt_of_lt (by omega) (by omega)]
    omega
  · have hge := u.ge
    obtain ⟨q, hq⟩ := hfour
    have hmax : n_max u = q * 3 := by
      unfold n_max
      omega
    have hlines : (n + n_max u - 1) / n_max u ≤ declared_n_line u n := by
      rw [declared_n_line, hq, hmax, Nat.div_le_iff_le_mul_add_pred (by omega)]
      -- a line of the bound has room for the four characters of every three bytes
      have hroom := Nat.lt_mul_div_succ ((n / 3 + 1) * 4 + 1) (show 0 < 4 * q by omega)
      rw [Nat.mul_assoc] at hroom
      rw [Nat.mul_comm q 3, Nat.mul_assoc]
      omega
    omega

/-- With any other line size the lines the encoder writes outgrow the lines the
bound counts. -/
theorem fits_long_iff (u : Coder) {n : Nat} (hlong : 8155 ≤ n) (hn : n < 2 ^ 31) :
    Fits u n ↔ 4 ∣ u.line_size_ := by
  refine ⟨fun h => ?_, fits_of_four_dvd u hn⟩
  have hlines := h.2 hn
  have hge := u.ge
  have hle := u.le
  rw [declared_n_line, n_max] at hlines
  by_contra hfour
  generalize u.line_size_ = l at *
  obtain ⟨q, hq⟩ : ∃ q, q = l / 4 := ⟨_, rfl⟩
  rw [← hq] at hlines
  have hlong_line : 4 * q + 1 ≤ l := by omega
  -- `d` full lines are declared, and the encoder needs no more than two lines beside them
  have hdeclared := Nat.mul_div_le ((n / 3 + 1) * 4 + 1) l
  have hwritten := Nat.lt_mul_div_succ (n + q * 3 - 1) (show 0 < q * 3 by omega)
  generalize ((n / 3 + 1) * 4 + 1) / l = d at *
  generalize (n + q * 3 - 1) / (q * 3) = k at *
  have hk : k ≤ d + 2 := by
    split_ifs at hlines
    · exact hlines
    · exact hlines.trans (Nat.le_succ _)
  have hn_le : n ≤ 3 * (q * d) + 6 * q :=
    calc n ≤ q * 3 * k := by
          rw [Nat.mul_add, Nat.mul_one] at hwritten
          omega
      _ ≤ q * 3 * (d + 2) := Nat.mul_le_mul_left _ hk
      _ = 3 * (q * d) + 6 * q := by ring
  have hd : d ≤ 8 * q + 5 := by
    have hshort : (4 * q + 1) * d ≤ l * d := Nat.mul_le_mul_right d hlong_line
    have hexpand : (4 * q + 1) * d = 4 * (q * d) + d := by ring
    omega
  have hbound : q * d ≤ 18 * (8 * 18 + 5) := Nat.mul_le_mul (by omega) (by omega)
  omega

/-- **UU output against its declared bound**: the encoder writes no more than
`enough_encode_size`, its NUL included, exactly for the lengths that fit. -/
theorem uu_fits_iff (requested : Nat) (last : Vector Byte 80) (after : Byte) (x : Bytes) :
    (∃ out, encode (line_size requested) last after x = some out ∧
        out.length + 1 ≤ enough_encode_size (line_size requested) x.length)
      ↔ Fits (line_size requested) x.length :=
  encode_fits_iff (line_size requested) last after x

/-- Nineteen bytes at the line size the easy API asks for: three lines are
written, and two are declared. -/
theorem uu_nineteen_overrun :
    ¬ ∃ out, encode (line_size 0) (Vector.replicate 80 0) NUL (List.replicate 19 0) = some out ∧
        out.length + 1 ≤ enough_encode_size (line_size 0) (List.replicate 19 (0 : Byte)).length := by
  rw [encode_fits_iff]
  intro h
  exact absurd (h.2 (by decide)) (by decide)

/-! ## §3. What the decoder reads. -/

/-- The characters of the groups of a line of `n` bytes. -/
def n_read (n : Nat) : Nat := (n + 2) / 3 * 4

/-- The texts whose lines have all the characters their first one promises. -/
inductive Complete : Bytes → Prop
  | nil : Complete []
  | stop {b : Byte} {rest : Bytes} : dec b = 0 → Complete (b :: rest)
  | line {b : Byte} {rest : Bytes} : dec b ≠ 0 → n_read (dec b).toNat ≤ rest.length →
      Complete ((rest.drop (n_read (dec b).toNat)).dropWhile (fun c => c = CR ∨ c = LF)) →
      Complete (b :: rest)

/-- A line leaves the memory behind its groups, whether they were read in full or not. -/
theorem decode_line_leaves :
    ∀ (n : Nat) (m out m' : Bytes), decode_line n m = some (out, m') → m' = m.drop (n_read n) := by
  intro n
  induction n using Nat.strong_induction_on with
  | _ n ih =>
      intro m out m' h
      cases n with
      | zero =>
          rw [decode_line, Option.some.injEq, Prod.mk.injEq] at h
          exact h.2.symm
      | succ n =>
          have hgroups : 4 + n_read (n - 2) = n_read (n + 1) := by
            unfold n_read
            omega
          rw [decode_line] at h
          split at h
          · cases h
          · rw [Option.map_eq_some_iff] at h
            obtain ⟨⟨out', m₁⟩, hline, heq⟩ := h
            have hrec := ih (n - 2) (by omega) _ _ _ hline
            rw [Prod.mk.injEq] at heq
            rw [← heq.2, hrec, List.drop_drop, hgroups]

/-- A line whose groups lie in the memory is read. -/
theorem decode_line_isSome :
    ∀ (n : Nat) (m : Bytes), n_read n ≤ m.length → (decode_line n m).isSome := by
  intro n
  induction n using Nat.strong_induction_on with
  | _ n ih =>
      intro m hm
      cases n with
      | zero =>
          rw [decode_line]
          rfl
      | succ n =>
          have hgroups : 4 + n_read (n - 2) = n_read (n + 1) := by
            unfold n_read
            omega
          have hreads : group_reads (n + 1) ≤ 4 := by
            unfold group_reads
            split <;> omega
          rw [decode_line, if_neg (by omega), Option.isSome_map]
          exact ih (n - 2) (by omega) _ (by rw [List.length_drop]; omega)

/-- The NUL stops the skipping of line breaks. -/
theorem skip_line_break_nul (m : Bytes) :
    skip_line_break (m ++ [NUL]) = some (m.dropWhile (fun c => c = CR ∨ c = LF) ++ [NUL]) := by
  induction m with
  | nil => rfl
  | cons b m ih =>
      rw [List.cons_append, skip_line_break, List.dropWhile_cons]
      split
      next h => rw [ih, if_pos (by simpa using h)]
      next h => rw [if_neg (by simpa using h), List.cons_append]

/-- A line whose groups end behind the NUL runs off the text. -/
theorem decode_lines_short {b : Byte} {rest : Bytes} (hn : 0 < (dec b).toNat)
    (hshort : rest.length < n_read (dec b).toNat) : decode_lines 1 (b :: (rest ++ [NUL])) = none := by
  have hlen : (b :: (rest ++ [NUL])).length > 1 := by
    simp only [List.length_cons, List.length_append, List.length_nil]
    omega
  rw [decode_lines, if_pos hlen, if_neg (by omega)]
  split
  next => rfl
  next out m' hline =>
    have hleft : m' = [] := by
      rw [decode_line_leaves _ _ _ _ hline, List.drop_eq_nil_iff, List.length_append]
      exact hshort
    subst hleft
    rfl

/-- A line whose groups end in the text is read, and its break skipped. -/
theorem decode_lines_long {b : Byte} {rest : Bytes} (hn : 0 < (dec b).toNat)
    (hlong : n_read (dec b).toNat ≤ rest.length) :
    (decode_lines 1 (b :: (rest ++ [NUL]))).isSome
      = (decode_lines 1 ((rest.drop (n_read (dec b).toNat)).dropWhile
          (fun c => c = CR ∨ c = LF) ++ [NUL])).isSome := by
  have hread : (decode_line (dec b).toNat (rest ++ [NUL])).isSome := by
    refine decode_line_isSome _ _ ?_
    rw [List.length_append]
    omega
  obtain ⟨⟨out, m'⟩, hline⟩ := Option.isSome_iff_exists.mp hread
  have hleft := decode_line_leaves _ _ _ _ hline
  rw [List.drop_append_of_le_length hlong] at hleft
  have hskip := skip_line_break_nul (rest.drop (n_read (dec b).toNat))
  rw [← hleft] at hskip
  have hlen : 1 < (rest ++ [NUL]).length + 1 := by
    rw [List.length_append]
    show 1 < rest.length + 1 + 1
    omega
  rw [decode_lines_step hlen hn hline hskip, Option.isSome_map]

/-- The loop stays in the text exactly when its lines are complete.  By
induction on the text: a line is read if its groups lie in it, and the text
behind its line break decides. -/
theorem decode_lines_reads_iff (x : Bytes) :
    (decode_lines 1 (x ++ [NUL])).isSome ↔ Complete x := by
  induction hk : x.length using Nat.strong_induction_on generalizing x with
  | _ k ih =>
      cases x with
      | nil =>
          rw [List.nil_append, decode_lines_end]
          exact iff_of_true rfl Complete.nil
      | cons b rest =>
          rw [List.cons_append]
          by_cases hzero : dec b = 0
          · rw [decode_lines_zero b _ hzero (by simp)]
            exact iff_of_true rfl (Complete.stop hzero)
          · have hn : 0 < (dec b).toNat := by
              rw [Nat.pos_iff_ne_zero]
              intro h
              exact hzero (UInt8.toNat_inj.mp h)
            by_cases hlong : n_read (dec b).toNat ≤ rest.length
            · have hshrinks : ((rest.drop (n_read (dec b).toNat)).dropWhile
                  (fun c => c = CR ∨ c = LF)).length < k := by
                have hskipped := List.length_dropWhile_le
                  (fun c => decide (c = CR ∨ c = LF)) (rest.drop (n_read (dec b).toNat))
                rw [List.length_drop] at hskipped
                rw [← hk, List.length_cons]
                omega
              rw [decode_lines_long hn hlong, ih _ hshrinks _ rfl]
              constructor
              · intro h
                exact Complete.line hzero hlong h
              · intro h
                cases h with
                | stop h => exact absurd h hzero
                | line _ _ h => exact h
            · rw [decode_lines_short hn (by omega)]
              refine iff_of_false (by simp) ?_
              intro h
              cases h with
              | stop h => exact hzero h
              | line _ h _ => exact hlong h

/-- **UU decoding in bounds**: with `n` bytes and a NUL, `decode(in, n, out)`
reads nothing else exactly when every line of the text has the characters its
length byte promises. -/
theorem uu_decode_reads_iff (x : Bytes) :
    (decode (x ++ [NUL]) x.length).isSome ↔ Complete x := by
  rw [decode_encoded]
  exact decode_lines_reads_iff x

/-- A text of one length byte: 45 bytes are promised, and the loop goes on
behind the NUL. -/
theorem uu_decode_one_runs_off :
    ¬ (decode ((lit "M") ++ [NUL]) (lit "M").length).isSome := by
  rw [decode_encoded, decode_lines_reads_iff]
  intro h
  cases h with
  | stop h => exact absurd h (by decide)
  | line _ h _ => exact absurd h (by decide)

end Aos.UU
