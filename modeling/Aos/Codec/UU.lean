/-
  Aos.Codec.UU — `UU::encode` and `UU::decode`.

  A line is a length character followed by groups of four characters for
  three bytes.  The last line is copied to a side buffer first, and the
  padding of its last group is whatever that buffer held.  The number of
  bytes left is narrowed to `int` on every line, so the encoder is followed
  here with the C conversions spelled out; a `memcpy` of a negative count is
  `none`, and so is a read past the memory the decoder is given.

  Main result:
    • `uu_decode_encode_iff` — **decoding undoes encoding exactly for the
      inputs shorter than 2³¹**, whatever the padding bytes are.
-/
import Aos.Byte
import Mathlib.Data.FinEnum

namespace Aos.UU

/-! ## §1. The object and its character codes. -/

/-- A `UU` object: the setter keeps the line size between 15 and 75. -/
structure Coder where
  line_size_ : Nat
  ge : 15 ≤ line_size_
  le : line_size_ ≤ 75

/-- `line_size(size_t)`. -/
def line_size (requested : Nat) : Coder :=
  let l := if requested < 15 then 15 else requested
  let l := if l > 75 then 75 else l
  ⟨l, by grind, by grind⟩

/-- A `char` promoted to `int`. -/
def widen (c : Byte) : BitVec 32 := c.toBitVec.signExtend 32

/-- An `int` passed where a `char` is expected. -/
def narrow (i : BitVec 32) : Byte := ⟨i.setWidth 8⟩

def enc (c : Byte) : Byte := if c ≠ 0 then narrow ((widen c &&& 0o77) + 32) else 96

def dec (c : Byte) : Byte := narrow ((widen c - 32) &&& 0o77)

/-! ## §2. `encode`. -/

/-- The four characters of three bytes. -/
def encode_group (p0 p1 p2 : Byte) : Bytes :=
  [enc (narrow ((widen p0).sshiftRight 2)),
    enc (narrow (((widen p0 <<< 4) &&& 0o60) ||| ((widen p1).sshiftRight 4 &&& 0o17))),
    enc (narrow (((widen p1 <<< 2) &&& 0o74) ||| ((widen p2).sshiftRight 6 &&& 0o3))),
    enc (narrow (widen p2 &&& 0o77))]

/-- `for(;n > 0; ptr += 3, n -= 3)` over the memory at `ptr`. -/
def encode_line : Nat → Bytes → Bytes
  | n, p0 :: p1 :: p2 :: rest =>
      if n > 0 then encode_group p0 p1 p2 ++ encode_line (n - 3) rest else []
  | _, _ => []

/-- `(int) (line_size_ / 4) * 3`. -/
def n_max (u : Coder) : Nat := u.line_size_ / 4 * 3

theorem n_max_bounds (u : Coder) : 9 ≤ n_max u ∧ n_max u ≤ 54 := by
  have := u.ge
  have := u.le
  unfold n_max
  omega

/-- The line break after each line. -/
def line_break (u : Coder) : Bytes := if u.line_size_ ≠ 0 then [CR, LF] else []

/-- `last` after `memcpy(last, ptr, n + 1)`: one byte more than is left. -/
def copy_last (last : Vector Byte 80) (after : Byte) (rest : Bytes) (n : Int) : Bytes :=
  (rest ++ [after]).take (n + 1).toNat ++ last.toList.drop (n + 1).toNat

/-- The outer loop: `rest` is what lies between `ptr` and `ptr_end`, `after`
the byte behind the input, `last` the uninitialised side buffer. -/
def encode_lines (u : Coder) (last : Vector Byte 80) (after : Byte) (rest : Bytes) :
    Option Bytes :=
  if rest = [] then some []
  else
    let n := toInt rest.length
    if n > n_max u then
      (encode_lines u last after (rest.drop (n_max u))).map
        (fun more => enc (UInt8.ofNat (n_max u))
          :: (encode_line (n_max u) rest ++ line_break u ++ more))
    else if n + 1 < 0 then none -- the count is converted to an enormous `size_t`
    else
      some (enc (UInt8.ofInt n)
        :: (encode_line n.toNat (copy_last last after rest n) ++ line_break u))
termination_by rest.length
decreasing_by
  have := n_max_bounds u
  have : rest.length ≠ 0 := by simpa using ‹¬rest = []›
  simp only [List.length_drop]
  omega

/-- `UU::encode`: the characters before the terminating NUL. -/
def encode (u : Coder) (last : Vector Byte 80) (after : Byte) (x : Bytes) : Option Bytes :=
  encode_lines u last after x

/-! ## §3. `decode`. -/

/-- The bytes of one group of a line with `n` bytes to go. -/
def decode_group (n : Nat) (p0 p1 p2 p3 : Byte) : Bytes :=
  [narrow (widen (dec p0) <<< 2 ||| (widen (dec p1)).sshiftRight 4)]
    ++ (if n ≥ 2 then [narrow (widen (dec p1) <<< 4 ||| (widen (dec p2)).sshiftRight 2)] else [])
    ++ (if n ≥ 3 then [narrow (widen (dec p2) <<< 6 ||| widen (dec p3))] else [])

/-- How many characters a group with `n` bytes to go is read from. -/
def group_reads (n : Nat) : Nat := if n ≥ 3 then 4 else n + 1

/-- `for (++ptr; n > 0; ptr += 4, n -= 3)`: the bytes written and the memory
left at `ptr`, which moves by four whatever the group reads. -/
def decode_line : Nat → Bytes → Option (Bytes × Bytes)
  | 0, m => some ([], m)
  | n + 1, m =>
      if m.length < group_reads (n + 1) then none
      else
        (decode_line (n - 2) (m.drop 4)).map
          (fun r => (decode_group (n + 1) (m.getD 0 0) (m.getD 1 0) (m.getD 2 0) (m.getD 3 0)
            ++ r.1, r.2))
termination_by n => n

/-- `while( *ptr == '\r' || *ptr == '\n' ) ++ptr;` -/
def skip_line_break : Bytes → Option Bytes
  | [] => none
  | b :: m => if b = CR ∨ b = LF then skip_line_break m else some (b :: m)

theorem decode_line_shrinks :
    ∀ (n : Nat) (m out m' : Bytes), decode_line n m = some (out, m') → m'.length ≤ m.length := by
  intro n
  induction n using Nat.strong_induction_on with
  | _ n ih =>
      intro m out m' h
      cases n with
      | zero =>
          simp only [decode_line, Option.some.injEq, Prod.mk.injEq] at h
          rw [h.2]
      | succ n =>
          rw [decode_line] at h
          split at h
          · cases h
          · rw [Option.map_eq_some_iff] at h
            obtain ⟨⟨out', m₁⟩, hline, heq⟩ := h
            have := ih (n - 2) (by omega) _ _ _ hline
            simp only [Prod.mk.injEq] at heq
            rw [List.length_drop, heq.2] at this
            omega

theorem skip_line_break_shrinks (m m' : Bytes) (h : skip_line_break m = some m') :
    m'.length ≤ m.length := by
  induction m with
  | nil => cases h
  | cons b m ih =>
      rw [skip_line_break] at h
      split at h
      · exact Nat.le_succ_of_le (ih h)
      · cases h
        rfl

/-- The decode loop over the memory at `ptr`, of which the last `tail` bytes
lie at and behind `ptr_end`. -/
def decode_lines (tail : Nat) (m : Bytes) : Option Bytes :=
  if m.length > tail then
    match m with
    | [] => none
    | b :: rest =>
        if (dec b).toNat ≤ 0 then some []
        else
          match _hl : decode_line (dec b).toNat rest with
          | none => none
          | some (out, m') =>
              match _hs : skip_line_break m' with
              | none => none
              | some m'' => (decode_lines tail m'').map (out ++ ·)
  else some []
termination_by m.length
decreasing_by
  have := decode_line_shrinks _ _ _ _ _hl
  have := skip_line_break_shrinks _ _ _hs
  simp only [List.length_cons]
  omega

/-- `UU::decode(in, in_size, out)` over the memory at `in`. -/
def decode (m : Bytes) (in_size : Nat) : Option Bytes := decode_lines (m.length - in_size) m

/-! ## §4. A group there and back. -/

/-- The character of a 6-bit code. -/
theorem dec_enc : ∀ k < (64 : Nat), dec (enc (UInt8.ofNat k)) = UInt8.ofNat k := by
  decide

theorem enc_ne_line_break : ∀ c : Byte, enc c ≠ CR ∧ enc c ≠ LF := by decide +kernel

/-- Or-ing a number into the low bits that a shift left empty. -/
theorem narrow_or (k a b : Nat) (hb : b < 2 ^ k) :
    narrow (BitVec.ofNat 32 (2 ^ k * a) ||| BitVec.ofNat 32 b) = UInt8.ofNat (2 ^ k * a + b) := by
  rw [Nat.two_pow_add_eq_or_of_lt hb, ← BitVec.ofNat_or]
  unfold narrow
  rw [BitVec.setWidth_ofNat_of_le (by decide)]
  rfl

/-- The encoder's shifts of a signed `char`, masked, are those of the byte. -/
theorem encode_shifts : ∀ p : Byte,
    enc (narrow ((widen p).sshiftRight 2)) = enc (UInt8.ofNat (p.toNat / 4))
      ∧ (widen p <<< 4) &&& 0o60 = BitVec.ofNat 32 (2 ^ 4 * (p.toNat % 4))
      ∧ (widen p).sshiftRight 4 &&& 0o17 = BitVec.ofNat 32 (p.toNat / 16)
      ∧ (widen p <<< 2) &&& 0o74 = BitVec.ofNat 32 (2 ^ 2 * (p.toNat % 16))
      ∧ (widen p).sshiftRight 6 &&& 0o3 = BitVec.ofNat 32 (p.toNat / 64)
      ∧ narrow (widen p &&& 0o77) = UInt8.ofNat (p.toNat % 64) := by
  decide +kernel

/-- The decoder's shifts of a code. -/
theorem decode_shifts : ∀ k < (64 : Nat),
    widen (UInt8.ofNat k) = BitVec.ofNat 32 k
      ∧ widen (UInt8.ofNat k) <<< 2 = BitVec.ofNat 32 (2 ^ 2 * k)
      ∧ widen (UInt8.ofNat k) <<< 4 = BitVec.ofNat 32 (2 ^ 4 * k)
      ∧ widen (UInt8.ofNat k) <<< 6 = BitVec.ofNat 32 (2 ^ 6 * k)
      ∧ (widen (UInt8.ofNat k)).sshiftRight 4 = BitVec.ofNat 32 (k / 16)
      ∧ (widen (UInt8.ofNat k)).sshiftRight 2 = BitVec.ofNat 32 (k / 4) := by
  decide

/-- The four 6-bit codes of three bytes. -/
theorem encode_group_codes (p0 p1 p2 : Byte) :
    encode_group p0 p1 p2
      = [enc (UInt8.ofNat (p0.toNat / 4)),
          enc (UInt8.ofNat (2 ^ 4 * (p0.toNat % 4) + p1.toNat / 16)),
          enc (UInt8.ofNat (2 ^ 2 * (p1.toNat % 16) + p2.toNat / 64)),
          enc (UInt8.ofNat (p2.toNat % 64))] := by
  obtain ⟨h0, h1, -, -, -, -⟩ := encode_shifts p0
  obtain ⟨-, -, h2, h3, -, -⟩ := encode_shifts p1
  obtain ⟨-, -, -, -, h4, h5⟩ := encode_shifts p2
  have := p1.toNat_lt
  have := p2.toNat_lt
  simp only [encode_group, h0, h1, h2, h3, h4, h5]
  rw [narrow_or 4 _ _ (by omega), narrow_or 2 _ _ (by omega)]

/-- **Four characters of a group decode to as many of its bytes as are left.** -/
theorem decode_encode_group (n : Nat) (p0 p1 p2 : Byte) :
    let c := encode_group p0 p1 p2
    decode_group n (c.getD 0 0) (c.getD 1 0) (c.getD 2 0) (c.getD 3 0)
      = [p0] ++ (if n ≥ 2 then [p1] else []) ++ (if n ≥ 3 then [p2] else []) := by
  have h0 := p0.toNat_lt
  have h1 := p1.toNat_lt
  have h2 := p2.toNat_lt
  -- the four characters are cut out of 24 bits, six bits each
  have k0 : p0.toNat / 4 < 64 := by omega
  have k1 : 2 ^ 4 * (p0.toNat % 4) + p1.toNat / 16 < 64 := by omega
  have k2 : 2 ^ 2 * (p1.toNat % 16) + p2.toNat / 64 < 64 := by omega
  have k3 : p2.toNat % 64 < 64 := by omega
  obtain ⟨-, a0, -, -, -, -⟩ := decode_shifts _ k0
  obtain ⟨-, -, a1, -, b1, -⟩ := decode_shifts _ k1
  obtain ⟨-, -, -, a2, -, b2⟩ := decode_shifts _ k2
  obtain ⟨b3, -, -, -, -, -⟩ := decode_shifts _ k3
  -- put together again, they are the three bytes
  have e0 : UInt8.ofNat (2 ^ 2 * (p0.toNat / 4)
      + (2 ^ 4 * (p0.toNat % 4) + p1.toNat / 16) / 16) = p0 := by
    rw [← UInt8.toNat_inj, UInt8.toNat_ofNat']
    omega
  have e1 : UInt8.ofNat (2 ^ 4 * (2 ^ 4 * (p0.toNat % 4) + p1.toNat / 16)
      + (2 ^ 2 * (p1.toNat % 16) + p2.toNat / 64) / 4) = p1 := by
    rw [← UInt8.toNat_inj, UInt8.toNat_ofNat']
    omega
  have e2 : UInt8.ofNat (2 ^ 6 * (2 ^ 2 * (p1.toNat % 16) + p2.toNat / 64)
      + p2.toNat % 64) = p2 := by
    rw [← UInt8.toNat_inj, UInt8.toNat_ofNat']
    omega
  simp only [encode_group_codes, List.getD_cons_zero, List.getD_cons_succ, decode_group,
    dec_enc _ k0, dec_enc _ k1, dec_enc _ k2, dec_enc _ k3, a0, a1, a2, b1, b2, b3]
  rw [narrow_or 2 _ _ (by omega), narrow_or 4 _ _ (by omega), narrow_or 6 _ _ (by omega),
    e0, e1, e2]

/-! ## §5. A line there and back. -/

theorem encode_line_group (n : Nat) (p0 p1 p2 : Byte) (rest : Bytes) :
    encode_line (n + 1) (p0 :: p1 :: p2 :: rest)
      = encode_group p0 p1 p2 ++ encode_line (n - 2) rest := by
  rw [encode_line, if_pos (by omega), show n + 1 - 3 = n - 2 by omega]

/-- **A line decodes to its bytes**, and leaves the memory behind it untouched;
the bytes past the first `n`, which pad the last group, do not matter. -/
theorem decode_encode_line :
    ∀ (n : Nat) (p tail : Bytes), (n + 2) / 3 * 3 ≤ p.length →
      decode_line n (encode_line n p ++ tail) = some (p.take n, tail) := by
  intro n
  induction n using Nat.strong_induction_on with
  | _ n ih =>
      intro p tail hp
      cases n with
      | zero =>
          rcases p with - | ⟨p0, - | ⟨p1, - | ⟨p2, rest⟩⟩⟩ <;> simp [encode_line, decode_line]
      | succ n =>
          rcases p with - | ⟨p0, - | ⟨p1, - | ⟨p2, rest⟩⟩⟩ <;>
            simp only [List.length_cons, List.length_nil] at hp
          · omega
          · omega
          · omega
          · -- a group of three bytes, of which `n + 1` count
            have hgroup := decode_encode_group (n + 1) p0 p1 p2
            have hrec := ih (n - 2) (by omega) rest tail (by omega)
            have hreads : group_reads (n + 1) ≤ 4 := by
              unfold group_reads
              split <;> omega
            simp only [encode_group_codes, List.getD_cons_zero, List.getD_cons_succ] at hgroup
            rw [decode_line, encode_line_group, encode_group_codes]
            simp only [List.cons_append, List.nil_append, List.drop_succ_cons, List.drop_zero,
              List.length_cons, List.getD_cons_zero, List.getD_cons_succ, hgroup, hrec]
            rw [if_neg (by omega)]
            simp only [Option.map_some]
            rcases Nat.lt_or_ge n 2 with hn | hn
            · interval_cases n <;> simp
            · obtain ⟨k, rfl⟩ := Nat.exists_eq_add_of_le' hn
              simp

/-! ## §6. The whole text there and back. -/

/-- One line read, its break skipped, and the loop again. -/
theorem decode_lines_step {tail : Nat} {b : Byte} {rest out m' m'' : Bytes}
    (hlen : tail < rest.length + 1) (hn : 0 < (dec b).toNat)
    (hline : decode_line (dec b).toNat rest = some (out, m'))
    (hskip : skip_line_break m' = some m'') :
    decode_lines tail (b :: rest) = (decode_lines tail m'').map (out ++ ·) := by
  rw [decode_lines, if_pos (by simpa using hlen), if_neg (by omega)]
  split
  next h => rw [hline] at h; cases h
  next h =>
    rw [hline] at h
    cases h
    split
    next h => rw [hskip] at h; cases h
    next h => rw [hskip] at h; cases h; rfl

/-- **A line of the encoder and its line break decode to the line's bytes.** -/
theorem decode_lines_line (u : Coder) {n : Nat} (h0 : 0 < n) (hn : n < 64) {p m : Bytes}
    (hp : (n + 2) / 3 * 3 ≤ p.length) (hm : ∃ b m', m = b :: m' ∧ b ≠ CR ∧ b ≠ LF) :
    decode_lines 1 (enc (UInt8.ofNat n) :: (encode_line n p ++ line_break u ++ m))
      = (decode_lines 1 m).map (p.take n ++ ·) := by
  obtain ⟨b, m', rfl, hcr, hlf⟩ := hm
  have hcode : (dec (enc (UInt8.ofNat n))).toNat = n := by
    rw [dec_enc n hn, UInt8.toNat_ofNat', Nat.mod_eq_of_lt (by omega)]
  have hbreak : line_break u = [CR, LF] := by
    have := u.ge
    rw [line_break, if_pos (by omega)]
  -- what follows is not taken for a part of the line break
  have hskip : skip_line_break (CR :: LF :: b :: m') = some (b :: m') := by
    simp [skip_line_break, hcr, hlf]
  refine decode_lines_step ?_ (by omega) ?_ hskip
  · simp only [List.length_append, List.length_cons]
    omega
  · rw [hcode, hbreak, List.append_assoc]
    exact decode_encode_line n p _ hp

/-- The loop ends at the terminating NUL. -/
theorem decode_lines_end : decode_lines 1 [NUL] = some [] := by
  rw [decode_lines, if_neg (by decide)]

/-- A line of no bytes ends the text. -/
theorem decode_lines_zero (c : Byte) (rest : Bytes) (hc : dec c = 0) (hrest : rest ≠ []) :
    decode_lines 1 (c :: rest) = some [] := by
  have : 0 < rest.length := List.length_pos_iff.mpr hrest
  rw [decode_lines, if_pos (by simpa using this)]
  simp [hc]

theorem encode_line_zero (p : Bytes) : encode_line 0 p = [] := by
  rcases p with - | ⟨p0, - | ⟨p1, - | ⟨p2, rest⟩⟩⟩ <;> simp [encode_line]

/-- A length character for a count of -1 makes the decoder run off the text. -/
theorem decode_lines_minus_one (u : Coder) (p : Bytes) :
    decode_lines 1 ((enc (UInt8.ofInt (-1)) :: (encode_line (-1 : Int).toNat p ++ line_break u))
      ++ [NUL]) = none := by
  have hbreak : line_break u = [CR, LF] := by
    have := u.ge
    rw [line_break, if_pos (by omega)]
  have hcode : (dec (enc (UInt8.ofInt (-1)))).toNat = 63 := by decide
  have hline : decode_line 63 [CR, LF, NUL] = none := by
    rw [decode_line, if_pos (by decide)]
  rw [show (-1 : Int).toNat = 0 from rfl, encode_line_zero, hbreak]
  show decode_lines 1 (enc (UInt8.ofInt (-1)) :: [CR, LF, NUL]) = none
  rw [decode_lines, if_pos (by decide), if_neg (by omega)]
  split
  next => rfl
  next h =>
    rw [hcode, hline] at h
    cases h

/-- What the encoder wrote, with its NUL, never starts with a line break. -/
theorem encode_lines_head {u : Coder} {last : Vector Byte 80} {after : Byte} {rest y : Bytes}
    (h : encode_lines u last after rest = some y) :
    ∃ b m, y ++ [NUL] = b :: m ∧ b ≠ CR ∧ b ≠ LF := by
  rw [encode_lines] at h
  split at h
  · cases h
    exact ⟨NUL, [], rfl, by decide, by decide⟩
  · simp only at h
    split at h
    · rw [Option.map_eq_some_iff] at h
      obtain ⟨more, -, rfl⟩ := h
      exact ⟨_, _, List.cons_append, enc_ne_line_break _⟩
    · split at h
      · cases h
      · rw [Option.some.injEq] at h
        rw [← h]
        exact ⟨_, _, List.cons_append, enc_ne_line_break _⟩

/-- The copy of the last line fills the side buffer. -/
theorem copy_last_length (last : Vector Byte 80) (after : Byte) (rest : Bytes) (n : Int)
    (hn : n ≤ 79) (hrest : n ≤ rest.length) : (copy_last last after rest n).length = 80 := by
  have := last.size_toArray
  simp only [copy_last, List.length_append, List.length_take, List.length_cons, List.length_nil,
    List.length_drop, Vector.length_toList]
  omega

theorem copy_last_take (last : Vector Byte 80) (after : Byte) (rest : Bytes) (n : Int)
    (hrest : n ≤ rest.length) : (copy_last last after rest n).take n.toNat = rest.take n.toNat := by
  unfold copy_last
  rw [List.take_append_of_le_length, List.take_take, List.take_append_of_le_length]
  · congr 1
    omega
  · omega
  · simp only [List.length_take, List.length_append, List.length_cons, List.length_nil]
    omega

/-- The text between `ptr` and `ptr_end` survives encoding and decoding. -/
def Survives (u : Coder) (last : Vector Byte 80) (after : Byte) (rest : Bytes) : Prop :=
  ∃ y, encode_lines u last after rest = some y ∧ decode_lines 1 (y ++ [NUL]) = some rest

/-- Narrowing a length to `int` changes it exactly from 2³¹ on. -/
theorem toInt_length (r : Nat) :
    (r < 2 ^ 31 ∧ toInt r = r) ∨ (2 ^ 31 ≤ r ∧ toInt r < r ∧ toInt r ≤ (r : Int) - 2 ^ 32) := by
  unfold toInt
  rw [Int.bmod_def]
  omega

/-- A full line takes `n_max` bytes; the rest decides. -/
theorem survives_full_line {u : Coder} {last : Vector Byte 80} {after : Byte} {rest : Bytes}
    (hne : rest ≠ []) (hfull : toInt rest.length > n_max u) :
    Survives u last after rest ↔ Survives u last after (rest.drop (n_max u)) := by
  obtain ⟨hlo, hhi⟩ := n_max_bounds u
  have hlen : n_max u ≤ rest.length := by
    have := toInt_length rest.length
    omega
  have hgroups : (n_max u + 2) / 3 * 3 = n_max u := by
    unfold n_max
    omega
  -- the encoder writes the line and goes on behind it
  have henc : encode_lines u last after rest
      = (encode_lines u last after (rest.drop (n_max u))).map
          (fun more => enc (UInt8.ofNat (n_max u))
            :: (encode_line (n_max u) rest ++ line_break u ++ more)) := by
    rw [encode_lines, if_neg hne]
    simp only
    rw [if_pos hfull]
  -- the decoder reads the line and goes on behind it
  have hdec : ∀ more, encode_lines u last after (rest.drop (n_max u)) = some more →
      decode_lines 1 ((enc (UInt8.ofNat (n_max u))
          :: (encode_line (n_max u) rest ++ line_break u ++ more)) ++ [NUL])
        = (decode_lines 1 (more ++ [NUL])).map (rest.take (n_max u) ++ ·) := by
    intro more hmore
    have := decode_lines_line u (n := n_max u) (p := rest) (by omega) (by omega)
      (by rw [hgroups]; exact hlen) (encode_lines_head hmore)
    simpa only [List.cons_append, List.append_assoc] using this
  constructor
  · intro hboth
    obtain ⟨y, hy, hback⟩ := hboth
    rw [henc, Option.map_eq_some_iff] at hy
    obtain ⟨more, hmore, rfl⟩ := hy
    rw [hdec more hmore, Option.map_eq_some_iff] at hback
    obtain ⟨back, hback, heq⟩ := hback
    refine ⟨more, hmore, ?_⟩
    rw [hback, ← heq, List.drop_left' (by rw [List.length_take]; omega)]
  · intro hboth
    obtain ⟨more, hmore, hback⟩ := hboth
    refine ⟨_, by rw [henc, hmore]; rfl, ?_⟩
    rw [hdec more hmore, hback, Option.map_some, List.take_append_drop]

/-- What the encoder writes for a last line. -/
theorem encode_last_line {u : Coder} {last : Vector Byte 80} {after : Byte} {rest : Bytes}
    (hne : rest ≠ []) (hlast : ¬ toInt rest.length > n_max u) :
    encode_lines u last after rest
      = if toInt rest.length + 1 < 0 then none
        else some (enc (UInt8.ofInt (toInt rest.length))
          :: (encode_line (toInt rest.length).toNat
              (copy_last last after rest (toInt rest.length)) ++ line_break u)) := by
  rw [encode_lines, if_neg hne]
  simp only
  rw [if_neg hlast]

/-- A positive count sends back exactly the bytes it counts. -/
theorem survives_counted {u : Coder} {last : Vector Byte 80} {after : Byte} {rest : Bytes}
    (hne : rest ≠ []) (hlast : ¬ toInt rest.length > n_max u) {n : Nat} (hn : 0 < n)
    (htoInt : toInt rest.length = n) : Survives u last after rest ↔ rest.take n = rest := by
  obtain ⟨hlo, hhi⟩ := n_max_bounds u
  have hcases := toInt_length rest.length
  have henc : encode_lines u last after rest = _ := encode_last_line hne hlast
  have hend : ∃ b m', [NUL] = b :: m' ∧ b ≠ CR ∧ b ≠ LF := ⟨NUL, [], rfl, by decide, by decide⟩
  have hcopy := copy_last_length last after rest n (by omega) (by omega)
  have htake := copy_last_take last after rest n (by omega)
  have hback := decode_lines_line u (n := n) (p := copy_last last after rest n) hn (by omega)
    (by rw [hcopy]; omega) hend
  rw [decode_lines_end] at hback
  simp only [Int.toNat_natCast] at htake
  rw [htoInt, if_neg (by omega)] at henc
  have hcode : UInt8.ofInt (n : Int) = UInt8.ofNat n := by
    rw [← UInt8.toNat_inj, UInt8.ofInt, UInt8.toNat_ofNat', UInt8.toNat_ofNat']
    omega
  rw [hcode, Int.toNat_natCast] at henc
  constructor
  · intro hboth
    obtain ⟨y, hy, hy'⟩ := hboth
    rw [henc, Option.some.injEq] at hy
    rw [← hy, List.cons_append, hback, Option.map_some, Option.some.injEq, htake,
      List.append_nil] at hy'
    exact hy'
  · intro h
    refine ⟨_, henc, ?_⟩
    rw [List.cons_append, hback, Option.map_some, htake, h, List.append_nil]

/-- The last line survives exactly when its length was not narrowed away. -/
theorem survives_last_line {u : Coder} {last : Vector Byte 80} {after : Byte} {rest : Bytes}
    (hne : rest ≠ []) (hlast : ¬ toInt rest.length > n_max u) :
    Survives u last after rest ↔ rest.length < 2 ^ 31 := by
  have hpos : 0 < rest.length := List.length_pos_iff.mpr hne
  have henc : encode_lines u last after rest = _ := encode_last_line hne hlast
  rcases toInt_length rest.length with ⟨hsmall, hn⟩ | ⟨hbig, hlt, hle⟩
  · rw [survives_counted hne hlast hpos hn]
    simp only [List.take_length, hsmall]
  · have hbig' : ¬ rest.length < 2 ^ 31 := by omega
    simp only [hbig', iff_false]
    rcases lt_trichotomy (toInt rest.length) 0 with hneg | hzero | hposn
    · intro hboth
      obtain ⟨y, hy, hy'⟩ := hboth
      rw [henc] at hy
      split at hy
      · cases hy
      · -- a count of -1: the length character promises 63 bytes that are not there
        have hone : toInt rest.length = -1 := by omega
        rw [hone, Option.some.injEq] at hy
        rw [← hy, decode_lines_minus_one] at hy'
        cases hy'
    · intro hboth
      obtain ⟨y, hy, hy'⟩ := hboth
      rw [henc, hzero, if_neg (by decide), Option.some.injEq] at hy
      rw [← hy, List.cons_append, decode_lines_zero _ _ (by decide) (by simp)] at hy'
      cases hy'
      exact hne rfl
    · -- a positive count is smaller than the length: bytes are missing
      obtain ⟨n, hn⟩ := Int.eq_ofNat_of_zero_le hposn.le
      rw [survives_counted hne hlast (by omega) hn]
      intro h
      have hlen := congrArg List.length h
      rw [List.length_take] at hlen
      omega

/-- **The text survives exactly when it is shorter than 2³¹.**  By induction on
its length: a full line leaves the question to the text behind it, and the
narrowed length is full again until less than a line is left. -/
theorem survives_iff (u : Coder) (last : Vector Byte 80) (after : Byte) (x : Bytes) :
    Survives u last after x ↔ x.length < 2 ^ 31 := by
  induction hk : x.length using Nat.strong_induction_on generalizing x with
  | _ k ih =>
      by_cases hne : x = []
      · subst hne
        subst hk
        refine iff_of_true ⟨[], ?_, decode_lines_end⟩ (by decide)
        rw [encode_lines, if_pos rfl]
      · have hpos : 0 < x.length := List.length_pos_iff.mpr hne
        obtain ⟨hlo, hhi⟩ := n_max_bounds u
        -- the loop compares the narrowed length
        by_cases hfull : toInt x.length > n_max u
        · have hcases := toInt_length x.length
          have hrest := ih (x.length - n_max u) (by omega) (x.drop (n_max u)) List.length_drop
          rw [survives_full_line hne hfull, hrest]
          omega
        · rw [survives_last_line hne hfull, hk]

theorem decode_encoded (y : Bytes) : decode (y ++ [NUL]) y.length = decode_lines 1 (y ++ [NUL]) := by
  unfold decode
  rw [List.length_append, Nat.add_sub_cancel_left]
  rfl

/-- **UU round trip**: decoding undoes encoding exactly for the inputs shorter
than 2³¹, whatever line size is requested and whatever the byte behind the
input and the bytes of the side buffer are. -/
theorem uu_decode_encode_iff (requested : Nat) (last : Vector Byte 80) (after : Byte)
    (x : Bytes) :
    (∃ y, encode (line_size requested) last after x = some y
        ∧ decode (y ++ [NUL]) y.length = some x)
      ↔ x.length < 2 ^ 31 := by
  simp only [decode_encoded]
  exact survives_iff (line_size requested) last after x

/-- Four gigabytes of zeros, at the default line size, do not come back. -/
theorem uu_four_gigabytes_lost :
    ¬ ∃ y, encode (line_size 60) (Vector.replicate 80 0) 0 (List.replicate (2 ^ 32) 0) = some y
        ∧ decode (y ++ [NUL]) y.length = some (List.replicate (2 ^ 32) 0) := by
  simp only [decode_encoded]
  have h := survives_iff (line_size 60) (Vector.replicate 80 0) 0 (List.replicate (2 ^ 32) 0)
  rw [List.length_replicate] at h
  exact h.not.mpr (by decide)

end Aos.UU
