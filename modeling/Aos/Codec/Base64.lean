/-
  Aos.Codec.Base64 — `Base64::encode` and `Base64::decode`.

  Both functions pack bits through an `int` accumulator: the encoder gathers
  three bytes into 24 bits and cuts them into four 6-bit codes, the decoder
  gathers four codes and cuts three bytes.  The decoder's loop is a cursor
  body, so it also runs in place.

  Main results:
    • `base64_decode_encode` — the round trip, for every line size,
    • `encode_length_le`  — what `encode` writes fits `enough_encode_size`,
    • `decode_in_place_eq` — decoding over the input buffer changes nothing.
-/
import Aos.Byte
import Aos.Lib.Cursor

namespace Aos.Base64

open Lib.Cursor

/-! ## §1. The alphabet. -/

/-- Symbols which form the Base64 alphabet. -/
def enc_tbl : Bytes := lit
  "ABCDEFGHIJKLMNOPQRSTUVWXYZabcdefghijklmnopqrstuvwxyz0123456789+/"

/-- The padding character used in the encoding. -/
def pad : Byte := 61

def dec_tbl : List Int :=
  [-1, -1, -1, -1, -1, -1, -1, -1, -1, -1, -1, -1, -1, -1, -1, -1,
   -1, -1, -1, -1, -1, -1, -1, -1, -1, -1, -1, -1, -1, -1, -1, -1,
   -1, -1, -1, -1, -1, -1, -1, -1, -1, -1, -1, 62, -1, -1, -1, 63,
   52, 53, 54, 55, 56, 57, 58, 59, 60, 61, -1, -1, -1, -1, -1, -1,
   -1, 0, 1, 2, 3, 4, 5, 6, 7, 8, 9, 10, 11, 12, 13, 14,
   15, 16, 17, 18, 19, 20, 21, 22, 23, 24, 25, -1, -1, -1, -1, -1,
   -1, 26, 27, 28, 29, 30, 31, 32, 33, 34, 35, 36, 37, 38, 39, 40,
   41, 42, 43, 44, 45, 46, 47, 48, 49, 50, 51, -1, -1, -1, -1, -1,
   -1, -1, -1, -1, -1, -1, -1, -1, -1, -1, -1, -1, -1, -1, -1, -1,
   -1, -1, -1, -1, -1, -1, -1, -1, -1, -1, -1, -1, -1, -1, -1, -1,
   -1, -1, -1, -1, -1, -1, -1, -1, -1, -1, -1, -1, -1, -1, -1, -1,
   -1, -1, -1, -1, -1, -1, -1, -1, -1, -1, -1, -1, -1, -1, -1, -1,
   -1, -1, -1, -1, -1, -1, -1, -1, -1, -1, -1, -1, -1, -1, -1, -1,
   -1, -1, -1, -1, -1, -1, -1, -1, -1, -1, -1, -1, -1, -1, -1, -1,
   -1, -1, -1, -1, -1, -1, -1, -1, -1, -1, -1, -1, -1, -1, -1, -1,
   -1, -1, -1, -1, -1, -1, -1, -1, -1, -1, -1, -1, -1, -1, -1, -1]

/-- `enc_tbl[i]`. -/
def enc (i : Nat) : Byte := enc_tbl.getD i NUL

/-- `dec_tbl[*ptr]`. -/
def dec (b : Byte) : Int := dec_tbl.getD b.toNat (-1)

/-- **The tables are inverse on 6-bit codes**, and no symbol is the padding. -/
theorem dec_enc : ∀ i < 64, dec (enc i) = (i : Int) ∧ enc i ≠ pad := by
  decide +kernel

theorem dec_CR : dec CR = -1 := by decide

theorem dec_LF : dec LF = -1 := by decide

/-! ## §2. `encode`. -/

/-- The encoder's locals. -/
structure EncState where
  char_count : Nat
  bits : Nat
  cols : Nat

/-- `encode loop` body: the new locals and the characters written. -/
def encode_body (line_size : Nat) (s : EncState) (b : Byte) : EncState × Bytes :=
  let bits := s.bits + b.toNat
  let char_count := s.char_count + 1
  if char_count = 3 then
    let out := [enc (bits >>> 18), enc ((bits >>> 12) &&& 0x3f),
      enc ((bits >>> 6) &&& 0x3f), enc (bits &&& 0x3f)]
    let cols := s.cols + 4
    if line_size ≠ 0 ∧ cols ≥ line_size then
      (⟨0, 0, 0⟩, out ++ [CR, LF]) -- insert line break
    else (⟨0, 0, cols⟩, out)
  else (⟨char_count, bits <<< 8, s.cols⟩, [])

/-- `encode padding`. -/
def encode_padding (line_size : Nat) (s : EncState) : Bytes :=
  if s.char_count ≠ 0 then
    let bits := s.bits <<< (16 - 8 * s.char_count)
    [enc (bits >>> 18), enc ((bits >>> 12) &&& 0x3f)]
      ++ (if s.char_count = 1 then [pad, pad] else [enc ((bits >>> 6) &&& 0x3f), pad])
      ++ (if line_size ≠ 0 ∧ s.cols ≥ line_size then [CR, LF] else [])
  else []

/-- The loop from given locals, and the padding after it. -/
def encode_loop (line_size : Nat) : EncState → Bytes → Bytes
  | s, [] => encode_padding line_size s
  | s, b :: rest =>
      (encode_body line_size s b).2 ++ encode_loop line_size (encode_body line_size s b).1 rest

/-- `Base64::encode`: the characters before the terminating NUL. -/
def encode (line_size : Nat) (x : Bytes) : Bytes := encode_loop line_size ⟨0, 0, 0⟩ x

def enough_encode_size (line_size size : Nat) : Nat :=
  let size := (size / 3 + 1) * 4 + 1
  if line_size ≠ 0 then size + (size / line_size + 1) * 2 else size

def DEFAULT_LINE_SIZE : Nat := 76

/-! ## §3. `decode`. -/

/-- The decoder's locals. -/
structure DecState where
  char_count : Nat
  bits : Nat

/-- `decode loop` body. -/
def decode_body : Body DecState Byte := fun s b _ =>
  if b = pad then none
  else
    let code := dec b
    if code < 0 then some (s, [], 0)
    else
      let bits := s.bits + code.toNat
      let char_count := s.char_count + 1
      if char_count = 4 then
        some (⟨0, 0⟩, [(bits >>> 16).toUInt8, ((bits >>> 8) &&& 0xff).toUInt8,
          (bits &&& 0xff).toUInt8], 0)
      else some (⟨char_count, bits <<< 6⟩, [], 0)

/-- `decode ending`: an incomplete group of one code is dropped. -/
def decode_ending (s : DecState) : Bytes :=
  match s.char_count with
  | 2 => [(s.bits >>> 10).toUInt8]
  | 3 => [(s.bits >>> 16).toUInt8, ((s.bits >>> 8) &&& 0xff).toUInt8]
  | _ => []

/-- `Base64::decode` into a buffer of its own. -/
def decode (x : Bytes) : Bytes :=
  let r := run decode_body ⟨0, 0⟩ 0 x
  r.2 ++ decode_ending r.1

/-- `Base64::decode` with `out == in`, then the resize to the length returned. -/
def decode_in_place (x : Bytes) : Bytes :=
  let m := runInPlace decode_body x.length ⟨0, 0⟩ 0 x 0
  let ending := decode_ending m.1
  (write m.2.1 m.2.2 ending).take (m.2.2 + ending.length)

/-! ## §4. One symbol read, one group written. -/

/-- A symbol in a group of fewer than four only shifts the accumulator. -/
theorem decode_body_code (k bits i : Nat) (hi : i < 64) (rest : Bytes) (hk : k + 1 ≠ 4) :
    decode_body ⟨k, bits⟩ (enc i) rest = some (⟨k + 1, (bits + i) <<< 6⟩, [], 0) := by
  obtain ⟨hdec, hpad⟩ := dec_enc i hi
  simp only [decode_body, hpad, if_false, hdec, Int.toNat_natCast, hk]
  rw [if_neg (by omega)]

/-- The fourth symbol of a group writes three bytes. -/
theorem decode_body_fourth (bits i : Nat) (hi : i < 64) (rest : Bytes) :
    decode_body ⟨3, bits⟩ (enc i) rest
      = some (⟨0, 0⟩, [((bits + i) >>> 16).toUInt8, (((bits + i) >>> 8) &&& 0xff).toUInt8,
          ((bits + i) &&& 0xff).toUInt8], 0) := by
  obtain ⟨hdec, hpad⟩ := dec_enc i hi
  simp only [decode_body, hpad, if_false, hdec, Int.toNat_natCast]
  rw [if_neg (by omega)]
  rfl

/-- A symbol outside the alphabet is skipped. -/
theorem decode_body_skip (s : DecState) (b : Byte) (rest : Bytes)
    (hdec : dec b = -1) (hpad : b ≠ pad) :
    decode_body s b rest = some (s, [], 0) := by
  simp only [decode_body, hpad, if_false, hdec]
  rfl

theorem decode_body_pad (s : DecState) (rest : Bytes) : decode_body s pad rest = none := by
  simp [decode_body]

/-- The line break after a group is invisible to the decoder. -/
theorem run_line_break (s : DecState) (brk rest : Bytes) (h : brk = [] ∨ brk = [CR, LF]) :
    run decode_body s 0 (brk ++ rest) = run decode_body s 0 rest := by
  rcases h with rfl | rfl
  · rfl
  · show run decode_body s 0 (CR :: LF :: rest) = _
    rw [run_step (decode_body_skip s CR _ dec_CR (by decide)),
      run_step (decode_body_skip s LF _ dec_LF (by decide))]
    simp

/-- The four codes of 24 bits are below 64. -/
theorem codes_lt {n : Nat} (hn : n < 2 ^ 24) :
    n >>> 18 < 64 ∧ (n >>> 12) &&& 0x3f < 64 ∧ (n >>> 6) &&& 0x3f < 64 ∧ n &&& 0x3f < 64 := by
  have h63 : (0x3f : Nat) = 2 ^ 6 - 1 := rfl
  simp only [h63, Nat.and_two_pow_sub_one_eq_mod, Nat.shiftRight_eq_div_pow]
  omega

/-- Shifting the four codes back together gives the 24 bits again. -/
theorem codes_join {n : Nat} (hn : n < 2 ^ 24) :
    ((((n >>> 18) <<< 6 + ((n >>> 12) &&& 0x3f)) <<< 6 + ((n >>> 6) &&& 0x3f)) <<< 6)
      + (n &&& 0x3f) = n := by
  have h63 : (0x3f : Nat) = 2 ^ 6 - 1 := rfl
  simp only [h63, Nat.and_two_pow_sub_one_eq_mod, Nat.shiftRight_eq_div_pow,
    Nat.shiftLeft_eq]
  omega

/-- **Four symbols of one group decode to the three bytes of its 24 bits.** -/
theorem run_group {n : Nat} (hn : n < 2 ^ 24) (rest : Bytes) :
    run decode_body ⟨0, 0⟩ 0
        ([enc (n >>> 18), enc ((n >>> 12) &&& 0x3f), enc ((n >>> 6) &&& 0x3f),
          enc (n &&& 0x3f)] ++ rest)
      = ((run decode_body ⟨0, 0⟩ 0 rest).1,
          [(n >>> 16).toUInt8, ((n >>> 8) &&& 0xff).toUInt8, (n &&& 0xff).toUInt8]
            ++ (run decode_body ⟨0, 0⟩ 0 rest).2) := by
  obtain ⟨h0, h1, h2, h3⟩ := codes_lt hn
  have hjoin := codes_join hn
  simp only [List.cons_append, List.nil_append]
  rw [run_step (decode_body_code 0 0 _ h0 _ (by decide)),
    run_step (decode_body_code 1 _ _ h1 _ (by decide)),
    run_step (decode_body_code 2 _ _ h2 _ (by decide)),
    run_step (decode_body_fourth _ _ h3 _)]
  simp only [Nat.zero_add, hjoin, List.nil_append, List.cons_append]

/-- A group cut short by padding leaves the codes read in the accumulator. -/
theorem run_padded_one {n : Nat} (hn : n < 2 ^ 24) (tail : Bytes) :
    run decode_body ⟨0, 0⟩ 0 (enc (n >>> 18) :: enc ((n >>> 12) &&& 0x3f) :: pad :: tail)
      = (⟨2, ((n >>> 18) <<< 6 + ((n >>> 12) &&& 0x3f)) <<< 6⟩, []) := by
  obtain ⟨h0, h1, -, -⟩ := codes_lt hn
  rw [run_step (decode_body_code 0 0 _ h0 _ (by decide)),
    run_step (decode_body_code 1 _ _ h1 _ (by decide)),
    run_break (decode_body_pad _ _)]
  simp only [Nat.zero_add, List.append_nil]

theorem run_padded_two {n : Nat} (hn : n < 2 ^ 24) (tail : Bytes) :
    run decode_body ⟨0, 0⟩ 0
        (enc (n >>> 18) :: enc ((n >>> 12) &&& 0x3f) :: enc ((n >>> 6) &&& 0x3f) :: pad :: tail)
      = (⟨3, (((n >>> 18) <<< 6 + ((n >>> 12) &&& 0x3f)) <<< 6
          + ((n >>> 6) &&& 0x3f)) <<< 6⟩, []) := by
  obtain ⟨h0, h1, h2, -⟩ := codes_lt hn
  rw [run_step (decode_body_code 0 0 _ h0 _ (by decide)),
    run_step (decode_body_code 1 _ _ h1 _ (by decide)),
    run_step (decode_body_code 2 _ _ h2 _ (by decide)),
    run_break (decode_body_pad _ _)]
  simp only [Nat.zero_add, List.append_nil]

/-! ## §5. The round trip. -/

/-- The accumulator after three bytes. -/
def bits3 (a b c : Byte) : Nat := ((a.toNat <<< 8 + b.toNat) <<< 8) + c.toNat

theorem bits3_lt (a b c : Byte) : bits3 a b c < 2 ^ 24 := by
  have := a.toNat_lt
  have := b.toNat_lt
  have := c.toNat_lt
  simp only [bits3, Nat.shiftLeft_eq]
  omega

/-- The three bytes cut out of 24 bits are the ones packed into them. -/
theorem bits3_bytes (a b c : Byte) :
    (bits3 a b c >>> 16).toUInt8 = a ∧ ((bits3 a b c >>> 8) &&& 0xff).toUInt8 = b
      ∧ (bits3 a b c &&& 0xff).toUInt8 = c := by
  have ha := a.toNat_lt
  have hb := b.toNat_lt
  have hc := c.toNat_lt
  have h255 : (0xff : Nat) = 2 ^ 8 - 1 := rfl
  simp only [bits3, h255, Nat.and_two_pow_sub_one_eq_mod, Nat.shiftRight_eq_div_pow,
    Nat.shiftLeft_eq, ← UInt8.toNat_inj, Nat.toUInt8, UInt8.toNat_ofNat']
  omega

/-- The line break the encoder writes after a full group, and its column there. -/
def line_break (line_size cols : Nat) : Bytes :=
  if line_size ≠ 0 ∧ cols ≥ line_size then [CR, LF] else []

def next_cols (line_size cols : Nat) : Nat :=
  if line_size ≠ 0 ∧ cols ≥ line_size then 0 else cols

theorem line_break_cases (line_size cols : Nat) :
    line_break line_size cols = [] ∨ line_break line_size cols = [CR, LF] := by
  unfold line_break
  split
  · exact Or.inr rfl
  · exact Or.inl rfl

/-- **Three bytes are one group, perhaps a line break, and the loop again.** -/
theorem encode_loop_group (line_size cols : Nat) (a b c : Byte) (rest : Bytes) :
    encode_loop line_size ⟨0, 0, cols⟩ (a :: b :: c :: rest)
      = [enc (bits3 a b c >>> 18), enc ((bits3 a b c >>> 12) &&& 0x3f),
          enc ((bits3 a b c >>> 6) &&& 0x3f), enc (bits3 a b c &&& 0x3f)]
        ++ (line_break line_size (cols + 4)
          ++ encode_loop line_size ⟨0, 0, next_cols line_size (cols + 4)⟩ rest) := by
  simp only [encode_loop, encode_body, bits3, Nat.zero_add, line_break, next_cols]
  by_cases h : line_size ≠ 0 ∧ cols + 4 ≥ line_size
  · simp [h]
  · simp [h]

/-- One byte left: two codes and two pads. -/
theorem encode_loop_one (line_size cols : Nat) (a : Byte) :
    ∃ tail, encode_loop line_size ⟨0, 0, cols⟩ [a]
      = enc (bits3 a 0 0 >>> 18) :: enc ((bits3 a 0 0 >>> 12) &&& 0x3f) :: pad :: tail := by
  refine ⟨pad :: (if line_size ≠ 0 ∧ cols ≥ line_size then [CR, LF] else []), ?_⟩
  simp [encode_loop, encode_body, encode_padding, bits3]

/-- Two bytes left: three codes and a pad. -/
theorem encode_loop_two (line_size cols : Nat) (a b : Byte) :
    ∃ tail, encode_loop line_size ⟨0, 0, cols⟩ [a, b]
      = enc (bits3 a b 0 >>> 18) :: enc ((bits3 a b 0 >>> 12) &&& 0x3f)
        :: enc ((bits3 a b 0 >>> 6) &&& 0x3f) :: pad :: tail := by
  refine ⟨if line_size ≠ 0 ∧ cols ≥ line_size then [CR, LF] else [], ?_⟩
  simp [encode_loop, encode_body, encode_padding, bits3]

/-- Two codes hold one byte and four zero bits. -/
theorem ending_one (a : Byte) :
    decode_ending ⟨2, ((bits3 a 0 0 >>> 18) <<< 6 + ((bits3 a 0 0 >>> 12) &&& 0x3f)) <<< 6⟩
      = [a] := by
  have ha := a.toNat_lt
  have h63 : (0x3f : Nat) = 2 ^ 6 - 1 := rfl
  simp only [decode_ending, bits3, h63, Nat.and_two_pow_sub_one_eq_mod,
    Nat.shiftRight_eq_div_pow, Nat.shiftLeft_eq, List.cons.injEq, and_true, ← UInt8.toNat_inj,
    Nat.toUInt8, UInt8.toNat_ofNat', UInt8.toNat_zero]
  omega

/-- Three codes hold two bytes and two zero bits. -/
theorem ending_two (a b : Byte) :
    decode_ending ⟨3, (((bits3 a b 0 >>> 18) <<< 6 + ((bits3 a b 0 >>> 12) &&& 0x3f)) <<< 6
        + ((bits3 a b 0 >>> 6) &&& 0x3f)) <<< 6⟩ = [a, b] := by
  have ha := a.toNat_lt
  have hb := b.toNat_lt
  have h63 : (0x3f : Nat) = 2 ^ 6 - 1 := rfl
  have h255 : (0xff : Nat) = 2 ^ 8 - 1 := rfl
  simp only [decode_ending, bits3, h63, h255, Nat.and_two_pow_sub_one_eq_mod,
    Nat.shiftRight_eq_div_pow, Nat.shiftLeft_eq, List.cons.injEq, and_true, ← UInt8.toNat_inj,
    Nat.toUInt8, UInt8.toNat_ofNat', UInt8.toNat_zero]
  omega

/-- From an empty accumulator the decoder gives back what the encoder read. -/
theorem decode_encode_loop (line_size : Nat) :
    ∀ (x : Bytes) (cols : Nat),
      let r := run decode_body ⟨0, 0⟩ 0 (encode_loop line_size ⟨0, 0, cols⟩ x)
      r.2 ++ decode_ending r.1 = x
  | [], cols => by simp [encode_loop, encode_padding, decode_ending]
  | [a], cols => by
      obtain ⟨tail, htail⟩ := encode_loop_one line_size cols a
      rw [htail, run_padded_one (bits3_lt a 0 0)]
      show [] ++ decode_ending _ = [a]
      rw [ending_one, List.nil_append]
  | [a, b], cols => by
      obtain ⟨tail, htail⟩ := encode_loop_two line_size cols a b
      rw [htail, run_padded_two (bits3_lt a b 0)]
      show [] ++ decode_ending _ = [a, b]
      rw [ending_two, List.nil_append]
  | a :: b :: c :: rest, cols => by
      have ih := decode_encode_loop line_size rest (next_cols line_size (cols + 4))
      obtain ⟨ha, hb, hc⟩ := bits3_bytes a b c
      simp only [encode_loop_group, run_group (bits3_lt a b c),
        run_line_break _ _ _ (line_break_cases line_size (cols + 4)), ha, hb, hc] at ih ⊢
      simpa using ih

/-- **Base64 round trip**: whatever the bytes and whatever the line size, the
decoder gives back what the encoder was given. -/
theorem base64_decode_encode (line_size : Nat) (x : Bytes) : decode (encode line_size x) = x :=
  decode_encode_loop line_size x 0

/-- What is encoded begins with a symbol of the alphabet. -/
theorem encode_start (line_size : Nat) {x : Bytes} (hx : x ≠ []) :
    ∃ i < 64, ∃ rest, encode line_size x = enc i :: rest := by
  match x with
  | [a] =>
      obtain ⟨tail, htail⟩ := encode_loop_one line_size 0 a
      exact ⟨_, (codes_lt (bits3_lt a 0 0)).1, _, htail⟩
  | [a, b] =>
      obtain ⟨tail, htail⟩ := encode_loop_two line_size 0 a b
      exact ⟨_, (codes_lt (bits3_lt a b 0)).1, _, htail⟩
  | a :: b :: c :: rest =>
      exact ⟨_, (codes_lt (bits3_lt a b c)).1, _, encode_loop_group line_size 0 a b c rest⟩

/-! ## §6. What `encode` writes fits the buffer it is given. -/

theorem encode_loop_length_le (line_size : Nat) :
    ∀ (x : Bytes) (cols : Nat), line_size = 0 ∨ cols < line_size →
      (encode_loop line_size ⟨0, 0, cols⟩ x).length
        ≤ (x.length / 3 + 1) * 4 + ((cols + x.length / 3 * 4) / line_size) * 2
  | [], cols, _ => by simp [encode_loop, encode_padding]
  | [a], cols, hcols => by
      have hno : ¬ (line_size ≠ 0 ∧ line_size ≤ cols) := by omega
      simp [encode_loop, encode_body, encode_padding, hno]
  | [a, b], cols, hcols => by
      have hno : ¬ (line_size ≠ 0 ∧ line_size ≤ cols) := by omega
      simp [encode_loop, encode_body, encode_padding, hno]
  | a :: b :: c :: rest, cols, hcols => by
      have ih := encode_loop_length_le line_size rest (next_cols line_size (cols + 4))
        (by unfold next_cols; split <;> omega)
      have hlen : (a :: b :: c :: rest).length / 3 = rest.length / 3 + 1 := by
        simp only [List.length_cons]
        omega
      rw [encode_loop_group, hlen]
      simp only [List.length_append, List.length_cons, List.length_nil]
      by_cases h : line_size ≠ 0 ∧ cols + 4 ≥ line_size
      · -- a line is full: its break is paid for by the columns it used
        have hdiv : (0 + rest.length / 3 * 4) / line_size + 1
            ≤ (cols + (rest.length / 3 + 1) * 4) / line_size := by
          rw [← Nat.add_div_right _ (by omega)]
          exact Nat.div_le_div_right (by omega)
        simp only [line_break, next_cols, h, if_true, ne_eq, not_false_eq_true, and_self,
          List.length_cons, List.length_nil] at ih ⊢
        omega
      · have hcol : cols + 4 + rest.length / 3 * 4 = cols + (rest.length / 3 + 1) * 4 := by
          omega
        simp only [line_break, next_cols, h, if_false, List.length_nil, hcol] at ih ⊢
        omega

/-- **`enough_encode_size` is enough**, the terminating NUL included. -/
theorem encode_length_le (line_size : Nat) (x : Bytes) :
    (encode line_size x).length + 1 ≤ enough_encode_size line_size x.length := by
  unfold encode enough_encode_size
  by_cases h : line_size = 0
  · subst h
    have := encode_loop_length_le 0 x 0 (Or.inl rfl)
    simp only [Nat.div_zero, Nat.zero_mul, Nat.add_zero] at this
    simp only [ne_eq, not_true_eq_false, if_false]
    omega
  · have := encode_loop_length_le line_size x 0 (Or.inr (by omega))
    have hdiv : (0 + x.length / 3 * 4) / line_size
        ≤ ((x.length / 3 + 1) * 4 + 1) / line_size := Nat.div_le_div_right (by omega)
    simp only [ne_eq, h, not_false_eq_true, if_true]
    omega

/-! ## §7. Decoding in place. -/

/-- Three bytes are written only after four symbols have been read. -/
theorem decode_body_owed (s : DecState) (b : Byte) (rest : Bytes) (s' : DecState) (w : Bytes)
    (k : Nat) (h : decode_body s b rest = some (s', w, k)) :
    w.length + s'.char_count ≤ s.char_count + 1 := by
  simp only [decode_body] at h
  split at h
  · cases h
  · split at h
    · cases h
      simp
    · split at h
      next h4 =>
        cases h
        simp only [List.length_cons, List.length_nil]
        omega
      next => cases h; simp

theorem decode_ending_length (s : DecState) : (decode_ending s).length ≤ s.char_count := by
  unfold decode_ending
  split <;> simp_all

/-- **`Base64::decode` can be in-place.** -/
theorem decode_in_place_eq (x : Bytes) : decode_in_place x = decode x := by
  have h := runInPlace_spec decode_body DecState.char_count decode_body_owed x.length
    ⟨0, 0⟩ 0 x 0 le_rfl (by simp)
  simp only [Nat.sub_self, List.drop_zero, List.take_zero, List.nil_append, Nat.zero_add] at h
  obtain ⟨hs, ho, htake, hlen, howed⟩ := h
  have hend := decode_ending_length (run decode_body ⟨0, 0⟩ 0 x).1
  unfold decode_in_place decode
  simp only [hs]
  rw [write_take _ _ _ (by omega), htake]

/-- Decoding never needs more room than its input has. -/
theorem decode_length_le (x : Bytes) : (decode x).length ≤ x.length := by
  have h := runInPlace_spec decode_body DecState.char_count decode_body_owed x.length
    ⟨0, 0⟩ 0 x 0 le_rfl (by simp)
  simp only [Nat.sub_self, List.drop_zero, List.take_zero, List.nil_append, Nat.zero_add] at h
  obtain ⟨-, ho, -, -, howed⟩ := h
  have hend := decode_ending_length (run decode_body ⟨0, 0⟩ 0 x).1
  unfold decode
  simp only [List.length_append]
  omega

end Aos.Base64
