/-
  Aos.Codec.QP — `QP::encode` and `QP::decode` (quoted-printable).

  The encoder leaves a byte below 0x80 other than `=` as it is, writes any
  other as an escape triple, and puts a soft line break in front of a
  character once the line is full.  The decoder is a token automaton with one
  character of lookahead, again a cursor body.

  Main results:
    • `qp_decode_encode`   — the round trip, for every line size,
    • `encode_length_le`   — what `encode` writes fits `enough_encode_size`,
    • `decode_in_place_eq` — decoding over the input buffer changes nothing.
-/
import Aos.Str.CharMap
import Aos.Lib.Cursor

namespace Aos.QP

open Lib.Cursor

/-! ## §1. `encode`. -/

def EQ : Byte := 61

/-- `'0' + n` or `'A' + n - 10`. -/
def hex_digit (n : Byte) : Byte := if n < 10 then 48 + n else 65 + n - 10

/-- The soft line break inserted if over line size, and the column after it. -/
def soft_break (line_size cols : Nat) : Bytes × Nat :=
  if line_size ≠ 0 ∧ cols ≥ line_size then ([EQ, CR, LF], 0) else ([], cols)

/-- The encode loop from a column. -/
def encode_loop (line_size : Nat) : Nat → Bytes → Bytes
  | _, [] => []
  | cols, b :: rest =>
      let (soft, cols) := soft_break line_size cols
      if b < 0x80 ∧ b ≠ EQ then
        soft ++ b :: encode_loop line_size (if b = LF then 0 else cols + 1) rest
      else
        soft ++ EQ :: hex_digit ((b &&& 0xF0) >>> 4) :: hex_digit (b &&& 0x0F)
          :: encode_loop line_size (cols + 3) rest

/-- `QP::encode`: the characters before the terminating NUL. -/
def encode (line_size : Nat) (x : Bytes) : Bytes := encode_loop line_size 0 x

def enough_encode_size (line_size size : Nat) : Nat :=
  let size := size * 3 + 1
  if line_size ≠ 0 then size + (size / line_size + 1) * 3 else size

def DEFAULT_LINE_SIZE : Nat := 72

/-! ## §2. `decode`. -/

def cm_hex_ : Char_Map := .set (lit "0123456789ABCDEFabcdef")

/-- The value of one hex digit of a token. -/
def hex_value (t : Byte) : Byte :=
  if 48 ≤ t ∧ t ≤ 57 then t - 48
  else if 65 ≤ t ∧ t ≤ 70 then t - (65 - 10)
  else if 97 ≤ t ∧ t ≤ 102 then t - (97 - 10)
  else 0

/-- The decoder's locals: the first `token_size` characters of `token`. -/
structure DecState where
  token : Bytes

def DecState.token_size (s : DecState) : Nat := s.token.length

/-- `decode loop` body. -/
def decode_body : Body DecState Byte := fun s b rest =>
  if s.token_size ≠ 0 then
    if b = CR ∨ b = LF then
      -- a soft line break clears the token, a break inside a token is ignored
      if s.token_size = 1 then
        some (⟨[]⟩, [], if b = CR ∧ rest.head? = some LF then 1 else 0)
      else some (s, [], 0)
    else if cm_hex_.has b then
      let token := s.token ++ [b]
      if token.length = 3 then
        some (⟨[]⟩, [(hex_value (token.getD 1 0) <<< 4) + hex_value (token.getD 2 0)], 0)
      else some (⟨token⟩, [], 0)
    else some (⟨[]⟩, s.token ++ [b], 0) -- non-hex, flush & clear token
  else if b = EQ then some (⟨[b]⟩, [], 0)
  else some (s, [b], 0)

/-- `QP::decode` into a buffer of its own; an unfinished token is dropped. -/
def decode (x : Bytes) : Bytes := (run decode_body ⟨[]⟩ 0 x).2

/-- `QP::decode` with `out == in`, then the resize to the length returned. -/
def decode_in_place (x : Bytes) : Bytes :=
  let m := runInPlace decode_body x.length ⟨[]⟩ 0 x 0
  m.2.1.take m.2.2

/-! ## §3. What the decoder makes of each thing the encoder writes. -/

/-- A soft line break leaves no trace, even in front of a genuine newline. -/
theorem run_soft_break (line_size cols : Nat) (rest : Bytes) :
    run decode_body ⟨[]⟩ 0 ((soft_break line_size cols).1 ++ rest)
      = run decode_body ⟨[]⟩ 0 rest := by
  unfold soft_break
  split
  · have heq : decode_body ⟨[]⟩ EQ (CR :: LF :: rest) = some (⟨[EQ]⟩, [], 0) := rfl
    have hcr : decode_body ⟨[EQ]⟩ CR (LF :: rest) = some (⟨[]⟩, [], 1) := rfl
    show run decode_body ⟨[]⟩ 0 (EQ :: CR :: LF :: rest) = _
    rw [run_step heq, run_step hcr, run_skip]
    rfl
  · rfl

/-- A character other than `=` stands for itself. -/
theorem run_literal {b : Byte} (hb : b ≠ EQ) (rest : Bytes) :
    run decode_body ⟨[]⟩ 0 (b :: rest)
      = ((run decode_body ⟨[]⟩ 0 rest).1, b :: (run decode_body ⟨[]⟩ 0 rest).2) := by
  have hstep : decode_body ⟨[]⟩ b rest = some (⟨[]⟩, [b], 0) := by
    simp [decode_body, DecState.token_size, hb]
  rw [run_step hstep]
  rfl

/-- The two digits the encoder writes are hex, no newline, and give the byte back. -/
theorem hex_digits (b : Byte) :
    let hi := hex_digit ((b &&& 0xF0) >>> 4)
    let lo := hex_digit (b &&& 0x0F)
    (cm_hex_.has hi = true ∧ hi ≠ CR ∧ hi ≠ LF) ∧ (cm_hex_.has lo = true ∧ lo ≠ CR ∧ lo ≠ LF)
      ∧ (hex_value hi <<< 4) + hex_value lo = b := by
  revert b
  simp only [cm_hex_, Char_Map.has_set]
  decide +kernel

/-- **An escape triple decodes to the byte it escapes.** -/
theorem run_escape (b : Byte) (rest : Bytes) :
    run decode_body ⟨[]⟩ 0
        (EQ :: hex_digit ((b &&& 0xF0) >>> 4) :: hex_digit (b &&& 0x0F) :: rest)
      = ((run decode_body ⟨[]⟩ 0 rest).1, b :: (run decode_body ⟨[]⟩ 0 rest).2) := by
  obtain ⟨⟨hhi, hhi1, hhi2⟩, ⟨hlo, hlo1, hlo2⟩, hval⟩ := hex_digits b
  have h1 : ∀ r, decode_body ⟨[]⟩ EQ r = some (⟨[EQ]⟩, [], 0) := fun _ => rfl
  have h2 : ∀ r, decode_body ⟨[EQ]⟩ (hex_digit ((b &&& 0xF0) >>> 4)) r
      = some (⟨[EQ, hex_digit ((b &&& 0xF0) >>> 4)]⟩, [], 0) := by
    intro r
    simp [decode_body, DecState.token_size, hhi, hhi1, hhi2]
  have h3 : ∀ r, decode_body ⟨[EQ, hex_digit ((b &&& 0xF0) >>> 4)]⟩ (hex_digit (b &&& 0x0F)) r
      = some (⟨[]⟩, [b], 0) := by
    intro r
    simp [decode_body, DecState.token_size, hlo, hlo1, hlo2, hval]
  rw [run_step (h1 _), run_step (h2 _), run_step (h3 _)]
  rfl

/-! ## §4. The round trip. -/

/-- With no token pending the decoder undoes the encode loop from any column. -/
theorem decode_encode_loop (line_size : Nat) :
    ∀ (x : Bytes) (cols : Nat), decode (encode_loop line_size cols x) = x := by
  intro x
  induction x with
  | nil => intro cols; rfl
  | cons b rest ih =>
      intro cols
      simp only [decode, encode_loop]
      by_cases hb : b < 0x80 ∧ b ≠ EQ
      · rw [if_pos hb, run_soft_break, run_literal hb.2]
        exact congrArg (b :: ·) (ih _)
      · rw [if_neg hb, run_soft_break, run_escape]
        exact congrArg (b :: ·) (ih _)

/-- **Quoted-printable round trip**: whatever the bytes and whatever the line
size, the decoder gives back what the encoder was given. -/
theorem qp_decode_encode (line_size : Nat) (x : Bytes) : decode (encode line_size x) = x :=
  decode_encode_loop line_size x 0

/-- What is encoded begins with the first byte, or escapes it. -/
theorem encode_start (b : Byte) (rest : Bytes) :
    ∃ c out, encode DEFAULT_LINE_SIZE (b :: rest) = c :: out ∧ (c = b ∨ c = EQ) := by
  have hsoft : soft_break DEFAULT_LINE_SIZE 0 = ([], 0) := by decide
  unfold encode encode_loop
  rw [hsoft]
  dsimp only
  by_cases hliteral : b < 0x80 ∧ b ≠ EQ
  · rw [if_pos hliteral]
    exact ⟨b, _, rfl, Or.inl rfl⟩
  · rw [if_neg hliteral]
    exact ⟨EQ, _, rfl, Or.inr rfl⟩

/-! ## §5. What `encode` writes fits the buffer it is given. -/

/-- The soft break is paid for by the full line before it. -/
theorem soft_break_paid (line_size cols n c : Nat) (hc : c ≤ 3) :
    (soft_break line_size cols).1.length
        + (((soft_break line_size cols).2 + c + n * 3) / line_size) * 3
      ≤ ((cols + (n + 1) * 3) / line_size) * 3 := by
  unfold soft_break
  split
  next hfull =>
    have hdiv : (0 + c + n * 3) / line_size + 1 ≤ (cols + (n + 1) * 3) / line_size := by
      rw [← Nat.add_div_right _ (by omega)]
      exact Nat.div_le_div_right (by omega)
    simp only [List.length_cons, List.length_nil]
    omega
  next =>
    have hdiv : (cols + c + n * 3) / line_size ≤ (cols + (n + 1) * 3) / line_size :=
      Nat.div_le_div_right (by omega)
    simp only [List.length_nil]
    omega

theorem encode_loop_length_le (line_size : Nat) :
    ∀ (x : Bytes) (cols : Nat),
      (encode_loop line_size cols x).length
        ≤ x.length * 3 + ((cols + x.length * 3) / line_size) * 3 := by
  intro x
  induction x with
  | nil => intro cols; simp [encode_loop]
  | cons b rest ih =>
      intro cols
      simp only [encode_loop, List.length_cons]
      split
      · have h1 := ih (if b = LF then 0 else (soft_break line_size cols).2 + 1)
        have h2 : ((if b = LF then 0 else (soft_break line_size cols).2 + 1) + rest.length * 3)
              / line_size
            ≤ ((soft_break line_size cols).2 + 1 + rest.length * 3) / line_size :=
          Nat.div_le_div_right (by split <;> omega)
        have h3 := soft_break_paid line_size cols rest.length 1 (by omega)
        simp only [List.length_append, List.length_cons]
        omega
      · have h1 := ih ((soft_break line_size cols).2 + 3)
        have h3 := soft_break_paid line_size cols rest.length 3 le_rfl
        simp only [List.length_append, List.length_cons]
        omega

/-- **`enough_encode_size` is enough**, the terminating NUL included. -/
theorem encode_length_le (line_size : Nat) (x : Bytes) :
    (encode line_size x).length + 1 ≤ enough_encode_size line_size x.length := by
  have := encode_loop_length_le line_size x 0
  unfold encode enough_encode_size
  by_cases h : line_size = 0
  · subst h
    simp only [Nat.div_zero, Nat.zero_mul, Nat.add_zero] at this
    simp only [ne_eq, not_true_eq_false, if_false]
    omega
  · have hdiv : (0 + x.length * 3) / line_size ≤ (x.length * 3 + 1) / line_size :=
      Nat.div_le_div_right (by omega)
    simp only [ne_eq, h, not_false_eq_true, if_true]
    omega

/-! ## §6. Decoding in place. -/

/-- A flush writes the token and the current character: all of them were read. -/
theorem decode_body_owed (s : DecState) (b : Byte) (rest : Bytes) (s' : DecState) (w : Bytes)
    (k : Nat) (h : decode_body s b rest = some (s', w, k)) :
    w.length + s'.token_size ≤ s.token_size + 1 := by
  simp only [decode_body] at h
  split at h
  next htok =>
    split at h
    · split at h
      all_goals
        cases h
        simp [DecState.token_size]
    · split at h
      · split at h
        all_goals
          cases h
          simp [DecState.token_size]
      · cases h
        simp [DecState.token_size]
  next htok =>
    split at h
    all_goals
      cases h
      simp only [DecState.token_size, List.length_cons, List.length_nil]
      omega

theorem decode_cursor (x : Bytes) :
    decode_in_place x = decode x ∧ (decode x).length ≤ x.length := by
  have h := runInPlace_spec decode_body DecState.token_size decode_body_owed x.length
    ⟨[]⟩ 0 x 0 le_rfl (by simp [DecState.token_size])
  simp only [Nat.sub_self, List.drop_zero, List.take_zero, List.nil_append, Nat.zero_add] at h
  obtain ⟨-, ho, htake, -, howed⟩ := h
  refine ⟨htake, ?_⟩
  unfold decode
  omega

/-- **`QP::decode` can be in-place.** -/
theorem decode_in_place_eq (x : Bytes) : decode_in_place x = decode x := (decode_cursor x).1

/-- Decoding never needs more room than its input has. -/
theorem decode_length_le (x : Bytes) : (decode x).length ≤ x.length := (decode_cursor x).2

end Aos.QP
