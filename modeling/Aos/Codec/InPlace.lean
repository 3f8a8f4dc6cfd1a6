/-
  Aos.Codec.InPlace — decoding over the buffer that is read.

  `Base64::decode`, `QP::decode` and `QS::decode` may be called with `out == in`.
  Each is a loop with one reading and one writing cursor; what it still owes
  when it has read a byte (the codes of a group, a pending token, nothing) is
  never more than it has read and not written.

  Main results:
    • `run_decode_body` — the loop of `QS::decode` as a loop with two cursors;
    • `decoders_in_place` — the three decoders over their own input.
-/
import Aos.Codec.Base64
import Aos.Codec.QP
import Aos.Str.QuotedString

namespace Aos

open Lib.Cursor

/-! ## §1. The quoted string decoder. -/

namespace QS

/-- The locals of the loop: the state, and how far `ptr` is behind `in`. -/
abbrev Locals := State × Nat

/-- The body of the loop of `decode(in, in_size, out)`. -/
def decode_body (quote escape : Byte) : Body Locals Byte := fun s c _ =>
  match s.1 with
  | .DECODE_CHAR =>
      if c = quote then some ((.DECODE_QUOTE, s.2 + 1), [], 0)
      else if c = escape then some ((.DECODE_ESCAPE, s.2 + 1), [], 0)
      else some ((.DECODE_CHAR, s.2 + 1), [c], 0)
  | .DECODE_ESCAPE => some ((.DECODE_CHAR, s.2 + 1), [c], 0)
  | _ => none

/-- `decode(in, in_size, out)` with `out == in`. -/
def decode_over (qs : QS) (in_ : Bytes) : QS × Bytes :=
  if in_.head? = some qs.quote_ then
    let m := runInPlace (decode_body qs.quote_ qs.escape_) (in_.length - 1) (.DECODE_CHAR, 1) 0 in_ 0
    ({ qs with
        state_ := if m.1.1 = .DECODE_QUOTE then .OK else m.1.1
        n_read_ := m.1.2 },
      m.2.1.take m.2.2)
  else ({ qs with state_ := .DECODE_CHAR, n_read_ := 0 }, [])

variable (quote escape : Byte)

/-- **The loop with two cursors** does what the loop over the text does. -/
theorem run_decode_body (s : Bytes) : ∀ state n,
    run (decode_body quote escape) (state, n) 0 s
      = (((decode_loop quote escape state s).state, n + (decode_loop quote escape state s).n_read),
          (decode_loop quote escape state s).out) := by
  have hread : ∀ n k : Nat, n + 1 + k = n + (k + 1) := by
    intro n k
    omega
  induction s with
  | nil => intro state n; cases state <;> rfl
  | cons c s ih =>
      intro state n
      cases state with
      | OK => exact run_break rfl
      | DECODE_QUOTE => exact run_break rfl
      | DECODE_ESCAPE =>
          have hstep : decode_body quote escape (.DECODE_ESCAPE, n) c s
              = some ((.DECODE_CHAR, n + 1), [c], 0) := rfl
          rw [run_step hstep, ih, decode_loop]
          exact Prod.ext (Prod.ext rfl (hread n _)) rfl
      | DECODE_CHAR =>
          rw [decode_loop]
          by_cases hquote : c = quote
          · have hstep : decode_body quote escape (.DECODE_CHAR, n) c s
                = some ((.DECODE_QUOTE, n + 1), [], 0) := if_pos hquote
            rw [run_step hstep, ih, if_pos hquote]
            exact Prod.ext (Prod.ext rfl (hread n _)) rfl
          · by_cases hescape : c = escape
            · have hstep : decode_body quote escape (.DECODE_CHAR, n) c s
                  = some ((.DECODE_ESCAPE, n + 1), [], 0) :=
                (if_neg hquote).trans (if_pos hescape)
              rw [run_step hstep, ih, if_neg hquote, if_pos hescape]
              exact Prod.ext (Prod.ext rfl (hread n _)) rfl
            · have hstep : decode_body quote escape (.DECODE_CHAR, n) c s
                  = some ((.DECODE_CHAR, n + 1), [c], 0) :=
                (if_neg hquote).trans (if_neg hescape)
              rw [run_step hstep, ih, if_neg hquote, if_neg hescape]
              exact Prod.ext (Prod.ext rfl (hread n _)) rfl

/-- One byte is written for one that is read. -/
theorem decode_body_owed (s : Locals) (c : Byte) (rest : Bytes) (s' : Locals) (w : Bytes) (k : Nat)
    (h : decode_body quote escape s c rest = some (s', w, k)) : w.length + 0 ≤ 0 + 1 := by
  unfold decode_body at h
  split at h
  · split_ifs at h
    · cases h
      exact Nat.zero_le 1
    · cases h
      exact Nat.zero_le 1
    · cases h
      exact le_rfl
  · cases h
    exact le_rfl
  · cases h

/-- **`QS::decode` can be in-place.** -/
theorem decode_over_eq (qs : QS) (in_ : Bytes) : qs.decode_over in_ = qs.decode in_ := by
  unfold decode_over decode
  split
  · rename_i hquote
    obtain ⟨s, rfl⟩ : ∃ s, in_ = qs.quote_ :: s := by
      cases in_ with
      | nil => exact absurd hquote (by simp)
      | cons a s => exact ⟨s, congrArg (· :: s) (Option.some.inj hquote)⟩
    have hspec := runInPlace_spec (decode_body qs.quote_ qs.escape_) (fun _ => 0)
      (decode_body_owed _ _) s.length (.DECODE_CHAR, 1) 0 (qs.quote_ :: s) 0
      (Nat.le_succ _) (Nat.zero_le _)
    have hdrop : (qs.quote_ :: s).drop ((qs.quote_ :: s).length - s.length) = s := by
      rw [List.length_cons, Nat.add_sub_cancel_left, List.drop_succ_cons, List.drop_zero]
    simp only [hdrop, run_decode_body, List.take_zero, List.nil_append] at hspec
    obtain ⟨hstate, _, hout, _⟩ := hspec
    simp only [List.length_cons, Nat.add_sub_cancel, List.tail_cons, hstate, hout]
    rw [Nat.add_comm 1]
    rfl
  · rfl

end QS

/-! ## §2. The three decoders. -/

/-- **Decoding in place**: each decoder gives over its own input what it gives into a
    buffer of its own, and its writing cursor never overtakes the byte just read. -/
theorem decoders_in_place (qs : QS) (x : Bytes) :
    (Base64.decode_in_place x = Base64.decode x ∧
      Behind Base64.decode_body x.length ⟨0, 0⟩ 0 x 0) ∧
    (QP.decode_in_place x = QP.decode x ∧ Behind QP.decode_body x.length ⟨[]⟩ 0 x 0) ∧
    qs.decode_over x = qs.decode x ∧
      Behind (QS.decode_body qs.quote_ qs.escape_) (x.length - 1) (.DECODE_CHAR, 1) 0 x 0 :=
  ⟨⟨Base64.decode_in_place_eq x,
      runInPlace_behind Base64.decode_body _ Base64.decode_body_owed _ _ _ _ _ le_rfl
        (Nat.zero_le _)⟩,
    ⟨QP.decode_in_place_eq x,
      runInPlace_behind QP.decode_body _ QP.decode_body_owed _ _ _ _ _ le_rfl (Nat.zero_le _)⟩,
    QS.decode_over_eq qs x,
      runInPlace_behind (QS.decode_body qs.quote_ qs.escape_) (fun _ => 0) (QS.decode_body_owed _ _)
        _ _ _ _ _ (Nat.sub_le _ _) (Nat.zero_le _)⟩

end Aos
