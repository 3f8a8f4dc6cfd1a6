/-
  Aos.Ipc.LocalStream — messages over a local stream.

  `send_cstr` and `recv_cstr` of `Local_Stream` are two loops that know nothing
  of each other.  The sender hands the transport what is left of the message
  until all of it is accepted; the receiver collects what the transport hands
  over until a piece ends with the delimiter.

  Main results:
    • `send_ends` — the sender returns the length when the transport has
      accepted the message, and -1 when it has accepted less;
    • `recv_ends` — the receiver returns the message, whatever the pieces are;
    • `cstr_framed` — the two together.
-/
import Aos.Byte
import Aos.Lib.Lines
import Aos.Lib.Loop

namespace Aos.Local_Stream

open Lib.Loop Lib.Lines

/-- `Local_Stream::BUF_SIZE`. -/
def BUF_SIZE : Nat := 4096

/-! ## §1. `send_cstr`. -/

/-- The sender between two calls of `send`. -/
structure Sending where
  /-- the bytes from `left` on, `n_left` of them -/
  left : Bytes
  /-- what the transport has accepted -/
  wire : Bytes
  /-- the calls made so far -/
  calls : Nat
  deriving Repr, DecidableEq

/-- `send(left, n_size)`.  The transport answers the k-th call with `answer k`, and
    never accepts more than it is offered. -/
def send (answer : Nat → Int) (s : Sending) : Int :=
  let n_size := if s.left.length > BUF_SIZE then BUF_SIZE else s.left.length
  min (answer s.calls) n_size

/-- One pass of the loop of `send_cstr(buf, len)`, which is left with the value
    returned and the bytes that are on the way. -/
def send_pass (len : Nat) (answer : Nat → Int) (s : Sending) : Sending ⊕ (Int × Bytes) :=
  if s.left.length > 0 then
    if send answer s > 0 then
      .inl ⟨s.left.drop (send answer s).toNat, s.wire ++ s.left.take (send answer s).toNat,
        s.calls + 1⟩
    else .inr (-1, s.wire)
  else .inr (len, s.wire)

/-- A call on a message that is not empty fails with the transport only. -/
theorem answer_of_send {answer : Nat → Int} {s : Sending} (hleft : s.left.length > 0)
    (h : ¬ send answer s > 0) : answer s.calls ≤ 0 := by
  have hsize : ((if s.left.length > BUF_SIZE then BUF_SIZE else s.left.length : Nat) : Int) > 0 := by
    unfold BUF_SIZE
    split_ifs <;> omega
  unfold send at h
  simp only at h
  omega

theorem send_pass_left {len : Nat} {answer : Nat → Int} {s s' : Sending}
    (h : send_pass len answer s = .inl s') :
    s'.left.length < s.left.length ∧ s'.wire ++ s'.left = s.wire ++ s.left := by
  unfold send_pass at h
  split_ifs at h with hleft hsend
  obtain rfl := Sum.inl.inj h
  refine ⟨?_, ?_⟩
  · rw [List.length_drop]
    omega
  · rw [List.append_assoc, List.take_append_drop]

theorem send_pass_exit {len : Nat} {answer : Nat → Int} {s : Sending} {r : Int × Bytes}
    (h : send_pass len answer s = .inr r) :
    (r = (↑len, s.wire) ∧ s.left = []) ∨
      (r = (-1, s.wire) ∧ s.left ≠ [] ∧ answer s.calls ≤ 0) := by
  unfold send_pass at h
  split_ifs at h with hleft hsend
  · obtain rfl := Sum.inr.inj h
    exact Or.inr ⟨rfl, List.ne_nil_of_length_pos hleft, answer_of_send hleft hsend⟩
  · obtain rfl := Sum.inr.inj h
    refine Or.inl ⟨rfl, List.length_eq_zero_iff.mp ?_⟩
    omega

/-- **The sender returns the length when the transport has accepted the message.** -/
theorem send_ends (answer : Nat → Int) (buf : Bytes) :
    ∃ r, Ends (send_pass buf.length answer) ⟨buf, [], 0⟩ r ∧
      (r = (↑buf.length, buf) ∨
        (r.1 = -1 ∧ r.2 <+: buf ∧ r.2 ≠ buf ∧ ∃ k, answer k ≤ 0)) := by
  apply ends_of_invariant _ (fun s => s.wire ++ s.left = buf) _ (fun s => s.left.length)
  · intro s s' hinv hpass
    obtain ⟨hlt, hbytes⟩ := send_pass_left hpass
    exact ⟨hbytes.trans hinv, hlt⟩
  · intro s r hinv hpass
    cases send_pass_exit hpass with
    | inl hall =>
        left
        rw [hall.1, ← hinv, hall.2, List.append_nil]
    | inr hbroken =>
        obtain ⟨rfl, hleft, hanswer⟩ := hbroken
        right
        refine ⟨rfl, ⟨s.left, hinv⟩, ?_, s.calls, hanswer⟩
        intro hwire
        rw [← hwire] at hinv
        exact hleft (List.append_right_eq_self.mp hinv)
  · rfl

/-! ## §2. `recv_cstr`. -/

/-- The receiver between two calls of `recv`. -/
structure Receiving where
  /-- the pieces the transport still has for it -/
  net : List Bytes
  n_total : Int
  buf_ : Bytes
  deriving Repr, DecidableEq

/-- `recv(buf, BUF_SIZE)`: the bytes of one piece, as many as the buffer takes; none
    when there is no piece. -/
def recv : List Bytes → Bytes × List Bytes
  | [] => ([], [])
  | piece :: net =>
      (piece.take BUF_SIZE,
        if piece.drop BUF_SIZE = [] then net else piece.drop BUF_SIZE :: net)

/-- One pass of the loop of `recv_cstr(delimiter)`, which is left with the value
    returned in `n_total`. -/
def recv_pass (delimiter : Byte) (s : Receiving) : Receiving ⊕ Receiving :=
  let buf := (recv s.net).1
  let net := (recv s.net).2
  if buf.length > 0 then
    let s' : Receiving := ⟨net, s.n_total + buf.length, s.buf_ ++ buf⟩
    if buf.getLast? = some delimiter then .inr s' else .inl s'
  else .inr ⟨net, -1, s.buf_⟩

theorem recv_bytes (pieces later : List Bytes) (hne : ∀ piece ∈ pieces, piece ≠ [])
    (hpieces : pieces ≠ []) :
    ∃ pieces', (recv (pieces ++ later)).2 = pieces' ++ later ∧
      (∀ piece ∈ pieces', piece ≠ []) ∧ (recv (pieces ++ later)).1 ≠ [] ∧
      (recv (pieces ++ later)).1 ++ pieces'.flatten = pieces.flatten := by
  cases pieces with
  | nil => exact absurd rfl hpieces
  | cons piece pieces =>
      have hpiece := hne piece List.mem_cons_self
      have htail : ∀ q ∈ pieces, q ≠ [] := fun q hq => hne q (List.mem_cons_of_mem piece hq)
      have htake : piece.take BUF_SIZE ≠ [] := by
        rw [Ne, List.take_eq_nil_iff]
        exact not_or.mpr ⟨by decide, hpiece⟩
      by_cases hdrop : piece.drop BUF_SIZE = []
      · refine ⟨pieces, if_pos hdrop, htail, htake, ?_⟩
        show piece.take BUF_SIZE ++ pieces.flatten = piece ++ pieces.flatten
        have hall := List.take_append_drop BUF_SIZE piece
        rw [hdrop, List.append_nil] at hall
        rw [hall]
      · refine ⟨piece.drop BUF_SIZE :: pieces, if_neg hdrop, ?_, htake, ?_⟩
        · intro q hq
          cases List.mem_cons.mp hq with
          | inl h => rw [h]; exact hdrop
          | inr h => exact htail q h
        · show piece.take BUF_SIZE ++ (piece.drop BUF_SIZE ++ pieces.flatten)
            = piece ++ pieces.flatten
          rw [← List.append_assoc, List.take_append_drop]

/-- The receiver on the way: the pieces that are left, in front of `later`, hold the
    rest of the message. -/
structure Expects (message : Bytes) (later : List Bytes) (s : Receiving) : Prop where
  total : s.n_total = s.buf_.length
  net : ∃ pieces, s.net = pieces ++ later ∧ (∀ piece ∈ pieces, piece ≠ []) ∧
    pieces ≠ [] ∧ s.buf_ ++ pieces.flatten = message

/-- What a pass does with the next piece of a line. -/
theorem recv_pass_cases {delimiter : Byte} {t : Bytes} {later : List Bytes} {s : Receiving}
    (ht : delimiter ∉ t) (h : Expects (t ++ [delimiter]) later s) :
    recv_pass delimiter s = .inr ⟨later, ↑(t ++ [delimiter]).length, t ++ [delimiter]⟩ ∨
      ∃ s', recv_pass delimiter s = .inl s' ∧ Expects (t ++ [delimiter]) later s' ∧
        s.buf_.length < s'.buf_.length ∧ s'.buf_.length ≤ t.length := by
  obtain ⟨pieces, hnet, hne, hpieces, hmessage⟩ := h.net
  obtain ⟨pieces', hnet', hne', hbuf, hflat⟩ := recv_bytes pieces later hne hpieces
  rw [← hnet] at hnet' hbuf hflat
  have hsome : (recv s.net).1.length > 0 := List.length_pos_of_ne_nil hbuf
  have htotal : s.n_total + (recv s.net).1.length = ↑(s.buf_ ++ (recv s.net).1).length := by
    rw [h.total, List.length_append, Nat.cast_add]
  have hmore : (s.buf_ ++ (recv s.net).1) ++ pieces'.flatten = t ++ [delimiter] := by
    rw [List.append_assoc, hflat, hmessage]
  have hlast : (s.buf_ ++ (recv s.net).1).getLast? = (recv s.net).1.getLast? :=
    List.getLast?_append_of_ne_nil _ hbuf
  unfold recv_pass
  rw [if_pos hsome]
  cases prefix_line ht ⟨pieces'.flatten, hmore⟩ with
  | inl hpart =>
      -- the line is not complete, so the piece does not end with the delimiter
      obtain ⟨hno, t', ht'⟩ := hpart
      have hgo : (recv s.net).1.getLast? ≠ some delimiter := by
        intro heq
        rw [← hlast] at heq
        exact hno (List.mem_of_getLast? heq)
      rw [if_neg hgo]
      refine Or.inr ⟨_, rfl, ⟨htotal, pieces', hnet', hne', ?_, hmore⟩, ?_, ?_⟩
      · intro hnil
        rw [hnil, List.flatten_nil, List.append_nil] at hmore
        apply hno
        rw [hmore]
        simp
      · show s.buf_.length < (s.buf_ ++ (recv s.net).1).length
        rw [List.length_append]
        omega
      · exact List.IsPrefix.length_le ⟨t', ht'.symm⟩
  | inr hwhole =>
      -- it is complete: nothing of the message is left, the pieces being non-empty
      obtain ⟨rest, hrest⟩ := hwhole
      have hend : rest = [] ∧ pieces'.flatten = [] := by
        have hlen := congrArg List.length hmore
        rw [hrest] at hlen
        simp only [List.length_append, List.length_cons, List.length_nil] at hlen
        exact ⟨List.length_eq_zero_iff.mp (by omega), List.length_eq_zero_iff.mp (by omega)⟩
      obtain ⟨rfl, hflat'⟩ := hend
      have hnone : pieces' = [] := by
        cases pieces' with
        | nil => rfl
        | cons q qs =>
            exact absurd (List.append_eq_nil_iff.mp hflat').1 (hne' q List.mem_cons_self)
      have hstop : (recv s.net).1.getLast? = some delimiter := by
        rw [← hlast, hrest]
        exact List.getLast?_concat
      left
      rw [if_pos hstop, htotal, hrest, hnet', hnone]
      rfl

/-- **The receiver returns the message, whatever the pieces are.** -/
theorem recv_ends (delimiter : Byte) (t : Bytes) (later : List Bytes) (ht : delimiter ∉ t) :
    ∀ s, Expects (t ++ [delimiter]) later s →
      ∃ r, Ends (recv_pass delimiter) s r ∧
        r = ⟨later, ↑(t ++ [delimiter]).length, t ++ [delimiter]⟩ := by
  apply ends_of_invariant _ (Expects (t ++ [delimiter]) later) _
    (fun s => t.length - s.buf_.length)
  · intro s s' hexp hpass
    cases recv_pass_cases ht hexp with
    | inl hend => exact absurd (hend.symm.trans hpass) (by simp)
    | inr hgo =>
        obtain ⟨s'', hpass', hexp', hlt, hle⟩ := hgo
        obtain rfl := Sum.inl.inj (hpass'.symm.trans hpass)
        exact ⟨hexp', by omega⟩
  · intro s r hexp hpass
    cases recv_pass_cases ht hexp with
    | inl hend => exact (Sum.inr.inj (hend.symm.trans hpass)).symm
    | inr hgo =>
        obtain ⟨_, hpass', _⟩ := hgo
        exact absurd (hpass'.symm.trans hpass) (by simp)

/-! ## §3. The two together. -/

/-- **A message is framed by its delimiter.**  For every message that holds the
    delimiter at its end only: the sender ends, with the length when the transport
    accepts something at every call; and once it has returned the length, the receiver
    returns the message and its length for any pieces the transport makes of what was
    sent, and takes nothing of what comes later. -/
theorem cstr_framed (t : Bytes) (ht : NUL ∉ t) (answer : Nat → Int) :
    ∃ n_send wire,
      Ends (send_pass (t ++ [NUL]).length answer) ⟨t ++ [NUL], [], 0⟩ (n_send, wire) ∧
      ((∀ k, 0 < answer k) → n_send = (t ++ [NUL]).length) ∧
      (n_send = (t ++ [NUL]).length →
        ∀ pieces later, (∀ piece ∈ pieces, piece ≠ []) → pieces.flatten = wire →
          Ends (recv_pass NUL) ⟨pieces ++ later, 0, []⟩
            ⟨later, (t ++ [NUL]).length, t ++ [NUL]⟩) := by
  obtain ⟨⟨n_send, wire⟩, hends, hsent⟩ := send_ends answer (t ++ [NUL])
  refine ⟨n_send, wire, hends, ?_, ?_⟩
  · intro hanswer
    cases hsent with
    | inl hall => exact congrArg Prod.fst hall
    | inr hbroken =>
        obtain ⟨_, _, _, k, hk⟩ := hbroken
        have := hanswer k
        omega
  · intro hlen pieces later hne hflat
    have hwire : wire = t ++ [NUL] := by
      cases hsent with
      | inl hall => exact congrArg Prod.snd hall
      | inr hbroken =>
          have hneg : n_send = -1 := hbroken.1
          omega
    rw [hwire] at hflat
    have hpieces : pieces ≠ [] := by
      intro hnil
      rw [hnil] at hflat
      exact absurd hflat (by simp)
    have hexp : Expects (t ++ [NUL]) later ⟨pieces ++ later, 0, []⟩ :=
      ⟨rfl, pieces, rfl, hne, hpieces, hflat⟩
    obtain ⟨r, hr, rfl⟩ := recv_ends NUL t later ht _ hexp
    exact hr

/-- A command that is sent two bytes at a time and arrives in two pieces. -/
theorem cstr_framed_pid :
    Ends (send_pass 4 fun _ => 2) ⟨lit "pid" ++ [NUL], [], 0⟩ (4, lit "pid" ++ [NUL]) ∧
      Ends (recv_pass NUL) ⟨[[112], [105, 100, 0], [43]], 0, []⟩
        ⟨[[43]], 4, lit "pid" ++ [NUL]⟩ := by
  obtain ⟨n_send, wire, hends, hall, hrecv⟩ :=
    cstr_framed (lit "pid") (by decide) (fun _ => 2)
  have hsent : Ends (send_pass 4 fun _ => 2) ⟨lit "pid" ++ [NUL], [], 0⟩
      (4, lit "pid" ++ [NUL]) := ⟨3, by decide⟩
  have hwire : wire = lit "pid" ++ [NUL] := (Prod.mk.inj (hends.unique _ hsent)).2
  refine ⟨hsent, ?_⟩
  exact hrecv (hall fun _ => by decide) [[112], [105, 100, 0]] [[43]] (by decide)
    (by rw [hwire]; decide)

end Aos.Local_Stream
