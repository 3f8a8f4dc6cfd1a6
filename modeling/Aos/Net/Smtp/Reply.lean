/-
  Aos.Net.Smtp.Reply — how `SMTP_Client_IO` finds the end of a reply.

  A reply is a sequence of lines; all but the last have a '-' behind the code.
  `read_line` means to look for the code at the front of the first and of the
  last line, but it compares characters with the numbers 0 to 9: a reply that
  begins with a digit is never taken for a multi-line one, and is complete
  wherever a chunk ends with a line end.

  Main results:
    • `read_line_digit` — one call, on a buffer that begins with a digit;
    • `replies_blockwise` — the client's loop ends behind the first chunk that
      ends with a line end;
    • `reply_framed_iff` — the cuttings for which the whole reply is read.
-/
import Aos.Net.Smtp.ClientIO

namespace Aos

open Lib.Feed

namespace SMTP_Client_IO

/-! ## §1. Replies. -/

/-- A line of a reply: the three digits, and the text. -/
structure Line where
  d1 : Byte
  d2 : Byte
  d3 : Byte
  text : Bytes
  digits : isdigit d1 ∧ isdigit d2 ∧ isdigit d3
  no_lf : LF ∉ text

def Line.bytes (sep : Byte) (l : Line) : Bytes := l.d1 :: l.d2 :: l.d3 :: sep :: l.text ++ [CR, LF]

/-- Continuation lines 'ddd-text' and the final line 'ddd text'. -/
def reply (lines : List Line) (last : Line) : Bytes :=
  lines.flatMap (Line.bytes 45) ++ last.bytes SP

/-- The reply is read as it should be: every access to the buffer is in bounds,
    and the loop ends with the last byte, the whole reply in `buf_`. -/
def Framed (io : SMTP_Client_IO) (chunks : List Bytes) : Prop :=
  ∃ io', reader.Runs ⟨io, [], chunks⟩ (some ⟨io', [], []⟩) ∧ io'.rd_state_ = .RD_OK ∧
    io'.buf_ = chunks.flatten

/-! ## §2. One call. -/

theorem digit_range {d : Byte} (h : isdigit d = true) : 48 ≤ d.toNat ∧ d.toNat ≤ 57 :=
  of_decide_eq_true h

/-- A buffer that begins with a digit is taken for a complete reply. -/
theorem wants_more_digit (d : Byte) (buf : Bytes) (hd : isdigit d = true) :
    wants_more (d :: buf) = some false := by
  have hrange := digit_range hd
  have hchar : schar d = d.toNat := by
    unfold schar
    rw [if_pos (by omega)]
  -- the first character is none of 0 to 9, so the scan stops there
  have hskip : skip_digits 0 (d :: buf) = some 0 := by
    rw [skip_digits, if_neg (by omega)]
  have hfirst : index (d :: buf) 0 = some d := by
    unfold index
    rw [if_neg (by simp)]
    rfl
  have hdash : d ≠ 45 := by
    intro heq
    rw [heq] at hrange
    exact absurd hrange.1 (by decide)
  unfold wants_more
  simp only [hskip, hfirst, Option.bind_eq_bind, Option.bind_some]
  rw [if_neg hdash]

/-- What the object knows of the reply `seen` so far. -/
structure Partial (io : SMTP_Client_IO) (seen : Bytes) : Prop where
  more : io.rd_state_ = .RD_MORE
  buf : io.buf_ = seen

/-- **One call of `read_line`.** -/
theorem read_line_digit (io : SMTP_Client_IO) (seen chunk : Bytes) (d : Byte) (rest : Bytes)
    (h : Partial io seen) (hchunk : chunk ≠ []) (hbuf : seen ++ chunk = d :: rest)
    (hd : isdigit d = true) :
    ∃ io' line, io.read_line chunk 0 = some (io', line, []) ∧ io'.buf_ = seen ++ chunk ∧
      io'.rd_state_ = if [LF] <:+ seen ++ chunk then .RD_OK else .RD_MORE := by
  have hpos : 0 < chunk.length := List.length_pos_iff.mpr hchunk
  obtain ⟨init, last, hlast⟩ : ∃ init last, seen ++ chunk = init ++ [last] := by
    refine ⟨seen ++ chunk.dropLast, chunk.getLast hchunk, ?_⟩
    rw [List.append_assoc, List.dropLast_append_getLast hchunk]
  have hindex : index (seen ++ chunk) ((seen ++ chunk).length - 1) = some last := by
    rw [hlast]
    unfold index
    rw [List.length_append, List.length_singleton, Nat.add_sub_cancel,
      if_neg (by omega), List.getElem?_append_right (le_refl _), Nat.sub_self]
    rfl
  have hsuf : ([LF] <:+ seen ++ chunk) ↔ last = LF := by
    rw [hlast]
    constructor
    · intro hs
      have := List.suffix_iff_eq_drop.mp hs
      simpa using this.symm
    · intro heq
      rw [heq]
      exact List.suffix_append init [LF]
  have hold : (if io.rd_state_ ≠ .RD_MORE then [] else io.buf_) = seen := by
    rw [if_neg (by simp [h.more]), h.buf]
  unfold read_line
  simp only [hold]
  rw [if_pos hpos]
  simp only [hindex, Option.bind_eq_bind, Option.bind_some]
  by_cases hlf : last = LF
  · rw [if_pos (Or.inl hlf), if_pos hlf, if_pos (hsuf.mpr hlf), hbuf, wants_more_digit d rest hd]
    exact ⟨_, _, rfl, rfl, rfl⟩
  · rw [if_neg (by simp [hlf]), if_neg (fun hs => hlf (hsuf.mp hs))]
    exact ⟨_, _, rfl, rfl, rfl⟩

/-- A stream that does not begin with anything but a digit. -/
def Starts (s : Bytes) : Prop := ∀ d, s.head? = some d → isdigit d = true

/-- **The client's loop reads such a stream blockwise**, up to the first chunk
    that ends with a line end. -/
theorem replies_blockwise : reader.Blockwise Starts Partial
    (fun io seen => io.rd_state_ = .RD_OK ∧ io.buf_ = seen) (fun seen => [LF] <:+ seen) where
  idle io seen h := by
    show decide (io.rd_state_ = .RD_OK) = false
    rw [h.more]
    rfl
  read io seen chunk h hchunk hstarts := by
    obtain ⟨d, rest, hbuf⟩ := List.exists_cons_of_ne_nil (List.append_ne_nil_of_right_ne_nil seen hchunk)
    have hd := hstarts d (by rw [hbuf]; rfl)
    obtain ⟨io', line, hread, hbuf', hstate⟩ := read_line_digit io seen chunk d rest h hchunk hbuf hd
    refine ⟨io', ?_, ?_, ?_⟩
    · show (io.read_line chunk 0).map _ = _
      rw [hread]
      rfl
    · intro hlf
      rw [if_pos hlf] at hstate
      exact ⟨decide_eq_true hstate, hstate, hbuf'⟩
    · intro hlf
      rw [if_neg hlf] at hstate
      exact ⟨hstate, hbuf'⟩

/-! ## §3. When a reply is read as a whole. -/

theorem reply_starts (lines : List Line) (last : Line) (pre : Bytes) (hpre : pre <+: reply lines last) :
    Starts pre := by
  intro d hd
  have hreply : ∃ rest, reply lines last = d :: rest := by
    obtain ⟨t, ht⟩ := hpre
    cases pre with
    | nil => exact absurd hd (by simp)
    | cons b pre =>
        have hb : b = d := by simpa using hd
        exact ⟨pre ++ t, by rw [← ht, hb, List.cons_append]⟩
  obtain ⟨rest, hrest⟩ := hreply
  -- the first byte is that of the first line
  cases lines with
  | nil =>
      have hfirst : last.d1 = d := (List.cons.inj hrest).1
      rw [← hfirst]
      exact last.digits.1
  | cons l lines =>
      have hfirst : l.d1 = d := (List.cons.inj hrest).1
      rw [← hfirst]
      exact l.digits.1

theorem reply_ends (lines : List Line) (last : Line) : [LF] <:+ reply lines last :=
  ⟨lines.flatMap (Line.bytes 45) ++ (last.d1 :: last.d2 :: last.d3 :: SP :: last.text ++ [CR]), by
    simp [reply, Line.bytes]⟩

/-- **When a reply is read as a whole.**  For every reply and every cutting of
    it: the loop ends with the last byte, the reply in `buf_` and every access
    in bounds, exactly when no chunk but the last ends with a line end. -/
theorem reply_framed_iff (lines : List Line) (last : Line) (io : SMTP_Client_IO)
    (chunks : List Bytes) (hne : ∀ chunk ∈ chunks, chunk ≠ [])
    (hchunks : chunks.flatten = reply lines last) :
    Framed io.read_reset chunks ↔
      ∀ before after, chunks = before ++ after → before ≠ [] → after ≠ [] →
        ¬ [LF] <:+ before.flatten := by
  have hstart : Partial io.read_reset [] := ⟨rfl, rfl⟩
  have hstarts : ∀ pre, pre <+: chunks → Starts ([] ++ pre.flatten) := by
    intro pre hp
    obtain ⟨t, rfl⟩ := hp
    apply reply_starts lines last
    rw [← hchunks, List.nil_append, List.flatten_append]
    exact List.prefix_append _ _
  constructor
  · intro hframed before after hcut hbefore hafter hlf
    obtain ⟨io', hruns, hok, _⟩ := hframed
    obtain ⟨c, hc, _, hnet⟩ := replies_blockwise.runs_result chunks _ [] _ hstart hne hstarts hruns
    have hc := Option.some.inj hc
    subst hc
    obtain ⟨taken, _, htaken, _, hfirst⟩ := hnet (decide_eq_true hok)
    -- all chunks were taken, so none before the last has ended the loop
    have hall : taken = before ++ after := by
      rw [← hcut, htaken, List.append_nil]
    refine hfirst before hbefore ?_ ?_ hlf
    · rw [hall]
      exact List.prefix_append _ _
    · intro heq
      rw [heq] at hall
      exact hafter (List.self_eq_append_right.mp hall)
  · intro hcond
    have hnil : chunks ≠ [] := by
      intro heq
      have hend := reply_ends lines last
      rw [← hchunks, heq] at hend
      exact absurd hend (by decide)
    obtain ⟨io', hruns, _, hok, hbuf⟩ := replies_blockwise.runs_of_end chunks.dropLast
      (chunks.getLast hnil) [] _ [] hstart
      (by rw [List.dropLast_append_getLast hnil]; exact hne)
      (by rw [List.dropLast_append_getLast hnil]; exact hstarts)
      (by
        intro pre hpre hp
        obtain ⟨t, ht⟩ := hp
        apply hcond pre (t ++ [chunks.getLast hnil]) ?_ hpre (by simp)
        rw [← List.append_assoc, ht, List.dropLast_append_getLast hnil])
      (by
        rw [List.dropLast_append_getLast hnil, hchunks]
        exact reply_ends lines last)
    have hsplit : chunks.dropLast ++ chunks.getLast hnil :: [] = chunks :=
      List.dropLast_append_getLast hnil
    rw [hsplit] at hruns
    rw [hsplit, List.nil_append] at hbuf
    exact ⟨io', hruns, hok, hbuf⟩

/-- The line "250-a" of a reply. -/
def line_250 : Line := ⟨50, 53, 48, lit "a", by decide, by decide⟩

/-- A reply of two lines, cut inside the second. -/
theorem reply_framed_cut_inside :
    Framed (read_reset ⟨[], .RD_OK⟩) [lit "250-a\r\n25", lit "0 a\r\n"] ↔
      ∀ before after, [lit "250-a\r\n25", lit "0 a\r\n"] = before ++ after → before ≠ [] →
        after ≠ [] → ¬ [LF] <:+ before.flatten :=
  reply_framed_iff [line_250] line_250 ⟨[], .RD_OK⟩ [lit "250-a\r\n25", lit "0 a\r\n"] (by decide)
    (by decide)

/-- The same reply, one line a chunk: the loop ends with the first line. -/
theorem reply_cut_behind_line :
    ¬ Framed (read_reset ⟨[], .RD_OK⟩) [lit "250-a\r\n", lit "250 a\r\n"] := by
  intro hframed
  obtain ⟨io', hruns, _, _⟩ := hframed
  obtain ⟨io₁, hends, _⟩ := replies_blockwise.runs_of_end [] (lit "250-a\r\n") [lit "250 a\r\n"]
    (read_reset ⟨[], .RD_OK⟩) [] ⟨rfl, rfl⟩ (by decide)
    (fun pre hp => reply_starts [line_250] line_250 _ (by
      obtain ⟨t, ht⟩ := hp
      have hflat : pre.flatten ++ t.flatten = lit "250-a\r\n" := by
        rw [← List.flatten_append, ht]
        rfl
      exact ⟨t.flatten ++ lit "250 a\r\n", by rw [List.nil_append, ← List.append_assoc, hflat]; rfl⟩))
    (fun pre hpre hp => absurd (List.prefix_nil.mp hp) hpre)
    (by decide)
  have hsame := Option.some.inj (Lib.Loop.Ends.unique _ hruns hends)
  exact absurd (congrArg Conn.net hsame) (by simp)

end SMTP_Client_IO

end Aos
