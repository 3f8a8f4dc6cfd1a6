/-
  Aos.Net.Smtp.EndOfData — where `SMTP_Server_IO` sees the end of the mail data.

  `read_data` keeps the last bytes it has read and compares them with CRLF '.'
  CRLF, at the end of every chunk and nowhere else; it also takes the whole
  chunk.  So a terminator is seen exactly where a chunk ends with it: not in
  front of pipelined commands, and not as the '.' CRLF of an empty mail.

  Main results:
    • `read_data_tail` — one call: the tail kept is long enough, and the
      terminator is seen exactly at its end;
    • `reads_blockwise` — the server's loop takes whole blocks, and ends by what
      it has seen;
    • `cut_of_exact`, `runs_of_cut` — where an exact detection ends the loop;
    • `end_of_data_iff` — the cuttings for which the detection is exact.
-/
import Aos.Net.Smtp.ServerIO

namespace Aos

open Lib.Feed

namespace SMTP_Server_IO

/-! ## §1. The end of the data. -/

/-- '.' CRLF, the terminator of a mail without a line. -/
def DOT_LINE : Bytes := [46, CR, LF]

/-- The first `n` bytes of the data end with a terminator. -/
def Completes (s : Bytes) (n : Nat) : Prop :=
  n ≤ s.length ∧ (END_OF_DATA <:+ s.take n ∨ s.take n = DOT_LINE)

instance (s : Bytes) (n : Nat) : Decidable (Completes s n) := by
  unfold Completes
  infer_instance

/-- The first terminator of the data ends at `n`. -/
def First_End (s : Bytes) (n : Nat) : Prop := Completes s n ∧ ∀ m < n, ¬ Completes s m

instance (s : Bytes) (n : Nat) : Decidable (First_End s n) := by
  unfold First_End
  infer_instance

/-- The detection is exact for these chunks.  Without a terminator all of them
    are read and the loop goes on; with one, the loop ends in the call for the
    chunk that holds its last byte, and what follows it stays in the block. -/
def Exact (io : SMTP_Server_IO) (chunks : List Bytes) : Prop :=
  ((∀ n, ¬ Completes chunks.flatten n) →
    ∃ io', reader.Runs ⟨io, [], chunks⟩ (some ⟨io', [], []⟩) ∧ io'.rd_state_ ≠ .RD_OK) ∧
  ∀ before chunk after n, chunks = before ++ chunk :: after → First_End chunks.flatten n →
    before.flatten.length < n → n ≤ before.flatten.length + chunk.length →
    ∃ io', reader.Runs ⟨io, [], chunks⟩
        (some ⟨io', chunk.drop (n - before.flatten.length), after⟩) ∧ io'.rd_state_ = .RD_OK

/-! ## §2. One call. -/

/-- What the object knows of the data `seen` so far, no chunk having ended it. -/
structure Tail (io : SMTP_Server_IO) (seen : Bytes) : Prop where
  state : io.state_ = .DATA
  more : io.rd_state_ = .RD_MORE
  suffix : io.buf_ <:+ seen
  long : min 5 seen.length ≤ io.buf_.length

theorem tail_reset (io : SMTP_Server_IO) (h : io.state_ = .DATA) : Tail io.read_reset [] :=
  ⟨h, rfl, List.nil_suffix, Nat.zero_le _⟩

/-- The test on the tail that is kept. -/
theorem ends_with_iff (buf seen : Bytes) (hsuf : buf <:+ seen) (hlong : min 5 seen.length ≤ buf.length) :
    (buf.length ≥ 5 ∧ strncmp (buf.drop (buf.length - 5)) END_OF_DATA 5 = 0)
      ↔ END_OF_DATA <:+ seen := by
  have hno : NUL ∉ END_OF_DATA := by decide
  have hfive : END_OF_DATA.length = 5 := rfl
  have htest := strncmp_prefix_iff END_OF_DATA hno (buf.drop (buf.length - 5))
  rw [hfive] at htest
  rw [htest]
  constructor
  · intro hboth
    obtain ⟨hlen, hpre⟩ := hboth
    -- five bytes are left, so the prefix is all of them
    have hdrop : (buf.drop (buf.length - 5)).length = 5 := by
      rw [List.length_drop]
      omega
    have heq : END_OF_DATA = buf.drop (buf.length - 5) :=
      hpre.eq_of_length (by rw [hdrop, hfive])
    rw [heq]
    exact (List.drop_suffix _ _).trans hsuf
  · intro hend
    have hle : 5 ≤ seen.length := by
      have := hend.length_le
      rwa [hfive] at this
    have hbuf : 5 ≤ buf.length := by omega
    refine ⟨hbuf, ?_⟩
    have hin : END_OF_DATA <:+ buf :=
      List.suffix_of_suffix_length_le hend hsuf (by rw [hfive]; exact hbuf)
    have heq : END_OF_DATA = buf.drop (buf.length - 5) := by
      have := List.suffix_iff_eq_drop.mp hin
      rwa [hfive] at this
    rw [← heq]

/-- **One call of `read_data`.** -/
theorem read_data_tail (io : SMTP_Server_IO) (seen chunk : Bytes) (h : Tail io seen) :
    (io.read_data chunk).2.2 = [] ∧
    (END_OF_DATA <:+ seen ++ chunk → (io.read_data chunk).1.rd_state_ = .RD_OK) ∧
    (¬ END_OF_DATA <:+ seen ++ chunk → Tail (io.read_data chunk).1 (seen ++ chunk)) := by
  have hlong := h.long
  -- the new tail
  obtain ⟨buf, hbuf⟩ : ∃ buf, buf =
      if chunk.length ≥ 5 then chunk.drop (chunk.length - 5) else io.buf_ ++ chunk := ⟨_, rfl⟩
  have htail : buf <:+ seen ++ chunk ∧ min 5 (seen ++ chunk).length ≤ buf.length := by
    rw [hbuf, List.length_append]
    split
    · refine ⟨(List.drop_suffix _ _).trans (List.suffix_append seen chunk), ?_⟩
      rw [List.length_drop]
      omega
    · refine ⟨?_, ?_⟩
      · obtain ⟨t, ht⟩ := h.suffix
        exact ⟨t, by rw [← ht, List.append_assoc]⟩
      · rw [List.length_append]
        omega
  have htest := ends_with_iff buf (seen ++ chunk) htail.1 htail.2
  unfold read_data
  rw [if_pos h.state]
  simp only [← hbuf]
  refine ⟨trivial, ?_, ?_⟩
  · intro hend
    rw [if_pos (htest.mpr hend)]
  · intro hend
    rw [if_neg (fun hb => hend (htest.mp hb))]
    exact ⟨h.state, h.more, htail.1, htail.2⟩

/-- **The server's loop reads data blockwise.** -/
theorem reads_blockwise : reader.Blockwise (fun _ => True) Tail
    (fun io _ => io.rd_state_ = .RD_OK) (fun seen => END_OF_DATA <:+ seen) where
  idle io seen h := by
    show decide (io.rd_state_ = .RD_OK) = false
    rw [h.more]
    rfl
  read io seen chunk h _ _ := by
    obtain ⟨hmb, hend, hmore⟩ := read_data_tail io seen chunk h
    refine ⟨(io.read_data chunk).1, ?_, fun hsuf => ⟨decide_eq_true (hend hsuf), hend hsuf⟩, hmore⟩
    show (if io.state_ ≠ .DATA then _ else _) = _
    rw [if_neg (by simp [h.state])]
    show some ((io.read_data chunk).1, (io.read_data chunk).2.2) = _
    rw [hmb]

/-! ## §3. When the detection is exact. -/

theorem completes_of_suffix (chunks pre : List Bytes) (hp : pre <+: chunks)
    (h : END_OF_DATA <:+ pre.flatten) : Completes chunks.flatten pre.flatten.length := by
  obtain ⟨rest, rfl⟩ := hp
  rw [List.flatten_append]
  refine ⟨by rw [List.length_append]; omega, ?_⟩
  rw [List.take_left]
  exact Or.inl h

/-- The chunk that holds a position. -/
theorem exists_chunk (chunks : List Bytes) (n : Nat) (h0 : 0 < n) (hn : n ≤ chunks.flatten.length) :
    ∃ before chunk after, chunks = before ++ chunk :: after ∧ before.flatten.length < n
      ∧ n ≤ before.flatten.length + chunk.length := by
  induction chunks using List.reverseRecOn with
  | nil =>
      rw [List.flatten_nil, List.length_nil] at hn
      omega
  | append_singleton chunks chunk ih =>
      by_cases hle : n ≤ chunks.flatten.length
      · obtain ⟨before, c, after, heq, hlt, hle'⟩ := ih hle
        exact ⟨before, c, after ++ [chunk], by rw [heq]; simp, hlt, hle'⟩
      · rw [List.flatten_append, List.flatten_singleton, List.length_append] at hn
        exact ⟨chunks, chunk, [], rfl, by omega, hn⟩

/-- Chunk lists with the same bytes in front of a cut are cut at the same place. -/
theorem cut_at (before after : List Bytes) (chunk : Bytes) (A B : List Bytes)
    (heq : before ++ chunk :: after = A ++ B) (hlt : before.flatten.length < A.flatten.length) :
    before.flatten.length + chunk.length ≤ A.flatten.length := by
  rcases List.append_eq_append_iff.mp heq with ⟨C, hA, hC⟩ | ⟨C, hbefore, _⟩
  · cases C with
    | nil =>
        rw [hA, List.append_nil] at hlt
        exact absurd hlt (lt_irrefl _)
    | cons c C =>
        obtain ⟨rfl, _⟩ := List.cons.inj hC
        rw [hA]
        simp only [List.flatten_append, List.flatten_cons, List.length_append]
        omega
  · rw [hbefore] at hlt
    simp only [List.flatten_append, List.length_append] at hlt
    omega

theorem First_End.pos {s : Bytes} {n : Nat} (h : First_End s n) : 0 < n := by
  by_contra h0
  have hn : n = 0 := by omega
  subst hn
  have hnil : ¬ (END_OF_DATA <:+ [] ∨ [] = DOT_LINE) := by decide
  have hcomp := h.1.2
  rw [List.take_zero] at hcomp
  exact hnil hcomp

/-- A stream that begins with '.' CRLF has no longer first terminator. -/
theorem First_End.le_of_dot_line {s : Bytes} {n : Nat} (h : First_End s n) (hdot : DOT_LINE <+: s) :
    n ≤ 3 := by
  have hthree : Completes s 3 := by
    obtain ⟨rest, rfl⟩ := hdot
    have hlen : DOT_LINE.length = 3 := rfl
    refine ⟨by rw [List.length_append]; omega, Or.inr ?_⟩
    exact List.take_left' hlen
  by_contra h3
  exact h.2 3 (by omega) hthree

/-- An exact detection ends the loop behind the chunk that holds the end. -/
theorem cut_of_exact {io : SMTP_Server_IO} (hstate : io.state_ = .DATA) {chunks : List Bytes}
    (hne : ∀ chunk ∈ chunks, chunk ≠ []) (hexact : Exact io.read_reset chunks) {n : Nat}
    (hfirst : First_End chunks.flatten n) :
    ∃ before after, chunks = before ++ after ∧ before.flatten.length = n ∧
      END_OF_DATA <:+ before.flatten := by
  obtain ⟨before, chunk, after, heq, hlt, hle⟩ := exists_chunk chunks n hfirst.pos hfirst.1.1
  obtain ⟨io', hruns, hok⟩ := hexact.2 before chunk after n heq hfirst hlt hle
  obtain ⟨c, hc, hmb, hnet⟩ := reads_blockwise.runs_result chunks _ [] _ (tail_reset io hstate) hne
    (fun _ _ => trivial) hruns
  have hc := Option.some.inj hc
  subst hc
  obtain ⟨taken, _, htaken, hsuf, _⟩ := hnet (decide_eq_true hok)
  have hsame : taken = before ++ [chunk] := by
    have h2 : taken ++ after = (before ++ [chunk]) ++ after := by
      rw [← htaken, heq, List.append_assoc, List.singleton_append]
    exact List.append_cancel_right h2
  refine ⟨before ++ [chunk], after, by rw [heq]; simp, ?_, ?_⟩
  · have hdrop := List.drop_eq_nil_iff.mp hmb
    simp only [List.flatten_append, List.flatten_singleton, List.length_append]
    omega
  · rw [hsame, List.nil_append] at hsuf
    exact hsuf

/-- Without a terminator all chunks are read, and the loop goes on. -/
theorem runs_of_no_end {io : SMTP_Server_IO} (hstate : io.state_ = .DATA) {chunks : List Bytes}
    (hne : ∀ chunk ∈ chunks, chunk ≠ []) (hnone : ∀ n, ¬ Completes chunks.flatten n) :
    ∃ io', reader.Runs ⟨io.read_reset, [], chunks⟩ (some ⟨io', [], []⟩) ∧ io'.rd_state_ ≠ .RD_OK := by
  obtain ⟨io', hruns, hmore⟩ := reads_blockwise.runs_of_none chunks _ [] (tail_reset io hstate) hne
    (fun _ _ => trivial)
    (fun pre _ hp hsuf => hnone _ (completes_of_suffix chunks pre hp (by simpa using hsuf)))
  exact ⟨io', hruns, by rw [hmore.more]; decide⟩

/-- A first terminator that ends where a chunk ends is seen there. -/
theorem runs_of_cut {io : SMTP_Server_IO} (hstate : io.state_ = .DATA) {before after : List Bytes}
    {chunk : Bytes} (hne : ∀ c ∈ before ++ chunk :: after, c ≠ [])
    (hfirst : First_End (before ++ chunk :: after).flatten (before.flatten.length + chunk.length))
    (hend : END_OF_DATA <:+ (before ++ [chunk]).flatten) :
    ∃ io', reader.Runs ⟨io.read_reset, [], before ++ chunk :: after⟩ (some ⟨io', [], after⟩) ∧
      io'.rd_state_ = .RD_OK := by
  have htaken : ∀ c ∈ before ++ [chunk], c ≠ [] := by
    intro c hc
    apply hne c
    have hsub : before ++ [chunk] <+: before ++ chunk :: after := ⟨after, by simp⟩
    exact hsub.subset hc
  have hpos : 0 < chunk.length := List.length_pos_iff.mpr (htaken chunk (by simp))
  have hearlier : ∀ pre, pre ≠ [] → pre <+: before → ¬ END_OF_DATA <:+ [] ++ pre.flatten := by
    intro pre _ hp hsuf
    -- an earlier end would be an earlier terminator
    have hlen : pre.flatten.length ≤ before.flatten.length := by
      obtain ⟨rest, rfl⟩ := hp
      rw [List.flatten_append, List.length_append]
      omega
    have hpre : pre <+: before ++ chunk :: after := hp.trans (List.prefix_append _ _)
    rw [List.nil_append] at hsuf
    exact hfirst.2 _ (by omega) (completes_of_suffix _ pre hpre hsuf)
  obtain ⟨io', hruns, _, hok⟩ := reads_blockwise.runs_of_end before chunk after _ []
    (tail_reset io hstate) htaken (fun _ _ => trivial) hearlier
    (by rw [List.nil_append]; exact hend)
  exact ⟨io', hruns, hok⟩

/-- **When the end of the data is detected exactly.**  For every cutting of
    every stream that follows an accepted DATA: the loop reports the end in
    the call that holds the end of the first terminator, leaving what follows
    in the block, exactly when the stream does not begin with '.' CRLF and the
    first terminator, if there is one, ends where a chunk ends. -/
theorem end_of_data_iff (io : SMTP_Server_IO) (hstate : io.state_ = .DATA) (chunks : List Bytes)
    (hne : ∀ chunk ∈ chunks, chunk ≠ []) :
    Exact io.read_reset chunks ↔
      ∀ n, First_End chunks.flatten n → ¬ DOT_LINE <+: chunks.flatten ∧
        ∃ before after, chunks = before ++ after ∧ before.flatten.length = n := by
  constructor
  · intro hexact n hfirst
    obtain ⟨before, after, heq, hlen, hsuf⟩ := cut_of_exact hstate hne hexact hfirst
    refine ⟨?_, before, after, heq, hlen⟩
    intro hdot
    -- a terminator of three bytes is shorter than what the loop has seen
    have hthree := hfirst.le_of_dot_line hdot
    have hfive := hsuf.length_le
    have hend : END_OF_DATA.length = 5 := rfl
    omega
  · intro hcond
    refine ⟨runs_of_no_end hstate hne, ?_⟩
    intro before chunk after n heq hfirst hlt hle
    obtain ⟨hdot, A, B, hAB, hA⟩ := hcond n hfirst
    have hcut := cut_at before after chunk A B (heq.symm.trans hAB) (by omega)
    obtain rfl : n = before.flatten.length + chunk.length := by omega
    subst heq
    have hend : END_OF_DATA <:+ (before ++ [chunk]).flatten := by
      have hflat : (before ++ chunk :: after).flatten
          = (before ++ [chunk]).flatten ++ after.flatten := by simp
      have htake : (before ++ chunk :: after).flatten.take (before.flatten.length + chunk.length)
          = (before ++ [chunk]).flatten := by
        rw [hflat, List.take_left' (by simp)]
      rcases hfirst.1.2 with hsuf | hline
      · rwa [htake] at hsuf
      · exact absurd (hline ▸ List.take_prefix _ _) hdot
    obtain ⟨io', hruns, hok⟩ := runs_of_cut hstate hne hfirst hend
    have hdrop : chunk.drop (before.flatten.length + chunk.length - before.flatten.length) = [] := by
      apply List.drop_of_length_le
      omega
    refine ⟨io', ?_, hok⟩
    rw [hdrop]
    exact hruns

/-- A server that has just accepted DATA. -/
def after_data : SMTP_Server_IO := ⟨.DATA, lit "DATA\r\n", .RD_OK, 0, .WR_OK, .new, .new⟩

/-- A terminator that comes in two chunks. -/
theorem end_of_data_two_chunks :
    Exact after_data.read_reset [lit "hi\r\n.", lit "\r\n"] ↔
      ∀ n, First_End [lit "hi\r\n.", lit "\r\n"].flatten n →
        ¬ DOT_LINE <+: [lit "hi\r\n.", lit "\r\n"].flatten ∧
        ∃ before after, [lit "hi\r\n.", lit "\r\n"] = before ++ after ∧ before.flatten.length = n :=
  end_of_data_iff after_data rfl [lit "hi\r\n.", lit "\r\n"] (by decide)

/-- A command behind the terminator, in the same chunk: the end is not seen. -/
theorem pipelined_quit : ¬ Exact after_data.read_reset [lit "hi\r\n.\r\nQUIT\r\n"] := by
  intro hexact
  have hfirst : First_End [lit "hi\r\n.\r\nQUIT\r\n"].flatten 7 := by decide
  obtain ⟨io', hruns, hok⟩ := hexact.2 [] (lit "hi\r\n.\r\nQUIT\r\n") [] 7 rfl hfirst (by decide)
    (by decide)
  obtain ⟨c, hc, hmb, _⟩ := reads_blockwise.runs_result _ _ [] _ (tail_reset after_data rfl)
    (by decide) (fun _ _ => trivial) hruns
  have hc := Option.some.inj hc
  subst hc
  have hleft : (lit "hi\r\n.\r\nQUIT\r\n").drop 7 = [] := hmb
  exact absurd hleft (by decide)

end SMTP_Server_IO

end Aos
