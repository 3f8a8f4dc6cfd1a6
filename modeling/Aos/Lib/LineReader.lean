/-
  Aos.Lib.LineReader — readers that collect one line at a time.

  A call takes the block up to the end of a line.  It completes the line, or it
  takes the whole block and keeps what it has of the line for the next call.
  The two laws of a call are fields of the reader.

  Main results:
    • `reads_cut` — a chunk, taken by repeated calls, completes the lines `cut`
      finds in it;
    • `reads_stream` — so does a stream, whatever the chunks;
    • `polls_iff_line` — a loop that waits for one line, and polls a closed
      connection for more, ends exactly when a line comes.
-/
import Aos.Lib.Feed
import Aos.Lib.Lines

namespace Lib

open Lib.Loop Lib.Lines

structure LineReader (σ α : Type) (d : α) where
  /-- one call: the new state, and what the block still holds -/
  read : σ → List α → σ × List α
  /-- the call before has completed a line -/
  ok : σ → Bool
  /-- the line, when it is complete -/
  line : σ → List α
  /-- what has come of the line that is not complete -/
  pending : σ → List α
  part : ∀ io mb, mb ≠ [] → d ∉ mb →
    ok (read io mb).1 = false ∧ pending (read io mb).1 = pending io ++ mb ∧ (read io mb).2 = []
  whole : ∀ io t rest, d ∉ t →
    ok (read io (t ++ d :: rest)).1 = true ∧
    line (read io (t ++ d :: rest)).1 = pending io ++ t ++ [d] ∧
    pending (read io (t ++ d :: rest)).1 = [] ∧ (read io (t ++ d :: rest)).2 = rest

namespace LineReader

variable {σ α : Type} {d : α} (R : LineReader σ α d)

/-! ## §1. Waiting for one line. -/

/-- The loop of a client that waits for a line. -/
def reader : Feed.Reader σ α where
  read io mb := some (R.read io mb)
  done := R.ok

theorem not_polls_dry {io : σ} (hok : R.ok io = false) :
    ¬ ∃ c, Ends R.reader.poll ⟨io, [], []⟩ (some c) := by
  intro hends
  obtain ⟨c, hc⟩ := hends
  obtain ⟨hruns, hdone⟩ := (R.reader.poll_ends _ _).mp hc
  obtain rfl := Option.some.inj ((R.reader.ends_dry io _).mp hruns)
  have hidle : R.reader.done io = false := hok
  rw [hidle] at hdone
  exact absurd hdone (by simp)

/-- A block with the end of a line in it ends the loop. -/
theorem polls_of_mem {io : σ} {mb : List α} (net : List (List α)) (hok : R.ok io = false)
    (hd : d ∈ mb) : ∃ c, Ends R.reader.poll ⟨io, mb, net⟩ (some c) := by
  obtain ⟨t, rest, rfl, ht⟩ := List.eq_append_cons_of_mem hd
  have hdone : R.reader.done (R.read io (t ++ d :: rest)).1 = true := (R.whole io t rest ht).1
  refine ⟨⟨(R.read io (t ++ d :: rest)).1, (R.read io (t ++ d :: rest)).2, net⟩, ?_⟩
  rw [R.reader.poll_ends, R.reader.ends_read net hok (by simp) rfl]
  exact ⟨(R.reader.ends_done hdone _).mpr rfl, hdone⟩

/-- One without is kept, and more is waited for. -/
theorem polls_of_not_mem {io : σ} {mb : List α} (net : List (List α)) (hok : R.ok io = false)
    (hmb : mb ≠ []) (hd : d ∉ mb) :
    ∃ io', R.ok io' = false ∧ ∀ c, Ends R.reader.poll ⟨io, mb, net⟩ (some c)
      ↔ Ends R.reader.poll ⟨io', [], net⟩ (some c) := by
  obtain ⟨hok', _, hrest⟩ := R.part io mb hmb hd
  refine ⟨(R.read io mb).1, hok', fun c => ?_⟩
  rw [R.reader.poll_ends, R.reader.poll_ends, R.reader.ends_read net hok hmb rfl, hrest]

theorem polls_iff_empty (net : List (List α)) : ∀ io : σ, R.ok io = false →
    (∀ chunk ∈ net, chunk ≠ []) →
    ((∃ c, Ends R.reader.poll ⟨io, [], net⟩ (some c)) ↔ d ∈ net.flatten) := by
  induction net with
  | nil =>
      intro io hok _
      exact iff_of_false (R.not_polls_dry hok) (by simp)
  | cons chunk net ih =>
      intro io hok hne
      have hchunk := hne chunk List.mem_cons_self
      have hfill : ∀ c, Ends R.reader.poll ⟨io, [], chunk :: net⟩ (some c)
          ↔ Ends R.reader.poll ⟨io, chunk, net⟩ (some c) := by
        intro c
        rw [R.reader.poll_ends, R.reader.poll_ends, R.reader.ends_refill net hok hchunk]
      rw [exists_congr hfill, List.flatten_cons, List.mem_append]
      by_cases hd : d ∈ chunk
      · exact iff_of_true (R.polls_of_mem net hok hd) (Or.inl hd)
      · obtain ⟨io', hok', hruns⟩ := R.polls_of_not_mem net hok hchunk hd
        rw [exists_congr hruns, ih io' hok' (fun c hc => hne c (List.mem_cons_of_mem _ hc))]
        exact (or_iff_right hd).symm

/-- **A loop that waits for a line, and polls, ends exactly when one comes.** -/
theorem polls_iff_line {io : σ} {mb : List α} {net : List (List α)} {stream : List α}
    (hok : R.ok io = false) (h : Feed.Reader.Delivers id mb net stream) :
    (∃ c, Ends R.reader.poll ⟨io, mb, net⟩ (some c)) ↔ d ∈ stream := by
  obtain ⟨hstream, hnet⟩ := h
  rw [List.map_id, id_eq] at hstream
  subst hstream
  by_cases hmb : mb = []
  · subst hmb
    exact R.polls_iff_empty net io hok hnet
  · rw [List.mem_append]
    by_cases hd : d ∈ mb
    · exact iff_of_true (R.polls_of_mem net hok hd) (Or.inl hd)
    · obtain ⟨io', hok', hruns⟩ := R.polls_of_not_mem net hok hmb hd
      rw [exists_congr hruns, R.polls_iff_empty net io' hok' hnet]
      exact (or_iff_right hd).symm

/-! ## §2. A stream of lines. -/

/-- A server that reads for ever: the reader, the block, the chunks that are
    still to come, and the lines it has been given. -/
structure Serve (σ α : Type) where
  io : σ
  mb : List α
  net : List (List α)
  out : List (List α)

/-- One pass: a call on what is in the block, or a new chunk. -/
def pass (s : Serve σ α) : Serve σ α ⊕ Serve σ α :=
  if s.mb.isEmpty then
    match s.net with
    | [] => .inr s -- nothing more comes
    | chunk :: net => .inl { s with mb := chunk, net := net }
  else
    let r := R.read s.io s.mb
    .inl { s with io := r.1, mb := r.2, out := if R.ok r.1 then s.out ++ [R.line r.1] else s.out }

/-- A call on a block. -/
theorem ends_call {io : σ} {mb : List α} (net : List (List α)) (out : List (List α)) (hmb : mb ≠ [])
    (r : Serve σ α) :
    Ends R.pass ⟨io, mb, net, out⟩ r ↔ Ends R.pass
      ⟨(R.read io mb).1, (R.read io mb).2, net,
        if R.ok (R.read io mb).1 then out ++ [R.line (R.read io mb).1] else out⟩ r := by
  apply ends_next
  unfold pass
  rw [if_neg (by simpa using hmb)]

variable [DecidableEq α]

/-- **A chunk, taken by repeated calls.**  The lines it completes are given in
    turn, and the rest of it is kept. -/
theorem reads_cut (net : List (List α)) (mb : List α) : ∀ (io : σ) (out : List (List α)),
    ∃ io', R.pending io' = (cut d (R.pending io) mb).2 ∧ ∀ r,
      Ends R.pass ⟨io, mb, net, out⟩ r
        ↔ Ends R.pass ⟨io', [], net, out ++ (cut d (R.pending io) mb).1⟩ r := by
  induction hn : mb.length using Nat.strong_induction_on generalizing mb with
  | _ n ih =>
      intro io out
      by_cases hmb : mb = []
      · subst hmb
        refine ⟨io, rfl, fun r => ?_⟩
        rw [cut_nil, List.append_nil]
      · by_cases hd : d ∈ mb
        · -- the block begins with the rest of a line
          obtain ⟨t, rest, rfl, ht⟩ := List.eq_append_cons_of_mem hd
          obtain ⟨hok, hline, hpending, hrest⟩ := R.whole io t rest ht
          have hshort : rest.length < n := by
            rw [List.length_append, List.length_cons] at hn
            omega
          obtain ⟨io', hio', hruns⟩ := ih rest.length hshort rest rfl
            (R.read io (t ++ d :: rest)).1 (out ++ [R.line (R.read io (t ++ d :: rest)).1])
          rw [hpending] at hio' hruns
          rw [cut_line d t _ _ ht]
          refine ⟨io', hio', fun r => ?_⟩
          rw [R.ends_call net out hmb r, hok, if_pos rfl, hrest, hruns r, hline, List.append_assoc,
            List.singleton_append]
        · -- it holds no end of a line, and is kept
          obtain ⟨hok, hpending, hrest⟩ := R.part io mb hmb hd
          have hcut := cut_text d mb (R.pending io) [] hd
          rw [List.append_nil, cut_nil] at hcut
          rw [hcut]
          refine ⟨(R.read io mb).1, hpending, fun r => ?_⟩
          rw [R.ends_call net out hmb r, hok, hrest, List.append_nil]
          rfl

/-- **A stream, whatever the chunks.**  The lines given are the lines of the
    stream, and what stands behind the last of them is kept. -/
theorem reads_stream (chunks : List (List α)) : ∀ (io : σ) (out : List (List α)),
    ∃ io', R.pending io' = (cut d (R.pending io) chunks.flatten).2 ∧ ∀ r,
      Ends R.pass ⟨io, [], chunks, out⟩ r
        ↔ r = ⟨io', [], [], out ++ (cut d (R.pending io) chunks.flatten).1⟩ := by
  induction chunks with
  | nil =>
      intro io out
      refine ⟨io, rfl, fun r => ?_⟩
      rw [List.flatten_nil, cut_nil, List.append_nil]
      exact ends_exit _ rfl
  | cons chunk chunks ih =>
      intro io out
      obtain ⟨io₁, hio₁, hchunk⟩ := R.reads_cut chunks chunk io out
      obtain ⟨io', hio', hrest⟩ := ih io₁ (out ++ (cut d (R.pending io) chunk).1)
      rw [hio₁] at hio' hrest
      rw [List.flatten_cons, cut_append]
      refine ⟨io', hio', fun r => ?_⟩
      have hfill : R.pass ⟨io, [], chunk :: chunks, out⟩ = .inl ⟨io, chunk, chunks, out⟩ := rfl
      rw [ends_next _ hfill, hchunk r, hrest r, List.append_assoc]

end LineReader

end Lib
