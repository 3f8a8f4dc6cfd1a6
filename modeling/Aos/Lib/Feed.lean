/-
  Aos.Lib.Feed — a reader fed by a connection in chunks.

  The loop every client and server of a line protocol is built around: while
  the reader is not done, fetch the next chunk when the block is empty, and
  call the reader on the block when it is not.  The reader takes what it wants
  from the front of the block and leaves the rest in it.

  A call of the reader can be undefined; the loop then has the result `none`.

  Main results:
    • `ends_refill`, `ends_read` — one pass of the loop;
    • `ends_of_progress` — the loop ends when every call takes something;
    • `net_suffix` — it takes chunks from the front;
    • `takes_of_call`, `Takes.trans` — readers that take a piece of the stream
      wherever it is cut;
    • `Blockwise.runs_of_none`, `Blockwise.runs_of_end`, `Blockwise.runs_result` —
      the runs of a reader that takes whole blocks and is done by what it has
      seen in all;
    • `poll_ends` — a loop that goes on polling when nothing more comes;
    • `Decided.polls_iff` — a loop that polls, on a stream that finishes the reader
      or starves it.
-/
import Aos.Lib.Loop

namespace Lib.Feed

open Lib.Loop

variable {σ α : Type}

structure Reader (σ α : Type) where
  /-- one call: the new state, and what the block still holds -/
  read : σ → List α → Option (σ × List α)
  /-- the loop's test -/
  done : σ → Bool

/-- The reader, the block, and the chunks that are still to come. -/
structure Conn (σ α : Type) where
  io : σ
  mb : List α
  net : List (List α)

namespace Reader

variable (R : Reader σ α)

/-- `if( mb.length() > 0 ) read(mb)`. -/
def call (c : Conn σ α) : Conn σ α ⊕ Option (Conn σ α) :=
  if c.mb.isEmpty then .inl c
  else
    match R.read c.io c.mb with
    | some r => .inl ⟨r.1, r.2, c.net⟩
    | none => .inr none

/-- One pass of the loop. -/
def pass (c : Conn σ α) : Conn σ α ⊕ Option (Conn σ α) :=
  if R.done c.io then .inr (some c)
  else if c.mb.isEmpty then
    match c.net with
    | [] => .inr (some c) -- nothing more comes
    | chunk :: net => R.call ⟨c.io, chunk, net⟩
  else R.call c

/-- The loop entered with `c` is left with `r`. -/
abbrev Runs (c : Conn σ α) (r : Option (Conn σ α)) : Prop := Ends R.pass c r

/-! ## §1. One pass. -/

theorem ends_done {c : Conn σ α} (h : R.done c.io = true) (r : Option (Conn σ α)) :
    R.Runs c r ↔ r = some c := by
  apply ends_exit
  unfold pass
  rw [if_pos h]

theorem ends_dry (io : σ) (r : Option (Conn σ α)) : R.Runs ⟨io, [], []⟩ r ↔ r = some ⟨io, [], []⟩ := by
  apply ends_exit
  unfold pass
  by_cases h : R.done io = true
  · rw [if_pos h]
  · rw [if_neg h]
    rfl

theorem call_some {io io' : σ} {mb mb' : List α} (net : List (List α)) (hmb : mb ≠ [])
    (h : R.read io mb = some (io', mb')) : R.call ⟨io, mb, net⟩ = .inl ⟨io', mb', net⟩ := by
  unfold call
  rw [if_neg (by simpa using hmb)]
  show (match R.read io mb with | some r => _ | none => _) = _
  rw [h]

theorem call_none {io : σ} {mb : List α} (net : List (List α)) (hmb : mb ≠ [])
    (h : R.read io mb = none) : R.call ⟨io, mb, net⟩ = .inr none := by
  unfold call
  rw [if_neg (by simpa using hmb)]
  show (match R.read io mb with | some r => _ | none => _) = _
  rw [h]

theorem pass_call {io : σ} {mb : List α} (net : List (List α)) (hdone : R.done io = false)
    (hmb : mb ≠ []) : R.pass ⟨io, mb, net⟩ = R.call ⟨io, mb, net⟩ := by
  unfold pass
  rw [if_neg (by simp [hdone]), if_neg (by simpa using hmb)]

/-- **A call of the reader on what is in the block.** -/
theorem ends_read {io io' : σ} {mb mb' : List α} (net : List (List α)) (hdone : R.done io = false)
    (hmb : mb ≠ []) (h : R.read io mb = some (io', mb')) (r : Option (Conn σ α)) :
    R.Runs ⟨io, mb, net⟩ r ↔ R.Runs ⟨io', mb', net⟩ r := by
  apply ends_next
  rw [R.pass_call net hdone hmb, R.call_some net hmb h]

/-- A call that is undefined. -/
theorem ends_undefined {io : σ} {mb : List α} (net : List (List α)) (hdone : R.done io = false)
    (hmb : mb ≠ []) (h : R.read io mb = none) (r : Option (Conn σ α)) :
    R.Runs ⟨io, mb, net⟩ r ↔ r = none := by
  apply ends_exit
  rw [R.pass_call net hdone hmb, R.call_none net hmb h]

/-- **An empty block is refilled.** -/
theorem ends_refill {io : σ} {chunk : List α} (net : List (List α)) (hdone : R.done io = false)
    (hchunk : chunk ≠ []) (r : Option (Conn σ α)) :
    R.Runs ⟨io, [], chunk :: net⟩ r ↔ R.Runs ⟨io, chunk, net⟩ r := by
  -- both passes make the same call
  have hempty : R.pass ⟨io, [], chunk :: net⟩ = R.call ⟨io, chunk, net⟩ := by
    unfold pass
    rw [if_neg (by simp [hdone])]
    rfl
  have hfull := R.pass_call net hdone hchunk
  cases hread : R.read io chunk with
  | none =>
      have hcall := R.call_none net hchunk hread
      rw [Runs, Runs, ends_exit _ (hempty.trans hcall), ends_exit _ (hfull.trans hcall)]
  | some p =>
      have hcall := R.call_some net hchunk hread
      rw [Runs, Runs, ends_next _ (hempty.trans hcall), ends_next _ (hfull.trans hcall)]

/-! ## §2. Whole runs. -/

/-- What a connection still has to go through. -/
def measure (c : Conn σ α) : Nat :=
  c.mb.length + (c.net.map (·.length + 1)).sum + if R.done c.io then 0 else 1

/-- The call of one pass, on a block that is not empty. -/
theorem call_cases {c c' : Conn σ α} (hmb : c.mb ≠ []) (h : R.call c = .inl c') :
    ∃ r, R.read c.io c.mb = some r ∧ c' = ⟨r.1, r.2, c.net⟩ := by
  cases hread : R.read c.io c.mb with
  | none => exact absurd ((R.call_none c.net hmb hread).symm.trans h) (by simp)
  | some r =>
      exact ⟨r, rfl, (Sum.inl.inj ((R.call_some c.net hmb hread).symm.trans h)).symm⟩

/-- **The loop ends when every call takes something from the block**, or is the
    last. -/
theorem ends_of_progress
    (hread : ∀ io mb io' mb', mb ≠ [] → R.done io = false → R.read io mb = some (io', mb') →
      mb'.length < mb.length ∨ mb'.length ≤ mb.length ∧ R.done io' = true) :
    ∀ c : Conn σ α, ∃ r, R.Runs c r := by
  -- a call lowers the measure
  have hcall : ∀ io mb net c', mb ≠ [] → R.done io = false → R.call ⟨io, mb, net⟩ = .inl c' →
      R.measure c' < R.measure ⟨io, mb, net⟩ := by
    intro io mb net c' hmb hdone h
    obtain ⟨r, hr, rfl⟩ := R.call_cases (c := ⟨io, mb, net⟩) hmb h
    unfold measure
    rw [hdone]
    show r.2.length + (net.map (·.length + 1)).sum + (if R.done r.1 then 0 else 1)
      < mb.length + (net.map (·.length + 1)).sum + 1
    rcases hread io mb r.1 r.2 hmb hdone hr with hlt | ⟨hle, hend⟩
    · split
      · omega
      · omega
    · rw [hend, if_pos rfl]
      omega
  apply ends_of_measure R.pass R.measure
  intro c c' h
  unfold pass at h
  split at h
  · exact absurd h (by simp)
  · rename_i hnot
    have hdone : R.done c.io = false := by simpa using hnot
    split at h
    · rename_i hempty
      rw [List.isEmpty_iff] at hempty
      cases hnet : c.net with
      | nil =>
          rw [hnet] at h
          exact absurd h (by simp)
      | cons chunk net =>
          rw [hnet] at h
          -- the chunk comes into the block, which saves one
          have hfill : R.measure ⟨c.io, chunk, net⟩ < R.measure c := by
            unfold measure
            rw [hempty, hnet, List.map_cons, List.sum_cons, List.length_nil]
            show chunk.length + (net.map (·.length + 1)).sum + (if R.done c.io then 0 else 1) < _
            omega
          by_cases hchunk : chunk = []
          · subst hchunk
            obtain rfl : ⟨c.io, [], net⟩ = c' := Sum.inl.inj h
            exact hfill
          · exact lt_trans (hcall c.io chunk net c' hchunk hdone h) hfill
    · rename_i hempty
      exact hcall c.io c.mb c.net c' (by simpa using hempty) hdone h

/-- A call is never the exit of a loop that has a result. -/
theorem call_exit {c : Conn σ α} {r : Option (Conn σ α)} (h : R.call c = .inr r) : r = none := by
  unfold call at h
  split at h
  · exact absurd h (by simp)
  · split at h
    · exact absurd h (by simp)
    · exact (Sum.inr.inj h).symm

/-- The loop is left with what it stands at. -/
theorem exit_same {c c' : Conn σ α} (h : R.pass c = .inr (some c')) : c' = c := by
  unfold pass at h
  split at h
  · exact (Option.some.inj (Sum.inr.inj h)).symm
  · split at h
    · split at h
      · exact (Option.some.inj (Sum.inr.inj h)).symm
      · exact absurd (R.call_exit h) (by simp)
    · exact absurd (R.call_exit h) (by simp)

/-- **The loop takes chunks from the front**: what has not come at the end has not
    come from the start. -/
theorem net_suffix {c c' : Conn σ α} (h : R.Runs c (some c')) : c'.net <:+ c.net := by
  obtain ⟨fuel, hfuel⟩ := h
  refine loop_invariant R.pass (fun d => d.net <:+ c.net)
    (fun r => ∀ d, r = some d → d.net <:+ c.net) ?_ ?_ fuel c _ List.suffix_rfl hfuel c' rfl
  · intro d d' hd hpass
    unfold pass at hpass
    split at hpass
    · exact absurd hpass (by simp)
    · split at hpass
      · cases hnet : d.net with
        | nil =>
            rw [hnet] at hpass
            exact absurd hpass (by simp)
        | cons chunk net =>
            rw [hnet] at hpass hd
            have hrest : net <:+ c.net := (List.suffix_cons chunk net).trans hd
            by_cases hchunk : chunk = []
            · subst hchunk
              obtain rfl : ⟨d.io, [], net⟩ = d' := Sum.inl.inj hpass
              exact hrest
            · obtain ⟨r, _, rfl⟩ := R.call_cases (c := ⟨d.io, chunk, net⟩) hchunk hpass
              exact hrest
      · rename_i hmb
        obtain ⟨r, _, rfl⟩ := R.call_cases (by simpa using hmb) hpass
        exact hd
  · intro d r hd hpass e he
    subst he
    rw [R.exit_same hpass]
    exact hd

/-! ## §3. Pieces of the stream. -/

section Pieces

/- A reader sees a block as a list of pieces: of its elements (`id`), or of what
   its calls take from it. -/
variable {τ : Type} (seg : List α → List τ)

/-- What is in the block and what is still to come make up the stream. -/
def Delivers (mb : List α) (net : List (List α)) (stream : List τ) : Prop :=
  seg mb ++ (net.map seg).flatten = stream ∧ ∀ chunk ∈ net, chunk ≠ []

/-- Something of the stream comes into the block. -/
theorem ends_block (hseg : seg [] = []) {io : σ} {mb : List α} {net : List (List α)}
    {stream : List τ} (hdone : R.done io = false) (h : Delivers seg mb net stream)
    (hne : stream ≠ []) :
    ∃ mb' net', mb' ≠ [] ∧ Delivers seg mb' net' stream ∧
      ∀ r, R.Runs ⟨io, mb, net⟩ r ↔ R.Runs ⟨io, mb', net'⟩ r := by
  obtain ⟨hstream, hnet⟩ := h
  cases mb with
  | cons a mb => exact ⟨a :: mb, net, by simp, ⟨hstream, hnet⟩, fun _ => Iff.rfl⟩
  | nil =>
      rw [hseg, List.nil_append] at hstream
      cases net with
      | nil => exact absurd hstream.symm hne
      | cons chunk net =>
          have hchunk := hnet chunk List.mem_cons_self
          exact ⟨chunk, net, hchunk, ⟨hstream, fun c hc => hnet c (List.mem_cons_of_mem _ hc)⟩,
            R.ends_refill net hdone hchunk⟩

/-- Wherever the stream is cut, `s` at its front takes the reader from `io` to
    `io'`. -/
def Takes (io : σ) (s : List τ) (io' : σ) : Prop :=
  ∀ mb net rest, Delivers seg mb net (s ++ rest) →
    ∃ mb' net', Delivers seg mb' net' rest ∧
      ∀ r, R.Runs ⟨io, mb, net⟩ r ↔ R.Runs ⟨io', mb', net'⟩ r

/-- Wherever it is cut, a call on the way through `s` is undefined. -/
def Fails (io : σ) (s : List τ) : Prop :=
  ∀ mb net rest, Delivers seg mb net (s ++ rest) → ∀ r, R.Runs ⟨io, mb, net⟩ r ↔ r = none

/-- Wherever it is cut, the whole of `s` leaves the reader with `io'`, and nothing
    in the block. -/
def Drains (io : σ) (s : List τ) (io' : σ) : Prop :=
  ∀ mb net, Delivers seg mb net s → ∀ r, R.Runs ⟨io, mb, net⟩ r ↔ r = some ⟨io', [], []⟩

theorem takes_nil (io : σ) : R.Takes seg io [] io :=
  fun mb net _ h => ⟨mb, net, h, fun _ => Iff.rfl⟩

variable {R} {seg}

/-- **One piece behind the other.** -/
theorem Takes.trans {io io' io'' : σ} {s t : List τ} (h : R.Takes seg io s io')
    (h' : R.Takes seg io' t io'') : R.Takes seg io (s ++ t) io'' := by
  intro mb net rest hd
  rw [List.append_assoc] at hd
  obtain ⟨mb', net', hd', hruns⟩ := h mb net (t ++ rest) hd
  obtain ⟨mb'', net'', hd'', hruns'⟩ := h' mb' net' rest hd'
  exact ⟨mb'', net'', hd'', fun r => (hruns r).trans (hruns' r)⟩

theorem Takes.fails {io io' : σ} {s t : List τ} (h : R.Takes seg io s io')
    (h' : R.Fails seg io' t) : R.Fails seg io (s ++ t) := by
  intro mb net rest hd r
  rw [List.append_assoc] at hd
  obtain ⟨mb', net', hd', hruns⟩ := h mb net (t ++ rest) hd
  exact (hruns r).trans (h' mb' net' rest hd' r)

theorem Fails.append {io : σ} {s : List τ} (h : R.Fails seg io s) (t : List τ) :
    R.Fails seg io (s ++ t) := by
  intro mb net rest hd
  rw [List.append_assoc] at hd
  exact h mb net (t ++ rest) hd

theorem Takes.drains {io io' io'' : σ} {s t : List τ} (h : R.Takes seg io s io')
    (h' : R.Drains seg io' t io'') : R.Drains seg io (s ++ t) io'' := by
  intro mb net hd r
  obtain ⟨mb', net', hd', hruns⟩ := h mb net t hd
  exact (hruns r).trans (h' mb' net' hd' r)

variable (R)

/-- Nothing more comes. -/
theorem drains_nil (hnil : ∀ chunk, seg chunk = [] → chunk = []) (io : σ) :
    R.Drains seg io [] io := by
  intro mb net hd r
  obtain ⟨hstream, hnet⟩ := hd
  obtain ⟨hmb, hflat⟩ := List.append_eq_nil_iff.mp hstream
  have hnone : net = [] := by
    apply List.eq_nil_iff_forall_not_mem.mpr
    intro chunk hc
    exact hnet chunk hc
      (hnil chunk (List.flatten_eq_nil_iff.mp hflat _ (List.mem_map_of_mem hc)))
  rw [hnone, hnil mb hmb, R.ends_dry]

/-- A stream that has been taken to its end. -/
theorem Takes.runs (hnil : ∀ chunk, seg chunk = [] → chunk = []) {io io' : σ} {s : List τ}
    {chunks : List (List α)} (hd : Delivers seg [] chunks s) (h : R.Takes seg io s io')
    (r : Option (Conn σ α)) :
    R.Runs ⟨io, [], chunks⟩ r ↔ r = some ⟨io', [], []⟩ := by
  have hall := h.drains (R.drains_nil hnil io')
  rw [List.append_nil] at hall
  exact hall [] chunks hd r

/-- The same when a call on the way is undefined. -/
theorem Fails.runs {io : σ} {s : List τ} {chunks : List (List α)}
    (hd : Delivers seg [] chunks s) (h : R.Fails seg io s) (r : Option (Conn σ α)) :
    R.Runs ⟨io, [], chunks⟩ r ↔ r = none :=
  h [] chunks [] (by rw [List.append_nil]; exact hd) r

variable (hseg : seg [] = [])
include hseg

/-- **One call on the way through a piece.**  On every block that can stand there
    the reader takes something of the piece, and then takes the rest of it. -/
theorem takes_of_call {io io' : σ} {s : List τ} (hdone : R.done io = false) (hne : s ≠ [])
    (hcall : ∀ mb rest, mb ≠ [] → seg mb <+: s ++ rest → ∃ io₁ mb₁ s₁ s₂, s = s₁ ++ s₂ ∧
      seg mb = s₁ ++ seg mb₁ ∧ R.read io mb = some (io₁, mb₁) ∧ R.Takes seg io₁ s₂ io') :
    R.Takes seg io s io' := by
  intro mb net rest hd
  obtain ⟨mb₁, net₁, hmb, hd₁, hblock⟩ := R.ends_block seg hseg hdone hd (by simp [hne])
  obtain ⟨io₁, mb₂, s₁, s₂, rfl, hmb₂, hread, htakes⟩ :=
    hcall mb₁ rest hmb ⟨(net₁.map seg).flatten, hd₁.1⟩
  have hd₂ : Delivers seg mb₂ net₁ (s₂ ++ rest) := by
    refine ⟨?_, hd₁.2⟩
    have hstream := hd₁.1
    rw [hmb₂, List.append_assoc, List.append_assoc] at hstream
    exact List.append_cancel_left hstream
  obtain ⟨mb', net', hd', hruns⟩ := htakes mb₂ net₁ rest hd₂
  refine ⟨mb', net', hd', fun r => ?_⟩
  rw [hblock r, R.ends_read net₁ hdone hmb hread]
  exact hruns r

/-- The same for the whole of a stream. -/
theorem drains_of_call {io io' : σ} {s : List τ} (hdone : R.done io = false) (hne : s ≠ [])
    (hcall : ∀ mb, mb ≠ [] → seg mb <+: s → ∃ io₁ mb₁ s₁ s₂, s = s₁ ++ s₂ ∧
      seg mb = s₁ ++ seg mb₁ ∧ R.read io mb = some (io₁, mb₁) ∧ R.Drains seg io₁ s₂ io') :
    R.Drains seg io s io' := by
  intro mb net hd r
  obtain ⟨mb₁, net₁, hmb, hd₁, hblock⟩ := R.ends_block seg hseg hdone hd hne
  obtain ⟨io₁, mb₂, s₁, s₂, rfl, hmb₂, hread, hdrains⟩ :=
    hcall mb₁ hmb ⟨(net₁.map seg).flatten, hd₁.1⟩
  rw [hblock r, R.ends_read net₁ hdone hmb hread]
  apply hdrains mb₂ net₁
  refine ⟨?_, hd₁.2⟩
  have hstream := hd₁.1
  rw [hmb₂, List.append_assoc] at hstream
  exact List.append_cancel_left hstream

/-- The same for a piece that is not got through. -/
theorem fails_of_call {io : σ} {s : List τ} (hdone : R.done io = false) (hne : s ≠ [])
    (hcall : ∀ mb rest, mb ≠ [] → seg mb <+: s ++ rest → R.read io mb = none ∨
      ∃ io₁ mb₁ s₁ s₂, s = s₁ ++ s₂ ∧ seg mb = s₁ ++ seg mb₁ ∧
        R.read io mb = some (io₁, mb₁) ∧ R.Fails seg io₁ s₂) :
    R.Fails seg io s := by
  intro mb net rest hd r
  obtain ⟨mb₁, net₁, hmb, hd₁, hblock⟩ := R.ends_block seg hseg hdone hd (by simp [hne])
  rw [hblock r]
  rcases hcall mb₁ rest hmb ⟨(net₁.map seg).flatten, hd₁.1⟩ with
    hnone | ⟨io₁, mb₂, s₁, s₂, rfl, hmb₂, hread, hfails⟩
  · exact R.ends_undefined net₁ hdone hmb hnone r
  · rw [R.ends_read net₁ hdone hmb hread]
    apply hfails mb₂ net₁ rest
    refine ⟨?_, hd₁.2⟩
    have hstream := hd₁.1
    rw [hmb₂, List.append_assoc, List.append_assoc] at hstream
    exact List.append_cancel_left hstream

end Pieces

/-! ## §4. Readers that take whole blocks. -/

/-- A chunk behind which the reader wants more. -/
theorem ends_whole_more {io io' : σ} {chunk : List α} (net : List (List α))
    (hdone : R.done io = false) (hchunk : chunk ≠ []) (h : R.read io chunk = some (io', []))
    (r : Option (Conn σ α)) :
    R.Runs ⟨io, [], chunk :: net⟩ r ↔ R.Runs ⟨io', [], net⟩ r := by
  rw [R.ends_refill net hdone hchunk, R.ends_read net hdone hchunk h]

/-- A chunk behind which the reader is done. -/
theorem ends_whole_done {io io' : σ} {chunk : List α} (net : List (List α))
    (hdone : R.done io = false) (hchunk : chunk ≠ []) (h : R.read io chunk = some (io', []))
    (hdone' : R.done io' = true) (r : Option (Conn σ α)) :
    R.Runs ⟨io, [], chunk :: net⟩ r ↔ r = some ⟨io', [], net⟩ := by
  rw [R.ends_whole_more net hdone hchunk h, R.ends_done hdone']

/-- A reader that takes whole blocks, of streams that begin with what `S` says.
    `I` is what holds while it wants more of what it has seen; it is done where
    `P` holds of what it has seen, and then `E` does. -/
structure Blockwise (S : List α → Prop) (I E : σ → List α → Prop) (P : List α → Prop) : Prop where
  idle : ∀ io seen, I io seen → R.done io = false
  read : ∀ io seen chunk, I io seen → chunk ≠ [] → S (seen ++ chunk) →
    ∃ io', R.read io chunk = some (io', []) ∧
      (P (seen ++ chunk) → R.done io' = true ∧ E io' (seen ++ chunk)) ∧
      (¬ P (seen ++ chunk) → I io' (seen ++ chunk))

namespace Blockwise

variable {R} {S : List α → Prop} {I E : σ → List α → Prop} {P : List α → Prop}
  (hR : R.Blockwise S I E P)

include hR

/-- **No chunk ends what is to be read.**  All are taken, and more is wanted. -/
theorem runs_of_none (chunks : List (List α)) :
    ∀ (io : σ) (seen : List α), I io seen → (∀ chunk ∈ chunks, chunk ≠ []) →
      (∀ pre, pre <+: chunks → S (seen ++ pre.flatten)) →
      (∀ pre, pre ≠ [] → pre <+: chunks → ¬ P (seen ++ pre.flatten)) →
      ∃ io', R.Runs ⟨io, [], chunks⟩ (some ⟨io', [], []⟩) ∧ I io' (seen ++ chunks.flatten) := by
  induction chunks with
  | nil =>
      intro io seen h _ _ _
      refine ⟨io, (R.ends_dry io _).mpr rfl, ?_⟩
      rw [List.flatten_nil, List.append_nil]
      exact h
  | cons chunk chunks ih =>
      intro io seen h hne hS hnone
      have hchunk := hne chunk List.mem_cons_self
      have hone : [chunk] <+: chunk :: chunks := by simp
      have hSone := hS [chunk] hone
      have hhere := hnone [chunk] (by simp) hone
      rw [List.flatten_singleton] at hSone hhere
      obtain ⟨io₁, hread, _, hmore⟩ := hR.read io seen chunk h hchunk hSone
      -- what has been seen behind this chunk
      have hlater : ∀ pre : List (List α), seen ++ chunk ++ pre.flatten
          = seen ++ (chunk :: pre).flatten := by simp
      obtain ⟨io', hruns, hI⟩ := ih io₁ (seen ++ chunk) (hmore hhere)
        (fun c hc => hne c (List.mem_cons_of_mem _ hc))
        (by
          intro pre hp
          rw [hlater]
          exact hS _ ((List.prefix_cons_inj chunk).mpr hp))
        (by
          intro pre hpre hp
          rw [hlater]
          exact hnone _ (by simp) ((List.prefix_cons_inj chunk).mpr hp))
      rw [hlater] at hI
      refine ⟨io', ?_, hI⟩
      rw [R.ends_whole_more chunks (hR.idle io seen h) hchunk hread]
      exact hruns

/-- **A first chunk ends it.**  The loop ends behind that chunk. -/
theorem runs_of_end (before : List (List α)) (chunk : List α) (after : List (List α)) :
    ∀ (io : σ) (seen : List α), I io seen → (∀ c ∈ before ++ [chunk], c ≠ []) →
      (∀ pre, pre <+: before ++ [chunk] → S (seen ++ pre.flatten)) →
      (∀ pre, pre ≠ [] → pre <+: before → ¬ P (seen ++ pre.flatten)) →
      P (seen ++ (before ++ [chunk]).flatten) →
      ∃ io', R.Runs ⟨io, [], before ++ chunk :: after⟩ (some ⟨io', [], after⟩)
        ∧ R.done io' = true ∧ E io' (seen ++ (before ++ [chunk]).flatten) := by
  induction before with
  | nil =>
      intro io seen h hne hS _ hend
      have hchunk := hne chunk (by simp)
      have hSone := hS [chunk] List.prefix_rfl
      have hflat : ([] ++ [chunk]).flatten = chunk := by simp
      rw [List.flatten_singleton] at hSone
      rw [hflat] at hend ⊢
      obtain ⟨io', hread, hdone, _⟩ := hR.read io seen chunk h hchunk hSone
      refine ⟨io', ?_, hdone hend⟩
      rw [List.nil_append, R.ends_whole_done after (hR.idle io seen h) hchunk hread (hdone hend).1]
  | cons c before ih =>
      intro io seen h hne hS hnone hend
      have hchunk := hne c (by simp)
      have hSone := hS [c] (by simp)
      have hhere := hnone [c] (by simp) (by simp)
      rw [List.flatten_singleton] at hSone hhere
      obtain ⟨io₁, hread, _, hmore⟩ := hR.read io seen c h hchunk hSone
      have hlater : ∀ pre : List (List α), seen ++ c ++ pre.flatten
          = seen ++ (c :: pre).flatten := by simp
      have hall : seen ++ (c :: before ++ [chunk]).flatten
          = seen ++ c ++ (before ++ [chunk]).flatten := by simp
      rw [hall] at hend ⊢
      obtain ⟨io', hruns, hdone⟩ := ih io₁ (seen ++ c) (hmore hhere)
        (fun d hd => hne d (List.mem_cons_of_mem _ hd))
        (by
          intro pre hp
          rw [hlater]
          exact hS _ ((List.prefix_cons_inj c).mpr hp))
        (by
          intro pre hpre hp
          rw [hlater]
          exact hnone _ (by simp) ((List.prefix_cons_inj c).mpr hp))
        hend
      refine ⟨io', ?_, hdone⟩
      rw [List.cons_append,
        R.ends_whole_more (before ++ chunk :: after) (hR.idle io seen h) hchunk hread]
      exact hruns

/-- **What a run ends with.**  Nothing is left in the block; a reader that is
    done has been ended by the chunks it took, and not by fewer. -/
theorem runs_result (chunks : List (List α)) :
    ∀ (io : σ) (seen : List α) (r : Option (Conn σ α)), I io seen →
      (∀ chunk ∈ chunks, chunk ≠ []) → (∀ pre, pre <+: chunks → S (seen ++ pre.flatten)) →
      R.Runs ⟨io, [], chunks⟩ r →
      ∃ c, r = some c ∧ c.mb = [] ∧ (R.done c.io = true →
        ∃ taken, taken ≠ [] ∧ chunks = taken ++ c.net ∧ P (seen ++ taken.flatten) ∧
          ∀ pre, pre ≠ [] → pre <+: taken → pre ≠ taken → ¬ P (seen ++ pre.flatten)) := by
  induction chunks with
  | nil =>
      intro io seen r h _ _ hruns
      rw [R.ends_dry] at hruns
      refine ⟨_, hruns, rfl, fun hdone => ?_⟩
      have hidle := hR.idle io seen h
      have hdone' : R.done io = true := hdone
      rw [hidle] at hdone'
      exact absurd hdone' (by simp)
  | cons chunk chunks ih =>
      intro io seen r h hne hS hruns
      have hchunk := hne chunk List.mem_cons_self
      have hSone := hS [chunk] (by simp)
      rw [List.flatten_singleton] at hSone
      obtain ⟨io₁, hread, hdone, hmore⟩ := hR.read io seen chunk h hchunk hSone
      have hidle := hR.idle io seen h
      have hlater : ∀ pre : List (List α), seen ++ chunk ++ pre.flatten
          = seen ++ (chunk :: pre).flatten := by simp
      by_cases hend : P (seen ++ chunk)
      · rw [R.ends_whole_done chunks hidle hchunk hread (hdone hend).1] at hruns
        refine ⟨_, hruns, rfl, fun _ => ⟨[chunk], by simp, rfl, ?_, ?_⟩⟩
        · rw [List.flatten_singleton]
          exact hend
        · intro pre hpre hp hne'
          have hlen := hp.length_le
          have hpos := List.length_pos_iff.mpr hpre
          rw [List.length_singleton] at hlen
          exact absurd (hp.eq_of_length (by rw [List.length_singleton]; omega)) hne'
      · rw [R.ends_whole_more chunks hidle hchunk hread] at hruns
        obtain ⟨c, hr, hmb, hnet⟩ := ih io₁ (seen ++ chunk) r (hmore hend)
          (fun d hd => hne d (List.mem_cons_of_mem _ hd))
          (by
            intro pre hp
            rw [hlater]
            exact hS _ ((List.prefix_cons_inj chunk).mpr hp))
          hruns
        refine ⟨c, hr, hmb, fun hd => ?_⟩
        obtain ⟨taken, _, htaken, hp, hfirst⟩ := hnet hd
        refine ⟨chunk :: taken, by simp, by rw [htaken, List.cons_append], ?_, ?_⟩
        · rw [← hlater]
          exact hp
        · intro pre hpre hpp hne'
          obtain ⟨c', pre, rfl⟩ := List.exists_cons_of_ne_nil hpre
          obtain ⟨rfl, htail⟩ := List.cons_prefix_cons.mp hpp
          rw [← hlater]
          by_cases hnil : pre = []
          · subst hnil
            rw [List.flatten_nil, List.append_nil]
            exact hend
          · exact hfirst pre hnil htail (fun heq => hne' (by rw [heq]))

end Blockwise

/-! ## §5. A connection that is polled. -/

/-- One pass of a loop that goes on when nothing more comes: each further `recv`
    gives 0, and the block stays empty. -/
def poll (c : Conn σ α) : Conn σ α ⊕ Option (Conn σ α) :=
  if R.done c.io then .inr (some c)
  else if c.mb.isEmpty then
    match c.net with
    | [] => .inl c
    | chunk :: net => R.call ⟨c.io, chunk, net⟩
  else R.call c

/-- The two loops differ where nothing more comes. -/
theorem poll_cases (c : Conn σ α) :
    (R.done c.io = false ∧ c.mb = [] ∧ c.net = [] ∧ R.poll c = .inl c ∧ R.pass c = .inr (some c)) ∨
    (R.poll c = R.pass c ∧ ∀ c', R.pass c = .inr (some c') → R.done c'.io = true) := by
  obtain ⟨io, mb, net⟩ := c
  -- a call goes round again
  have hcall : ∀ c c', R.call c ≠ .inr (some c') := fun c c' h =>
    absurd (R.call_exit h) (by simp)
  unfold poll pass
  by_cases hdone : R.done io = true
  · rw [if_pos hdone, if_pos hdone]
    refine Or.inr ⟨rfl, fun c' h => ?_⟩
    rw [← Option.some.inj (Sum.inr.inj h)]
    exact hdone
  · rw [if_neg hdone, if_neg hdone]
    cases mb with
    | cons a mb => exact Or.inr ⟨rfl, fun c' h => (hcall ⟨io, a :: mb, net⟩ c' h).elim⟩
    | nil =>
        cases net with
        | nil => exact Or.inl ⟨by simpa using hdone, rfl, rfl, rfl, rfl⟩
        | cons chunk net => exact Or.inr ⟨rfl, fun c' h => (hcall ⟨io, chunk, net⟩ c' h).elim⟩

/-- **A loop that polls ends only where the reader is done.** -/
theorem poll_ends (c c' : Conn σ α) :
    Ends R.poll c (some c') ↔ R.Runs c (some c') ∧ R.done c'.io = true := by
  have hto : ∀ fuel c, loop R.poll fuel c = some (some c') →
      R.Runs c (some c') ∧ R.done c'.io = true := by
    intro fuel
    induction fuel with
    | zero =>
        intro c h
        exact absurd h (by simp [loop])
    | succ fuel ih =>
        intro c h
        rcases R.poll_cases c with ⟨_, _, _, hstay, _⟩ | ⟨hsame, hend⟩
        · rw [loop_next _ hstay] at h
          exact ih c h
        · cases hpass : R.pass c with
          | inl c₁ =>
              rw [loop_next _ (hsame.trans hpass)] at h
              rw [Runs, ends_next _ hpass]
              exact ih c₁ h
          | inr r =>
              rw [loop_exit _ (hsame.trans hpass)] at h
              obtain rfl := Option.some.inj h
              exact ⟨(ends_exit _ hpass).mpr rfl, hend c' hpass⟩
  have hfrom : ∀ fuel c, loop R.pass fuel c = some (some c') → R.done c'.io = true →
      Ends R.poll c (some c') := by
    intro fuel
    induction fuel with
    | zero =>
        intro c h
        exact absurd h (by simp [loop])
    | succ fuel ih =>
        intro c h hdone
        rcases R.poll_cases c with ⟨hidle, _, _, _, hout⟩ | ⟨hsame, _⟩
        · -- the connection is dry and the reader is not done
          rw [loop_exit _ hout] at h
          obtain rfl : c = c' := Option.some.inj (Option.some.inj h)
          rw [hidle] at hdone
          exact absurd hdone (by simp)
        · cases hpass : R.pass c with
          | inl c₁ =>
              rw [loop_next _ hpass] at h
              rw [ends_next _ (hsame.trans hpass)]
              exact ih c₁ h hdone
          | inr r =>
              rw [loop_exit _ hpass] at h
              obtain rfl := Option.some.inj h
              exact (ends_exit _ (hsame.trans hpass)).mpr rfl
  constructor
  · intro hends
    obtain ⟨fuel, hfuel⟩ := hends
    exact hto fuel c hfuel
  · intro hboth
    obtain ⟨⟨fuel, hfuel⟩, hdone⟩ := hboth
    exact hfrom fuel c hfuel hdone

section Streams

variable {τ : Type} (seg : List α → List τ)

/-- A piece at the front of the stream ends the loop. -/
def Finishes (io : σ) (stream : List τ) : Prop :=
  ∃ s rest io', stream = s ++ rest ∧ R.Takes seg io s io' ∧ R.done io' = true

/-- A call on the way is undefined, or the whole stream leaves the reader wanting more. -/
def Starves (io : σ) (stream : List τ) : Prop :=
  (∃ s rest, stream = s ++ rest ∧ R.Fails seg io s) ∨
  ∃ io', R.Drains seg io stream io' ∧ R.done io' = false

variable {R seg}

theorem Takes.finishes {io io' : σ} {s t : List τ} (h : R.Takes seg io s io')
    (h' : R.Finishes seg io' t) : R.Finishes seg io (s ++ t) := by
  obtain ⟨t₁, t₂, io'', rfl, htakes, hdone⟩ := h'
  exact ⟨s ++ t₁, t₂, io'', (List.append_assoc _ _ _).symm, h.trans htakes, hdone⟩

theorem Takes.starves {io io' : σ} {s t : List τ} (h : R.Takes seg io s io')
    (h' : R.Starves seg io' t) : R.Starves seg io (s ++ t) := by
  rcases h' with ⟨t₁, t₂, rfl, hfails⟩ | ⟨io'', hdrains, hdone⟩
  · exact Or.inl ⟨s ++ t₁, t₂, (List.append_assoc _ _ _).symm, h.fails hfails⟩
  · exact Or.inr ⟨io'', h.drains hdrains, hdone⟩

/-- **A stream that finishes the reader ends the loop**, also one that polls. -/
theorem Finishes.polls {io : σ} {stream : List τ} {mb : List α} {net : List (List α)}
    (h : R.Finishes seg io stream) (hd : Delivers seg mb net stream) :
    ∃ c, Ends R.poll ⟨io, mb, net⟩ (some c) := by
  obtain ⟨s, rest, io', rfl, htakes, hdone⟩ := h
  obtain ⟨mb', net', _, hruns⟩ := htakes mb net rest hd
  refine ⟨⟨io', mb', net'⟩, (R.poll_ends _ _).mpr ⟨(hruns _).mpr ?_, hdone⟩⟩
  exact (R.ends_done hdone _).mpr rfl

/-- **One that starves it does not.** -/
theorem Starves.not_polls {io : σ} {stream : List τ} {mb : List α} {net : List (List α)}
    (h : R.Starves seg io stream) (hd : Delivers seg mb net stream) :
    ¬ ∃ c, Ends R.poll ⟨io, mb, net⟩ (some c) := by
  intro hends
  obtain ⟨c, hc⟩ := hends
  obtain ⟨hruns, hend⟩ := (R.poll_ends _ _).mp hc
  rcases h with ⟨s, rest, rfl, hfails⟩ | ⟨io', hdrains, hdone⟩
  · exact absurd ((hfails mb net rest hd _).mp hruns) (by simp)
  · obtain rfl := Option.some.inj ((hdrains mb net hd _).mp hruns)
    rw [hdone] at hend
    exact absurd hend (by simp)

variable (R seg) in
/-- A stream finishes the reader where `P` holds, and starves it where it does not. -/
def Decided (io : σ) (stream : List τ) (P : Prop) : Prop :=
  (P → R.Finishes seg io stream) ∧ (¬ P → R.Starves seg io stream)

/-- What is decided behind a piece is decided in front of it. -/
theorem Takes.decided {io io' : σ} {s t : List τ} {P Q : Prop} (h : R.Takes seg io s io')
    (hsame : P ↔ Q) (h' : R.Decided seg io' t Q) : R.Decided seg io (s ++ t) P :=
  ⟨fun hP => h.finishes (h'.1 (hsame.mp hP)), fun hP => h.starves (h'.2 (mt hsame.mpr hP))⟩

theorem Finishes.decided {io : σ} {stream : List τ} {P : Prop} (h : R.Finishes seg io stream)
    (hP : P) : R.Decided seg io stream P := ⟨fun _ => h, fun hno => absurd hP hno⟩

theorem Starves.decided {io : σ} {stream : List τ} {P : Prop} (h : R.Starves seg io stream)
    (hP : ¬ P) : R.Decided seg io stream P := ⟨fun hyes => absurd hyes hP, fun _ => h⟩

/-- **A loop that polls ends exactly where `P` holds.** -/
theorem Decided.polls_iff {io : σ} {stream : List τ} {P : Prop} {mb : List α} {net : List (List α)}
    (h : R.Decided seg io stream P) (hd : Delivers seg mb net stream) :
    (∃ c, Ends R.poll ⟨io, mb, net⟩ (some c)) ↔ P := by
  constructor
  · intro hends
    by_contra hno
    exact (h.2 hno).not_polls hd hends
  · intro hP
    exact (h.1 hP).polls hd

end Streams

end Reader

end Lib.Feed
