/-
  Aos.Lib.Suffixes — one automaton started at every position of a text.

  A matcher that wants every occurrence of every word keeps one run of a
  partial automaton for each position at which a run was started and is still
  alive.  This file says what such a list of runs is after a text
  (`live`), how reading one more character changes it (`live_concat`), and
  which occurrences are reported along the way.

  **`mem_reports`** and **`reports_nodup`**: reading a text reports the pair
  (position, length) of exactly those slices the automaton accepts, each once.
  **`ahead_reports_perm`**: so does a matcher whose runs are one character ahead.
-/
import Mathlib.Tactic

namespace Lib.Suffixes

variable {σ α : Type} (δ : σ → α → Option σ) (s₀ : σ) (accept : σ → Bool)

/-! ## §1. Runs of the automaton. -/

/-- The state a word leads to; `none` once there is no move. -/
def run (s : σ) (w : List α) : Option σ := w.foldlM δ s

@[simp] theorem run_nil (s : σ) : run δ s [] = some s := rfl

@[simp] theorem run_cons (s : σ) (a : α) (w : List α) :
    run δ s (a :: w) = (δ s a).bind (run δ · w) := rfl

theorem run_concat (s : σ) (w : List α) (a : α) :
    run δ s (w ++ [a]) = (run δ s w).bind (δ · a) := by
  induction w generalizing s with
  | nil =>
      show (δ s a).bind some = δ s a
      cases δ s a with
      | none => rfl
      | some s' => rfl
  | cons b w ih =>
      rw [List.cons_append, run_cons, run_cons, Option.bind_assoc]
      simp only [ih]

theorem run_append (s : σ) (w v : List α) :
    run δ s (w ++ v) = (run δ s w).bind (run δ · v) := List.foldlM_append

/-- The automaton accepts the word. -/
def accepts (s : σ) (w : List α) : Bool := (run δ s w).any accept

theorem accepts_cons (s : σ) (a : α) (w : List α) :
    accepts δ accept s (a :: w) = (δ s a).any (accepts δ accept · w) := by
  unfold accepts
  rw [run_cons]
  cases δ s a with
  | none => rfl
  | some s' => rfl

/-! ## §2. The live runs after a text. -/

/-- The run started at position `h`, when it is still alive after `w`. -/
def started (w : List α) (h : Nat) : Option (Nat × σ) :=
  (run δ s₀ (w.drop h)).map (fun s => (h, s))

/-- All live runs, the youngest in front. -/
def live (w : List α) : List (Nat × σ) :=
  (List.range w.length).reverse.filterMap (started δ s₀ w)

/-- Runs are started inside the text. -/
theorem live_start (w : List α) : ∀ p ∈ live δ s₀ w, p.1 < w.length := by
  intro p hp
  obtain ⟨h, hh, hs⟩ := List.mem_filterMap.mp hp
  rw [List.mem_reverse, List.mem_range] at hh
  obtain ⟨s, _, rfl⟩ := Option.map_eq_some_iff.mp hs
  exact hh

/-- One live run reads the next character. -/
def advance (a : α) (r : Nat × σ) : Option (Nat × σ) :=
  (δ r.2 a).map (fun s => (r.1, s))

/-- The run that starts at the character read after `n` others. -/
def fresh (n : Nat) (a : α) : List (Nat × σ) :=
  ((δ s₀ a).map (fun s => (n, s))).toList

theorem started_concat (w : List α) (a : α) (h : Nat) (hh : h ≤ w.length) :
    started δ s₀ (w ++ [a]) h = (started δ s₀ w h).bind (advance δ a) := by
  unfold started
  rw [List.drop_append_of_le_length hh, run_concat]
  cases run δ s₀ (w.drop h) with
  | none => rfl
  | some s => rfl

theorem range_succ_reverse (n : Nat) :
    (List.range (n + 1)).reverse = n :: (List.range n).reverse := by
  rw [List.range_succ, List.reverse_append, List.reverse_singleton, List.singleton_append]

/-- **One character.**  The live runs move on, those that cannot are dropped,
    and a new one joins them in front. -/
theorem live_concat (w : List α) (a : α) :
    live δ s₀ (w ++ [a]) = fresh δ s₀ w.length a ++ (live δ s₀ w).filterMap (advance δ a) := by
  -- the runs that were live before
  have hold : (List.range w.length).reverse.filterMap (started δ s₀ (w ++ [a]))
      = (live δ s₀ w).filterMap (advance δ a) := by
    unfold live
    rw [List.filterMap_filterMap]
    apply List.filterMap_congr
    intro h hh
    rw [List.mem_reverse, List.mem_range] at hh
    exact started_concat δ s₀ w a h (by omega)
  -- the run that starts with this character
  have hnew : started δ s₀ (w ++ [a]) w.length = (δ s₀ a).map (fun s => (w.length, s)) := by
    rw [started_concat δ s₀ w a w.length le_rfl]
    unfold started
    rw [List.drop_length]
    rfl
  unfold live
  rw [List.length_append, List.length_singleton, range_succ_reverse, List.filterMap_cons, hnew,
    hold]
  unfold fresh live
  cases δ s₀ a with
  | none => rfl
  | some s => rfl

/-! ## §3. What is reported. -/

/-- The occurrence that ends a live run after `n` characters, if the run accepts. -/
def report (n : Nat) (r : Nat × σ) : Option (Nat × Nat) :=
  if accept r.2 then some (r.1, n - r.1) else none

/-- The reports for one character: the older runs first, then the new one. -/
def report_step (w : List α) (a : α) : List (Nat × Nat) :=
  ((live δ s₀ w).filterMap (advance δ a)).filterMap (report accept (w.length + 1))
    ++ (fresh δ s₀ w.length a).filterMap (report accept (w.length + 1))

/-- All reports while `text` is read after `w`. -/
def reports : List α → List α → List (Nat × Nat)
  | _, [] => []
  | w, a :: text => report_step δ s₀ accept w a ++ reports (w ++ [a]) text

theorem reports_concat (a : α) (text : List α) :
    ∀ w, reports δ s₀ accept w (text ++ [a])
      = reports δ s₀ accept w text ++ report_step δ s₀ accept (w ++ text) a := by
  induction text with
  | nil =>
      intro w
      simp [reports]
  | cons b text ih =>
      intro w
      rw [List.cons_append, reports, reports, ih (w ++ [b])]
      simp

/-- The occurrence of length at least one that starts at `h` and ends with `w`. -/
def ending (w : List α) (h : Nat) : Option (Nat × Nat) :=
  if accepts δ accept s₀ (w.drop h) then some (h, w.length - h) else none

theorem started_report (w : List α) (h : Nat) :
    (started δ s₀ w h).bind (report accept w.length) = ending δ s₀ accept w h := by
  unfold started ending accepts
  cases run δ s₀ (w.drop h) with
  | none => rfl
  | some s => rfl

/-- The reports of a step are, in some order, the accepted suffixes of what has been read. -/
theorem report_step_perm (w : List α) (a : α) :
    (report_step δ s₀ accept w a).Perm
      ((List.range (w.length + 1)).reverse.filterMap (ending δ s₀ accept (w ++ [a]))) := by
  have hlen : (w ++ [a]).length = w.length + 1 := by simp
  have hlive : (live δ s₀ (w ++ [a])).filterMap (report accept (w.length + 1))
      = (List.range (w.length + 1)).reverse.filterMap (ending δ s₀ accept (w ++ [a])) := by
    unfold live
    rw [List.filterMap_filterMap, hlen]
    apply List.filterMap_congr
    intro h _
    rw [← started_report, hlen]
  rw [← hlive, live_concat, List.filterMap_append]
  exact List.perm_append_comm

theorem mem_report_step (w : List α) (a : α) (h n : Nat) :
    (h, n) ∈ report_step δ s₀ accept w a ↔
      n ≠ 0 ∧ h + n = w.length + 1 ∧ accepts δ accept s₀ ((w ++ [a]).drop h) = true := by
  rw [(report_step_perm δ s₀ accept w a).mem_iff, List.mem_filterMap]
  constructor
  · intro hboth
    obtain ⟨i, hi, he⟩ := hboth
    rw [List.mem_reverse, List.mem_range] at hi
    unfold ending at he
    split at he
    · rename_i hacc
      have hpair := Option.some.inj he
      have h1 : i = h := congrArg Prod.fst hpair
      have h2 : (w ++ [a]).length - i = n := congrArg Prod.snd hpair
      rw [List.length_append, List.length_singleton] at h2
      subst h1
      exact ⟨by omega, by omega, hacc⟩
    · exact absurd he (by simp)
  · intro hboth
    obtain ⟨hn, hsum, hacc⟩ := hboth
    refine ⟨h, ?_, ?_⟩
    · rw [List.mem_reverse, List.mem_range]
      omega
    · unfold ending
      rw [if_pos hacc, List.length_append, List.length_singleton]
      have hlen : w.length + 1 - h = n := by omega
      rw [hlen]

theorem report_step_nodup (w : List α) (a : α) : (report_step δ s₀ accept w a).Nodup := by
  rw [(report_step_perm δ s₀ accept w a).nodup_iff]
  refine List.Nodup.filterMap ?_ (List.nodup_reverse.mpr List.nodup_range)
  intro i j p hi hj
  unfold ending at hi hj
  split at hi
  · split at hj
    · have h1 := congrArg Prod.fst (Option.mem_some_iff.mp hi)
      have h2 := congrArg Prod.fst (Option.mem_some_iff.mp hj)
      exact h1.trans h2.symm
    · exact absurd hj (by simp)
  · exact absurd hi (by simp)

/-- **Sound and complete.**  Reading `text` reports exactly the accepted slices. -/
theorem mem_reports (h n : Nat) : ∀ text : List α,
    (h, n) ∈ reports δ s₀ accept [] text ↔
      n ≠ 0 ∧ h + n ≤ text.length ∧ accepts δ accept s₀ ((text.drop h).take n) = true := by
  intro text
  induction text using List.reverseRecOn with
  | nil =>
      constructor
      · intro hmem
        exact absurd hmem List.not_mem_nil
      · intro hboth
        obtain ⟨hn, hle, _⟩ := hboth
        rw [List.length_nil] at hle
        omega
  | append_singleton text a ih =>
      rw [reports_concat, List.mem_append, ih, List.nil_append, mem_report_step,
        List.length_append, List.length_singleton]
      by_cases hlast : h + n = text.length + 1
      · -- the slice ends with the new character
        have htake : ((text ++ [a]).drop h).take n = (text ++ [a]).drop h := by
          apply List.take_of_length_le
          simp
          omega
        rw [htake]
        constructor
        · intro hor
          rcases hor with ⟨_, hle, _⟩ | ⟨hn, _, hacc⟩
          · omega
          · exact ⟨hn, by omega, hacc⟩
        · intro hboth
          obtain ⟨hn, _, hacc⟩ := hboth
          exact Or.inr ⟨hn, hlast, hacc⟩
      · constructor
        · intro hor
          rcases hor with ⟨hn, hle, hacc⟩ | ⟨_, he, _⟩
          · refine ⟨hn, by omega, ?_⟩
            rwa [List.drop_append_of_le_length (by omega),
              List.take_append_of_le_length (by rw [List.length_drop]; omega)]
          · exact absurd he hlast
        · intro hboth
          obtain ⟨hn, hle, hacc⟩ := hboth
          refine Or.inl ⟨hn, by omega, ?_⟩
          rwa [List.drop_append_of_le_length (by omega),
            List.take_append_of_le_length (by rw [List.length_drop]; omega)] at hacc

/-- **Exactly once.** -/
theorem reports_nodup : ∀ text : List α, (reports δ s₀ accept [] text).Nodup := by
  intro text
  induction text using List.reverseRecOn with
  | nil => exact List.nodup_nil
  | append_singleton text a ih =>
      rw [reports_concat]
      apply List.Nodup.append ih (report_step_nodup δ s₀ accept _ a)
      rintro ⟨h, n⟩ hold hnew
      -- an older report ends inside `text`, a new one behind it
      rw [mem_reports] at hold
      rw [List.nil_append, mem_report_step] at hnew
      omega

/-! ## §4. One character ahead. -/

/-- The live runs moved on by a character that is not read yet. -/
def ahead (w : List α) (b : α) : List (Nat × σ) := (live δ s₀ w).filterMap (advance δ b)

theorem ahead_start (w : List α) (b : α) : ∀ p ∈ ahead δ s₀ w b, p.1 < w.length := by
  intro p hp
  obtain ⟨q, hq, hadv⟩ := List.mem_filterMap.mp hp
  obtain ⟨s, _, rfl⟩ := Option.map_eq_some_iff.mp hadv
  exact live_start δ s₀ w q hq

/-- Reading the character all runs have taken already. -/
theorem ahead_concat (w : List α) (a b : α) :
    ahead δ s₀ (w ++ [a]) b
      = (fresh δ s₀ w.length a).filterMap (advance δ b)
        ++ (ahead δ s₀ w a).filterMap (advance δ b) := by
  unfold ahead
  rw [live_concat, List.filterMap_append]

/-- What a matcher reports for `a` that has seen the next character `b`: the run that
    starts here, as far as `a`, and all runs as far as `b`. -/
def ahead_step (w : List α) (a b : α) : List (Nat × Nat) :=
  (fresh δ s₀ w.length a).filterMap (report accept (w.length + 1))
    ++ (ahead δ s₀ (w ++ [a]) b).filterMap (report accept (w.length + 2))

/-- All its reports for a text that `stop` stands behind. -/
def ahead_reports (stop : α) : List α → List α → List (Nat × Nat)
  | _, [] => []
  | w, a :: text =>
      ahead_step δ s₀ accept w a (text.headD stop) ++ ahead_reports stop (w ++ [a]) text

/-- **The reports of the two matchers differ by those of the runs that are ahead.**
    The induction is on the text; what is ahead of one character is reported there
    by the one matcher, and at the character before by the other. -/
theorem ahead_reports_perm (stop : α) (hstop : ∀ w, ahead δ s₀ w stop = []) (text : List α) :
    ∀ w, ((ahead δ s₀ w (text.headD stop)).filterMap (report accept (w.length + 1))
        ++ ahead_reports δ s₀ accept stop w text).Perm (reports δ s₀ accept w text) := by
  induction text with
  | nil =>
      intro w
      rw [List.headD_nil, hstop]
      exact List.Perm.refl _
  | cons a text ih =>
      intro w
      have hrest := ih (w ++ [a])
      rw [List.length_append, List.length_singleton] at hrest
      rw [ahead_reports, reports, List.headD_cons, ahead_step, report_step]
      show (((ahead δ s₀ w a).filterMap _) ++ _).Perm ((((ahead δ s₀ w a).filterMap _) ++ _) ++ _)
      rw [List.append_assoc, List.append_assoc]
      exact (hrest.append_left _).append_left _

end Lib.Suffixes
