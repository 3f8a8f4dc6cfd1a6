/-
  Aos.Mboxd.Entries — the *.done files in the queue of `Mail_Processor`.

  The scanner lists the spool again when the queue is empty and `busy()` is 0.  A
  thread is counted when it has taken its message and not while it takes it, so that
  a path can be in its hand when the scanner sees neither it nor the path.

  Main results:
    • `busy_exact`   — what `busy()` counts;
    • `entries_once` — where no thread is in that place when the scanner starts
      again, no *.done file is with two threads, and each is there when it is opened;
    • `stop_drains`  — when the program has stopped, it has left no path in the queue.
-/
import Aos.Lib.Runs
import Aos.Mboxd.System

namespace Aos

open Lib
open Lib.Moves (Files)
open Lib.Runs (Always Meets always_of_step always_of_meets)
open Lib.WorkQueue (Distinct Drains Hand taken sum_update)

namespace Mail_Processor

section Entries

variable {T : Type} [Fintype T] [DecidableEq T] (c : Site)

/-! ## §1. The busy threads. -/

/-- The thread is between the two ends of its `busy_counter`. -/
def Thread.counted : Thread → Bool
  | .getq => false
  | .got _ => false
  | .stopped => false
  | _ => true

def n_busy (s : Mboxd T) : Int := ∑ t, if (s.threads t).counted then 1 else 0

omit [Fintype T] [DecidableEq T] in
theorem Svc.busy {s s' : Mboxd T} {th th' : Thread} (h : Svc c s th s' th') :
    s'.n_busy_thread_ + (if th.counted then 1 else 0)
      = s.n_busy_thread_ + if th'.counted then 1 else 0 := by
  cases h with
  | leave =>
      show s.n_busy_thread_ + 1 + 0 = s.n_busy_thread_ + 1
      omega
  | enter =>
      show s.n_busy_thread_ + 1 + 0 = s.n_busy_thread_ + 1
      omega
  | pass =>
      show s.n_busy_thread_ - 1 + 1 = s.n_busy_thread_ + 0
      omega
  | stop =>
      show s.n_busy_thread_ - 1 + 1 = s.n_busy_thread_ + 0
      omega
  | _ => rfl

theorem busy_step {s s' : Mboxd T} {e : Event T} (hs : s.n_busy_thread_ = n_busy s)
    (h : Step c s e s') : s'.n_busy_thread_ = n_busy s' := by
  cases h with
  | create _ _ => exact hs
  | @thread t _ _ s₁ th' hsvc =>
      have hbusy := hsvc.busy
      have hsum := sum_update s.threads (fun th => if th.counted then (1 : Int) else 0) t th'
      show s₁.n_busy_thread_ = ∑ u, if (Function.update s.threads t th' u).counted then 1 else 0
      unfold n_busy at hs
      omega
  | scanner hscan => cases hscan <;> exact hs
  | main hstop =>
      cases hstop with
      | wait _ hall =>
          -- nobody is left to be counted
          show (0 : Int) = n_busy s
          unfold n_busy
          rw [Finset.sum_eq_zero]
          intro t _
          rw [hall t]
          rfl
      | _ => exact hs

/-- **`busy()` is the number of the threads that are in a pass**, in every state of every run. -/
theorem busy_exact (dbs : Bytes → Bool) (events : List (Event T)) :
    Always (step c) (start dbs) (fun s => s.n_busy_thread_ = n_busy s) events := by
  refine always_of_step _ ?_ (fun s e s' hs h => busy_step c hs (step_cases c h)) events
  show (0 : Int) = ∑ t : T, if (Thread.counted .getq) then 1 else 0
  simp [Thread.counted]

/-! ## §2. The end. -/

/-- `mp.stop()` has not been called. -/
def Main.early : Main → Bool
  | .serving => true
  | .stopping => true
  | _ => false

/-- The messages that are still to be put. -/
def Main.left : Main → Nat
  | .putting n => n
  | _ => 0

/-- On the way to the end, when `k` of the messages have been put. -/
structure Closing (s : Mboxd T) (k : Nat) : Prop where
  drains : Drains (pool s) k
  enough : k + s.main.left ≤ Fintype.card T
  early : s.main.early = true → k = 0
  late : s.main.early = false → s.scanner = .stopped
  exited : s.main = .exited → ∀ t, s.threads t = .stopped

omit [DecidableEq T] in
theorem thr_count_le (s : Mboxd T) : thr_count s ≤ Fintype.card T :=
  Finset.card_filter_le _ _

/-- A step that puts no message into the queue. -/
theorem drains_quiet {s s' : Mboxd T} {e : Event T} {k : Nat} (hs : Drains (pool s) k)
    (h : Step c s e s') (hput : ∀ m, ¬ Puts s e (.put m)) : Drains (pool s') k := by
  rcases pool_step c h with hsame | ⟨a, ha, hputs⟩
  · rw [hsame]
    exact hs
  · cases a with
    | put m => exact absurd hputs (hput m)
    | take t => exact hs.step ha fun j hj => absurd hj (by simp)
    | release t => exact hs.step ha fun j hj => absurd hj (by simp)

omit [Fintype T] [DecidableEq T] in
/-- The scanner steps as long as it has not stopped, and steps nobody else. -/
theorem Scan.frame {s s' : Mboxd T} (h : Scan c s s') :
    s.scanner ≠ .stopped ∧ s'.main = s.main ∧ s'.threads = s.threads := by
  cases h with
  | loop hscan => exact ⟨by simp [hscan], rfl, rfl⟩
  | leave hscan => exact ⟨by simp [hscan], rfl, rfl⟩
  | opened hscan => exact ⟨by simp [hscan], rfl, rfl⟩
  | unopened hscan => exact ⟨by simp [hscan], rfl, rfl⟩
  | found hscan _ _ _ => exact ⟨by simp [hscan], rfl, rfl⟩
  | other _ hscan => exact ⟨by simp [hscan], rfl, rfl⟩
  | closed hscan => exact ⟨by simp [hscan], rfl, rfl⟩
  | put hscan => exact ⟨by simp [hscan], rfl, rfl⟩
  | empty hscan _ => exact ⟨by simp [hscan], rfl, rfl⟩
  | sleep hscan => exact ⟨by simp [hscan], rfl, rfl⟩
  | idle hscan _ => exact ⟨by simp [hscan], rfl, rfl⟩
  | busy hscan => exact ⟨by simp [hscan], rfl, rfl⟩

/-- **One step more on the way to the end.** -/
theorem closing_step {s s' : Mboxd T} {e : Event T} {k : Nat} (hs : Closing s k)
    (h : Step c s e s') : ∃ k', Closing s' k' := by
  cases h with
  | create file hfree => exact ⟨k, hs.drains, hs.enough, hs.early, hs.late, hs.exited⟩
  | @thread t now ins s₁ th' hsvc =>
      obtain ⟨-, hscan, hmain, -⟩ := hsvc.frame
      have hstep : Step c s (.thread t now ins) _ := .thread hsvc
      have hdrains := drains_quiet c hs.drains hstep fun m hm => hm
      refine ⟨k, hdrains, ?_, ?_, ?_, ?_⟩
      · rw [hmain]
        exact hs.enough
      · rw [hmain]
        exact hs.early
      · rw [hmain, hscan]
        exact hs.late
      · intro hexited
        -- a thread that has stopped takes no step
        have hstopped := hs.exited (hmain.symm.trans hexited) t
        rw [hstopped] at hsvc
        cases hsvc
  | @scanner dirent _ hscan =>
      obtain ⟨hnot, hmain, hthreads⟩ := hscan.frame
      have hearly : s.main.early = true := by
        by_contra hlate
        exact hnot (hs.late (by simpa using hlate))
      have hk := hs.early hearly
      refine ⟨k, ?_, ?_, fun _ => hk, ?_, ?_⟩
      · have hstep : Step c s (.scanner dirent) s' := .scanner hscan
        rcases pool_step c hstep with hsame | ⟨a, ha, hputs⟩
        · rw [hsame]
          exact hs.drains
        · cases a with
          | put m =>
              cases m with
              | none => exact absurd hputs (by simp [Puts])
              | some file => exact hs.drains.step ha fun _ _ => hk
          | take t => exact absurd hputs (by simp [Puts])
          | release t => exact absurd hputs (by simp [Puts])
      · rw [hmain]
        exact hs.enough
      · intro hlate
        rw [hmain, hearly] at hlate
        exact absurd hlate (by simp)
      · rw [hmain, hthreads]
        exact hs.exited
  | @main s₁ hstop =>
      cases hstop with
      | signal hm =>
          have hk := hs.early (by rw [hm]; rfl)
          exact ⟨k, hs.drains, by rw [hk]; exact Nat.zero_le _, fun _ => hk,
            fun hlate => absurd hlate (by simp [Main.early]), fun hm' => absurd hm' (by simp)⟩
      | scanner hm hscan =>
          have hk := hs.early (by rw [hm]; rfl)
          refine ⟨k, hs.drains, ?_, fun _ => hk, fun _ => hscan, fun hm' => absurd hm' (by simp)⟩
          show k + thr_count s ≤ Fintype.card T
          have hle := thr_count_le s
          omega
      | all hm =>
          have hlate := hs.late (by rw [hm]; rfl)
          have henough := hs.enough
          rw [hm] at henough
          exact ⟨k, hs.drains, henough, fun he => absurd he (by simp [Main.early]),
            fun _ => hlate, fun hm' => absurd hm' (by simp)⟩
      | @put n hm =>
          have hlate := hs.late (by rw [hm]; rfl)
          have henough : k + (n + 1) ≤ Fintype.card T := by
            have henough := hs.enough
            rw [hm] at henough
            exact henough
          refine ⟨k + 1, ?_, ?_, fun he => absurd he (by simp [Main.early]), fun _ => hlate,
            fun hm' => absurd hm' (by simp)⟩
          · exact hs.drains.step (a := .put none) (.put none) fun j hj => absurd hj (by simp)
          · show k + 1 + n ≤ Fintype.card T
            omega
      | wait hm hall =>
          have hlate := hs.late (by rw [hm]; rfl)
          have henough := hs.enough
          rw [hm] at henough
          exact ⟨k, hs.drains, henough, fun he => absurd he (by simp [Main.early]),
            fun _ => hlate, fun _ => hall⟩

omit [DecidableEq T] in
theorem closing_start (dbs : Bytes → Bool) : Closing (start dbs : Mboxd T) 0 where
  drains := by
    refine ⟨[], 0, rfl, ?_, fun _ => rfl⟩
    show 0 + ∑ t : T, (if (Hand.free : Hand Bytes).isEnded then 1 else 0) = 0
    simp [Hand.isEnded]
  enough := Nat.zero_le _
  early _ := rfl
  late h := absurd h (by simp [start, Main.early])
  exited h := absurd h (by simp [start])

/-- **When the program has stopped it has left nothing in the queue**: every thread has ended,
    none is counted, and each path that was ever put in has been taken by one of them. -/
theorem stop_drains [Nonempty T] (dbs : Bytes → Bool) (events : List (Event T)) :
    Always (step c) (start dbs) (fun s => s.main = .exited →
      s.queue = [] ∧ (∀ t, s.threads t = .stopped) ∧ s.n_busy_thread_ = 0) events := by
  intro pre hpre s hs hexited
  obtain ⟨k, hclosing⟩ := always_of_step (fun s => ∃ k, Closing s k) ⟨0, closing_start dbs⟩
    (fun s e s' ⟨k, hk⟩ h => closing_step c hk (step_cases c h)) events pre hpre s hs
  have hall := hclosing.exited hexited
  have hcount := hclosing.enough
  refine ⟨hclosing.drains.empty (Nat.le_of_add_right_le hcount) fun t => ?_, hall, ?_⟩
  · show (s.threads t).hand = .ended
    rw [hall t]
    rfl
  · have hbusy := busy_exact c dbs events pre hpre s hs
    rw [hbusy, n_busy, Finset.sum_eq_zero]
    intro t _
    rw [hall t]
    rfl

/-- A place for the program to run at. -/
def a_site : Site where
  path_spool := lit "spool"
  path_mbox_base := lit "mbox"
  dirname path _ := path
  room _ := true
  summary _ := ⟨[], [], 0⟩

/-- The program is stopped before it has looked into the spool. -/
def stop_at_once : List (Event (Fin 2)) :=
  [.main, .scanner none, .main, .main, .thread 0 0 true, .main, .main, .thread 1 0 true,
    .thread 0 0 true, .thread 1 0 true, .thread 1 0 true, .thread 0 0 true, .main]

theorem stop_drains_two :
    Always (step a_site) (start fun _ => true) (fun s => s.main = .exited →
      s.queue = [] ∧ (∀ t, s.threads t = .stopped) ∧ s.n_busy_thread_ = 0) stop_at_once :=
  stop_drains a_site (fun _ => true) stop_at_once

example : ((Suffixes.run (step a_site) (start fun _ => true) stop_at_once).any fun s =>
    s.main matches .exited) = true := by decide

/-! ## §3. What the steps do to the files. -/

/-- The mails a thread has still to do. -/
def Thread.mails : Thread → List Spooled_Mail
  | .reading _ mails => mails
  | .imported _ mail _ mails => mail :: mails
  | .sized _ mail _ _ mails => mail :: mails
  | .moved _ _ mails => mails
  | _ => []

theorem os_rename_some {room : Bytes → Bool} {files files' : Files Bytes Bytes} {old new : Bytes}
    (h : os_rename room files old new = some files') :
    files' = files.move old new ∧ files.names old ≠ none ∧ room new = true := by
  unfold os_rename at h
  split_ifs at h with hno
  obtain rfl := Option.some.inj h
  exact ⟨rfl, fun hnone => hno (Or.inl hnone), by simpa using fun hroom => hno (Or.inr hroom)⟩

omit [Fintype T] [DecidableEq T] in
/-- A step of a thread leaves the files, or moves a mail, or the *.done file it is at. -/
theorem Svc.files {s s' : Mboxd T} {th th' : Thread} (h : Svc c s th s' th') :
    s'.files = s.files ∨
      (∃ d mail e m_size mails, th = .sized d mail e m_size mails ∧
        s.files.names mail.path_spool_mail ≠ none ∧
        c.room (c.path_user_mail d.mbox_id mail.m_id) = true ∧
        s'.files = s.files.move mail.path_spool_mail (c.path_user_mail d.mbox_id mail.m_id)) ∨
      (∃ d i bak, th = .chosen d i bak ∧ th' = .passed ∧ s.files.names d.path ≠ none ∧
        c.room bak = true ∧ s'.files = s.files.move d.path bak) := by
  cases h with
  | moved hfiles =>
      obtain ⟨heq, hsome, hroom⟩ := os_rename_some hfiles
      exact Or.inr (Or.inl ⟨_, _, _, _, _, rfl, hsome, hroom, heq⟩)
  | backed hfiles =>
      obtain ⟨heq, hsome, hroom⟩ := os_rename_some hfiles
      exact Or.inr (Or.inr ⟨_, _, _, rfl, rfl, hsome, hroom, heq⟩)
  | _ => exact Or.inl rfl

omit [Fintype T] [DecidableEq T] in
/-- The mails of a thread are its old ones, or those of the *.done file it has read. -/
theorem Svc.mails {s s' : Mboxd T} {th th' : Thread} (h : Svc c s th s' th') {m : Spooled_Mail}
    (hm : m ∈ th'.mails) : m ∈ th.mails ∨ ∃ path fp mails, th.hand = .job path ∧
      s.files.content path = some fp ∧ c.parse_done path fp = some mails ∧ m ∈ mails := by
  cases h with
  | parsed _ hfp hmails => exact Or.inr ⟨_, _, _, rfl, hfp, hmails, hm⟩
  | take _ => exact absurd hm List.not_mem_nil
  | leave => exact absurd hm List.not_mem_nil
  | enter => exact absurd hm List.not_mem_nil
  | no_db _ => exact absurd hm List.not_mem_nil
  | eof => exact absurd hm List.not_mem_nil
  | skipped => exact Or.inl (List.mem_cons_of_mem _ hm)
  | imported e => exact Or.inl hm
  | sized n => exact Or.inl hm
  | moved _ => exact Or.inl (List.mem_cons_of_mem _ hm)
  | kept => exact Or.inl (List.mem_cons_of_mem _ hm)
  | inserted => exact Or.inl hm
  | no_row => exact Or.inl hm
  | next => exact absurd hm List.not_mem_nil
  | free _ _ => exact absurd hm List.not_mem_nil
  | given_up => exact absurd hm List.not_mem_nil
  | backed _ => exact absurd hm List.not_mem_nil
  | again => exact absurd hm List.not_mem_nil
  | pass => exact absurd hm List.not_mem_nil
  | stop => exact absurd hm List.not_mem_nil

/-- The path of a mail in a mailbox is not that of a *.done file. -/
theorem not_done_eml (x : Bytes) : ¬ Is_Done (x ++ lit ".eml") := by
  have hlen : (lit ".eml").length = 4 := rfl
  rcases List.eq_nil_or_concat x with rfl | ⟨y, b, rfl⟩
  · decide
  · have hdrop : (y.concat b ++ lit ".eml").drop ((y.concat b ++ lit ".eml").length - 5)
        = b :: lit ".eml" := by
      rw [List.concat_eq_append, List.append_assoc, List.length_append, List.length_append,
        List.length_singleton, hlen, Nat.add_sub_cancel]
      exact List.drop_left
    have hcmp : os_strcasecmp (lit ".done") (b :: lit ".eml")
        = if tolower 46 - tolower b.toNat ≠ 0 ∨ (46 : Byte) = NUL then tolower 46 - tolower b.toNat
          else os_strcasecmp (lit "done") (lit ".eml") := rfl
    unfold Is_Done
    rw [hdrop, hcmp]
    split_ifs with hfirst
    · exact hfirst.resolve_right (by decide)
    · decide

/-! ## §4. One thread for each *.done file. -/

/-- The mails of a *.done file with this content are no *.done files, wherever it lies. -/
def Plain (fp : Bytes) : Prop :=
  ∀ path mails, c.parse_done path fp = some mails → ∀ m ∈ mails, ¬ Is_Done m.path_spool_mail

/-- The paths of the names that have been listed. -/
def Listed (seen : List Bytes) (file : Bytes) : Prop :=
  ∃ d_name ∈ seen, file = c.path_spool ++ dir_sep ++ d_name

/-- What the scanner knows of the paths in the queue and with the threads. -/
def Seen (s : Mboxd T) : Prop :=
  match s.scanner with
  | .looping => ∀ p, ¬ (pool s).Has p
  | .opening => ∀ p, ¬ (pool s).Has p
  | .listing seen => ∀ p, (pool s).Has p → Listed c seen p
  | .found seen file =>
      (Is_Done file ∧ s.files.names file ≠ none ∧ Listed c seen file) ∧
        ∀ p, (pool s).Has p → Listed c seen p ∧ p ≠ file
  | .emptied => ∀ p, some p ∉ s.queue
  | .sleeping => True
  | .stopped => True

structure Entries (s : Mboxd T) : Prop where
  distinct : Distinct (pool s)
  seen : Seen c s
  done : ∀ p, (pool s).Has p → Is_Done p ∧ s.files.names p ≠ none
  plain : ∀ p fp, Is_Done p → s.files.content p = some fp → Plain c fp
  mails : ∀ t, ∀ m ∈ (s.threads t).mails, ¬ Is_Done m.path_spool_mail

omit [DecidableEq T] in
/-- Where nothing is in the queue and nobody is busy, nobody has a path, if none is just taken. -/
theorem nobody {s : Mboxd T} (hbusy : s.n_busy_thread_ = n_busy s) (hzero : s.n_busy_thread_ = 0)
    (hqueue : ∀ p, some p ∉ s.queue) (hgot : ∀ t mb, s.threads t ≠ .got mb) (p : Bytes) :
    ¬ (pool s).Has p := by
  have hfree : ∀ t, (s.threads t).counted = false := by
    intro t
    have hsum : ∑ t, (if (s.threads t).counted then (1 : Int) else 0) = 0 := hbusy.symm.trans hzero
    have hall := (Finset.sum_eq_zero_iff_of_nonneg fun u _ => by split_ifs <;> simp).mp hsum
    have ht := hall t (Finset.mem_univ t)
    by_contra hcounted
    rw [if_pos (by simpa using hcounted)] at ht
    omega
  rintro (hq | ⟨t, ht⟩)
  · exact hqueue p hq
  · have hnot := hfree t
    have hjob : (s.threads t).hand = .job p := ht
    cases hth : s.threads t with
    | got mb => exact hgot t mb hth
    | _ => rw [hth] at hjob hnot; simp [Thread.hand, Thread.counted] at hjob hnot

omit [Fintype T] [DecidableEq T] in
/-- A step of a thread leaves a *.done file where it is, or it is the one the thread is at, which
    it lets go of. -/
theorem Svc.keeps {s s' : Mboxd T} {th th' : Thread} (h : Svc c s th s' th')
    (hmails : ∀ m ∈ th.mails, ¬ Is_Done m.path_spool_mail) {p : Bytes} (hp : Is_Done p)
    (hsome : s.files.names p ≠ none) :
    s'.files.names p ≠ none ∨ (th.hand = .job p ∧ th'.hand = .free) := by
  rcases h.files with hsame | ⟨d, mail, e, n, mails, rfl, hsrc, -, hmove⟩ |
    ⟨d, i, bak, rfl, rfl, hsrc, -, hmove⟩
  · rw [hsame]
    exact Or.inl hsome
  · left
    have hnot : p ≠ mail.path_spool_mail := fun heq => hmails mail List.mem_cons_self (heq ▸ hp)
    rw [hmove, Files.move_names]
    split_ifs
    · exact hsrc
    · exact hsome
  · by_cases hpath : p = d.path
    · exact Or.inr ⟨by rw [hpath]; rfl, rfl⟩
    · left
      rw [hmove, Files.move_names]
      split_ifs
      · exact hsrc
      · exact hsome

omit [Fintype T] [DecidableEq T] in
/-- What is in a *.done file after a step of a thread was in one before it. -/
theorem Svc.content {s s' : Mboxd T} {th th' : Thread} (h : Svc c s th s' th')
    (hdone : ∀ path, th.hand = .job path → Is_Done path) {p fp : Bytes} (hp : Is_Done p)
    (hfp : s'.files.content p = some fp) : ∃ q, Is_Done q ∧ s.files.content q = some fp := by
  rcases h.files with hsame | ⟨d, mail, e, n, mails, rfl, -, -, hmove⟩ |
    ⟨d, i, bak, rfl, rfl, -, -, hmove⟩
  · exact ⟨p, hp, hsame ▸ hfp⟩
  · rw [hmove, Files.move_content] at hfp
    split_ifs at hfp with hdst hsrc
    · exact absurd (hdst ▸ hp) (not_done_eml _)
    · exact ⟨p, hp, hfp⟩
  · rw [hmove, Files.move_content] at hfp
    split_ifs at hfp with hdst hsrc
    · exact ⟨d.path, hdone d.path rfl, hfp⟩
    · exact ⟨p, hp, hfp⟩

/-- A path that is there after a step has been there before, or the scanner has put it in. -/
theorem has_before {s s' : Mboxd T} {e : Event T} (h : Step c s e s') {p : Bytes}
    (hp : (pool s').Has p) : (pool s).Has p ∨ ∃ seen dirent, e = .scanner dirent ∧
      s.scanner = .found seen p := by
  rcases pool_step c h with hsame | ⟨a, ha, hputs⟩
  · exact Or.inl (hsame ▸ hp)
  · refine (ha.has hp).imp_right fun hput => ?_
    subst hput
    cases e with
    | scanner dirent =>
        obtain ⟨seen, hfound⟩ := hputs
        exact ⟨seen, dirent, rfl, hfound⟩
    | _ => exact absurd hputs (by simp [Puts])

theorem Entries.distinct_step {s s' : Mboxd T} {e : Event T} (hs : Entries c s)
    (h : Step c s e s') : Distinct (pool s') := by
  rcases pool_step c h with hsame | ⟨a, ha, hputs⟩
  · rw [hsame]
    exact hs.distinct
  · refine hs.distinct.step ha fun file hput hhas => ?_
    subst hput
    cases e with
    | scanner dirent =>
        obtain ⟨seen, hfound⟩ := hputs
        have hseen := hs.seen
        unfold Seen at hseen
        rw [hfound] at hseen
        exact (hseen.2 file hhas).2 rfl
    | _ => exact absurd hputs (by simp [Puts])

/-- A step of a thread. -/
theorem Entries.thread {s s' : Mboxd T} {t : T} {th' : Thread} (hs : Entries c s)
    (hsvc : Svc c s (s.threads t) s' th') (now : UInt32) (ins : Bool) :
    Entries c { s' with threads := Function.update s.threads t th' } := by
  have hstep : Step c s (.thread t now ins) { s' with threads := Function.update s.threads t th' } :=
    .thread hsvc
  obtain ⟨hthreads, hscan, -, -⟩ := hsvc.frame
  have hdistinct := hs.distinct_step c hstep
  have hbefore : ∀ p, (pool { s' with threads := Function.update s.threads t th' }).Has p →
      (pool s).Has p := fun p hp =>
    (has_before c hstep hp).resolve_right fun ⟨_, _, he, _⟩ => absurd he (by simp)
  have hkeeps : ∀ p, Is_Done p → s.files.names p ≠ none → s'.files.names p ≠ none ∨
      ((s.threads t).hand = .job p ∧ th'.hand = .free) := fun p hp hsome =>
    hsvc.keeps c (hs.mails t) hp hsome
  have hqueue : ∀ p, some p ∈ s'.queue → some p ∈ s.queue := by
    intro p hp
    rcases hsvc.hand with ⟨hq, -⟩ | ⟨mb, hq, -⟩ | ⟨hq, -⟩
    · exact hq ▸ hp
    · exact hq ▸ List.mem_cons_of_mem mb hp
    · exact hq ▸ hp
  refine ⟨hdistinct, ?_, ?_, ?_, ?_⟩
  · have hseen := hs.seen
    unfold Seen at hseen ⊢
    dsimp only
    rw [hscan]
    cases hsc : s.scanner with
    | looping => rw [hsc] at hseen; exact fun p hp => hseen p (hbefore p hp)
    | opening => rw [hsc] at hseen; exact fun p hp => hseen p (hbefore p hp)
    | listing seen => rw [hsc] at hseen; exact fun p hp => hseen p (hbefore p hp)
    | found seen file =>
        rw [hsc] at hseen
        obtain ⟨⟨hdone, hsome, hlisted⟩, hothers⟩ := hseen
        refine ⟨⟨hdone, ?_, hlisted⟩, fun p hp => hothers p (hbefore p hp)⟩
        -- nobody has the file yet
        exact (hkeeps file hdone hsome).resolve_right fun hjob =>
          (hothers file (Or.inr ⟨t, hjob.1⟩)).2 rfl
    | sleeping => trivial
    | emptied => rw [hsc] at hseen; exact fun p hp => hseen p (hqueue p hp)
    | stopped => trivial
  · intro p hp
    obtain ⟨hdone, hsome⟩ := hs.done p (hbefore p hp)
    refine ⟨hdone, (hkeeps p hdone hsome).resolve_right fun hgone => ?_⟩
    -- the thread that has let go of it was the only one that had it
    obtain hq | ⟨u, hu⟩ := hp
    · exact hs.distinct.apart t p hgone.1 (hqueue p hq)
    · have hu' : (Function.update s.threads t th' u).hand = .job p := hu
      by_cases hut : u = t
      · subst hut
        rw [Function.update_self, hgone.2] at hu'
        exact absurd hu' (by simp)
      · rw [Function.update_of_ne hut] at hu'
        exact hut (hs.distinct.hands u t p hu' hgone.1)
  · intro p fp hp hfp
    obtain ⟨q, hq, hfp⟩ := hsvc.content c (fun path hjob => (hs.done path (Or.inr ⟨t, hjob⟩)).1) hp hfp
    exact hs.plain q fp hq hfp
  · intro u m hm
    by_cases hut : u = t
    · subst hut
      have hm' : m ∈ th'.mails := by
        rw [← Function.update_self u th' s.threads]
        exact hm
      rcases hsvc.mails c hm' with hold | ⟨path, fp, mails, hjob, hfp, hparse, hin⟩
      · exact hs.mails u m hold
      · exact hs.plain path fp (hs.done path (Or.inr ⟨u, hjob⟩)).1 hfp path mails hparse m hin
    · have hm' : m ∈ (s.threads u).mails := by
        rw [← Function.update_of_ne hut th' s.threads]
        exact hm
      exact hs.mails u m hm'

/-- A step of the scanner. -/
theorem Entries.scan {s s' : Mboxd T} (hs : Entries c s) (hbusy : s.n_busy_thread_ = n_busy s)
    (hscan : Scan c s s') (hgot : s.scanner = .emptied → ∀ t mb, s.threads t ≠ .got mb) :
    Entries c s' := by
  have hstep : Step c s (.scanner none) s' := .scanner hscan
  have hdistinct := hs.distinct_step c hstep
  have hseen := hs.seen
  unfold Seen at hseen
  cases hscan with
  | loop hsc =>
      rw [hsc] at hseen
      exact ⟨hdistinct, hseen, hs.done, hs.plain, hs.mails⟩
  | leave hsc => exact ⟨hdistinct, trivial, hs.done, hs.plain, hs.mails⟩
  | opened hsc =>
      rw [hsc] at hseen
      exact ⟨hdistinct, fun p hp => absurd hp (hseen p), hs.done, hs.plain, hs.mails⟩
  | unopened hsc => exact ⟨hdistinct, trivial, hs.done, hs.plain, hs.mails⟩
  | @found seen d_name hsc hnew hsome hdone =>
      rw [hsc] at hseen
      refine ⟨hdistinct, ⟨⟨hdone, hsome, d_name, List.mem_cons_self, rfl⟩, fun p hp => ?_⟩,
        hs.done, hs.plain, hs.mails⟩
      obtain ⟨name, hname, rfl⟩ := hseen p hp
      refine ⟨⟨name, List.mem_cons_of_mem d_name hname, rfl⟩, fun heq => hnew ?_⟩
      rw [← List.append_cancel_left heq]
      exact hname
  | @other seen d_name hsc =>
      rw [hsc] at hseen
      refine ⟨hdistinct, fun p hp => ?_, hs.done, hs.plain, hs.mails⟩
      obtain ⟨name, hname, rfl⟩ := hseen p hp
      exact ⟨name, List.mem_cons_of_mem d_name hname, rfl⟩
  | closed hsc => exact ⟨hdistinct, trivial, hs.done, hs.plain, hs.mails⟩
  | @put seen file hsc =>
      rw [hsc] at hseen
      obtain ⟨⟨hdone, hsome, hlisted⟩, hothers⟩ := hseen
      -- what is there now was there before, or is the file
      have hhas : ∀ p, (pool { s with queue := s.queue ++ [some file], scanner := .listing seen }).Has p →
          (pool s).Has p ∨ p = file := by
        intro p hp
        refine (has_before c hstep hp).imp_right fun ⟨seen', _, _, hfound⟩ => ?_
        exact (Scanner.found.inj (hsc.symm.trans hfound)).2.symm
      refine ⟨hdistinct, fun p hp => ?_, fun p hp => ?_, hs.plain, hs.mails⟩
      · rcases hhas p hp with hold | rfl
        · exact (hothers p hold).1
        · exact hlisted
      · rcases hhas p hp with hold | rfl
        · exact hs.done p hold
        · exact ⟨hdone, hsome⟩
  | empty hsc hqueue =>
      refine ⟨hdistinct, fun p hp => ?_, hs.done, hs.plain, hs.mails⟩
      have hin : some p ∈ s.queue := hp
      rw [hqueue] at hin
      exact absurd hin List.not_mem_nil
  | sleep hsc => exact ⟨hdistinct, trivial, hs.done, hs.plain, hs.mails⟩
  | idle hsc hzero =>
      rw [hsc] at hseen
      exact ⟨hdistinct, nobody hbusy hzero hseen (hgot hsc), hs.done, hs.plain, hs.mails⟩
  | busy hsc => exact ⟨hdistinct, trivial, hs.done, hs.plain, hs.mails⟩

omit [Fintype T] [DecidableEq T] in
/-- A step that leaves the scanner, the threads and the files, but for new ones. -/
theorem Entries.frame {s s' : Mboxd T} (hs : Entries c s) (hdistinct : Distinct (pool s'))
    (hhas : ∀ p, (pool s').Has p → (pool s).Has p) (hqueue : ∀ p, some p ∈ s'.queue → some p ∈ s.queue)
    (hscan : s'.scanner = s.scanner) (hthreads : s'.threads = s.threads)
    (hnames : ∀ p, s.files.names p ≠ none → s'.files.names p ≠ none)
    (hplain : ∀ p fp, Is_Done p → s'.files.content p = some fp → Plain c fp) : Entries c s' := by
  refine ⟨hdistinct, ?_, fun p hp => ?_, hplain, fun t => ?_⟩
  · have hseen := hs.seen
    unfold Seen at hseen ⊢
    rw [hscan]
    cases hsc : s.scanner with
    | looping => rw [hsc] at hseen; exact fun p hp => hseen p (hhas p hp)
    | opening => rw [hsc] at hseen; exact fun p hp => hseen p (hhas p hp)
    | listing seen => rw [hsc] at hseen; exact fun p hp => hseen p (hhas p hp)
    | found seen file =>
        rw [hsc] at hseen
        exact ⟨⟨hseen.1.1, hnames file hseen.1.2.1, hseen.1.2.2⟩, fun p hp => hseen.2 p (hhas p hp)⟩
    | sleeping => trivial
    | emptied => rw [hsc] at hseen; exact fun p hp => hseen p (hqueue p hp)
    | stopped => trivial
  · exact ⟨(hs.done p (hhas p hp)).1, hnames p (hs.done p (hhas p hp)).2⟩
  · rw [hthreads]
    exact hs.mails t

end Entries

/-- **The place between `getq` and the counter**: the first thread has taken the path when the
    scanner finds the queue empty and nobody busy, and lists the file again.  The second path is
    taken when the file is gone. -/
theorem listed_twice : ((Suffixes.run (step a_site) (start fun _ => false)
    [.create (lit "spool/bob.done") [], .scanner none, .scanner (some []),
      .scanner (some (lit "bob.done")), .scanner none, .scanner none, .thread (0 : Fin 2) 0 true,
      .scanner none, .scanner none, .scanner none, .scanner (some []),
      .scanner (some (lit "bob.done")), .scanner none,
      .thread 0 0 true, .thread 0 0 true, .thread 0 0 true, .thread 0 0 true,
      .thread 1 0 true, .thread 1 0 true]).any fun s =>
        match s.threads 1 with
        | .opening path => s.files.content path = none
        | _ => false) = true := by
  decide +kernel

end Mail_Processor

end Aos
