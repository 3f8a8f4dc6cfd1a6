/-
  Aos.Log.Rotation — the removal loops of `Logger::rotate_store`, and when they end.

  A loop goes on with the iterator that `remove_log` returns, and that is the
  same one where `unlink` has failed: the file is tried again, as long as the
  loop's test holds.  `n_total_` is a 64-bit number here, whatever it counts.

  Main results:
    • `remove_ends_iff` — one loop ends within a number of calls of `unlink`
      exactly when enough of these succeed;
    • `rotate_ends_iff` — both loops;
    • `pass_store`, `too_large_store` — the loops are those of `Logger`, where its
      counters are exact and no sum is too large for them.
-/
import Mathlib.Data.Nat.Count
import Aos.Log.Accounting

namespace Aos.Logger

open Lib.Loop

/-! ## §1. The loops. -/

/-- The members that the loops read and change. -/
structure Store where
  files_ : LOG_FILES
  n_total_ : UInt64

namespace Store

/-- `remove_log(begin())`, where `ok` says whether `unlink` succeeds. -/
def remove_log (st : Store) (ok : Bool) : Store :=
  match st.files_ with
  | [] => st
  | f :: rest => if ok then ⟨rest, st.n_total_ - UInt64.ofNat f.2.2⟩ else st

variable (due : UInt64 → Nat → Bool) (unlink : Nat → Bool)

/-- One pass of a loop that removes what is `due`; counted are the calls of `unlink`. -/
def remove_pass (s : Store × Nat) : (Store × Nat) ⊕ (Store × Nat) :=
  match s.1.files_ with
  | [] => .inr s
  | f :: _ =>
      if due s.1.n_total_ f.1 then .inl (s.1.remove_log (unlink s.2), s.2 + 1) else .inr s

/-- The loop is entered in `s`, and left in `r`. -/
def Removes (s r : Store × Nat) : Prop := Ends (remove_pass due unlink) s r

variable (cfg : Config)

/-- The test of the first loop, `(size_t) expired.sec() > iter->first`. -/
def expired_due (now : Int) (_ : UInt64) (ctime : Nat) : Bool :=
  ((now - cfg.rotate_time_ * cfg.rotate_size_) % 2 ^ 64).toNat > ctime

/-- The test of the second, `n_total_ + request_size > store_max_size_`. -/
def too_large_due (request_size : Nat) (n_total : UInt64) (_ : Nat) : Bool :=
  (n_total + UInt64.ofNat request_size).toNat > cfg.store_max_size_

/-- Whether there is a rotation policy, and a maximum size. -/
def Rotates_Time : Prop := cfg.rotate_time_ ≠ 0 ∧ cfg.rotate_size_ ≠ 0

instance : Decidable (Rotates_Time cfg) := inferInstanceAs (Decidable (_ ∧ _))

/-- Both loops of `rotate_store(request_size)`, one behind the other. -/
def Rotates (now : Int) (request_size : Nat) (st : Store) (r : Store × Nat) : Prop :=
  ∃ mid, (if Rotates_Time cfg then Removes (expired_due cfg now) unlink (st, 0) mid
      else mid = (st, 0)) ∧
    if cfg.store_max_size_ ≠ 0 then Removes (too_large_due cfg request_size) unlink mid r
    else r = mid

/-! ## §2. What is to be removed. -/

/-- How many files stand in front of the first that is not `due`. -/
def due_files : LOG_FILES → UInt64 → Nat
  | [], _ => 0
  | f :: rest, n_total =>
      if due n_total f.1 then due_files rest (n_total - UInt64.ofNat f.2.2) + 1 else 0

/-- The store without these. -/
def due_removed : LOG_FILES → UInt64 → Store
  | [], n_total => ⟨[], n_total⟩
  | f :: rest, n_total =>
      if due n_total f.1 then due_removed rest (n_total - UInt64.ofNat f.2.2)
      else ⟨f :: rest, n_total⟩

/-- How many files a rotation has to remove: the expired ones, and then the oldest of the
    others as long as the total leaves no room for the request. -/
def due_count (now : Int) (request_size : Nat) (st : Store) : Nat :=
  let expired :=
    if Rotates_Time cfg then due_files (expired_due cfg now) st.files_ st.n_total_ else 0
  let left :=
    if Rotates_Time cfg then due_removed (expired_due cfg now) st.files_ st.n_total_ else st
  expired + if cfg.store_max_size_ ≠ 0 then
    due_files (too_large_due cfg request_size) left.files_ left.n_total_ else 0

/-! ## §3. When the loops end. -/

section Ends

variable {due : UInt64 → Nat → Bool} {unlink : Nat → Bool} {cfg : Config}

/-- How many of the first `k` calls of `unlink` succeed. -/
def removed (unlink : Nat → Bool) (k : Nat) : Nat := Nat.count (fun i => unlink i = true) k

theorem removed_succ (unlink : Nat → Bool) (k : Nat) :
    removed unlink (k + 1) = removed unlink k + if unlink k = true then 1 else 0 :=
  Nat.count_succ ..

theorem removed_mono {j k : Nat} (h : j ≤ k) : removed unlink j ≤ removed unlink k :=
  Nat.count_monotone _ h

/-- **What a pass does**: it removes the first file, or tries it in vain, or leaves the loop. -/
theorem remove_pass_cases (due : UInt64 → Nat → Bool) (unlink : Nat → Bool)
    (files : LOG_FILES) (n_total : UInt64) (k : Nat) :
    (due_files due files n_total = 0 ∧ due_removed due files n_total = ⟨files, n_total⟩ ∧
      remove_pass due unlink (⟨files, n_total⟩, k) = .inr (⟨files, n_total⟩, k)) ∨
    ∃ f rest, files = f :: rest ∧
      due_files due files n_total = due_files due rest (n_total - UInt64.ofNat f.2.2) + 1 ∧
      due_removed due files n_total = due_removed due rest (n_total - UInt64.ofNat f.2.2) ∧
      remove_pass due unlink (⟨files, n_total⟩, k) = .inl
        (if unlink k = true then ⟨rest, n_total - UInt64.ofNat f.2.2⟩ else ⟨files, n_total⟩,
          k + 1) := by
  cases files with
  | nil => exact Or.inl ⟨rfl, rfl, rfl⟩
  | cons f rest =>
      by_cases hdue : due n_total f.1 = true
      · exact Or.inr ⟨f, rest, rfl, if_pos hdue, if_pos hdue, if_pos hdue⟩
      · exact Or.inl ⟨if_neg hdue, if_neg hdue, if_neg hdue⟩

/-- **What a loop that ends has done.** -/
theorem removes_spec (fuel : Nat) :
    ∀ (files : LOG_FILES) (n_total : UInt64) (k : Nat) (r : Store × Nat),
    loop (remove_pass due unlink) fuel (⟨files, n_total⟩, k) = some r →
      r.1 = due_removed due files n_total ∧ k ≤ r.2 ∧
      removed unlink r.2 = removed unlink k + due_files due files n_total := by
  induction fuel with
  | zero => intro files n_total k r h; exact absurd h (by simp [loop])
  | succ fuel ih =>
      intro files n_total k r h
      rcases remove_pass_cases due unlink files n_total k with
        ⟨hnone, hleft, hpass⟩ | ⟨f, rest, hfiles, hsome, hleft, hpass⟩
      · rw [loop_exit _ hpass] at h
        obtain rfl := Option.some.inj h
        rw [hnone]
        exact ⟨hleft.symm, le_refl k, rfl⟩
      · rw [loop_next _ hpass] at h
        have hcount := removed_succ unlink k
        by_cases hok : unlink k = true
        · rw [if_pos hok] at h hcount
          obtain ⟨hr, hk, hcalls⟩ := ih _ _ _ _ h
          exact ⟨hr.trans hleft.symm, by omega, by omega⟩
        · -- the same file again
          rw [if_neg hok] at h hcount
          obtain ⟨hr, hk, hcalls⟩ := ih _ _ _ _ h
          exact ⟨hr, by omega, by omega⟩

theorem Removes.spec {st : Store} {k : Nat} {r : Store × Nat} (h : Removes due unlink (st, k) r) :
    r.1 = due_removed due st.files_ st.n_total_ ∧ k ≤ r.2 ∧
      removed unlink r.2 = removed unlink k + due_files due st.files_ st.n_total_ := by
  obtain ⟨fuel, hfuel⟩ := h
  exact removes_spec fuel st.files_ st.n_total_ k r hfuel

/-- The loop ends where enough calls succeed.  The induction is on the calls that are left. -/
theorem removes_of_enough (N : Nat) : ∀ (files : LOG_FILES) (n_total : UInt64) (k : Nat),
    removed unlink k + due_files due files n_total ≤ removed unlink (k + N) →
      ∃ r, Removes due unlink (⟨files, n_total⟩, k) r ∧ r.2 ≤ k + N := by
  induction N with
  | zero =>
      intro files n_total k henough
      rcases remove_pass_cases due unlink files n_total k with
        ⟨hnone, hleft, hpass⟩ | ⟨f, rest, hfiles, hsome, hleft, hpass⟩
      · exact ⟨_, (ends_exit _ hpass).mpr rfl, le_refl k⟩
      · rw [Nat.add_zero] at henough
        omega
  | succ N ih =>
      intro files n_total k henough
      have hnext : k + (N + 1) = k + 1 + N := by omega
      rw [hnext] at henough ⊢
      rcases remove_pass_cases due unlink files n_total k with
        ⟨hnone, hleft, hpass⟩ | ⟨f, rest, hfiles, hsome, hleft, hpass⟩
      · exact ⟨_, (ends_exit _ hpass).mpr rfl, by show k ≤ _; omega⟩
      · have hcount := removed_succ unlink k
        by_cases hok : unlink k = true
        · rw [if_pos hok] at hpass hcount
          obtain ⟨r, hr, hK⟩ := ih rest (n_total - UInt64.ofNat f.2.2) (k + 1) (by omega)
          exact ⟨r, (ends_next _ hpass).mpr hr, hK⟩
        · rw [if_neg hok] at hpass hcount
          obtain ⟨r, hr, hK⟩ := ih files n_total (k + 1) (by omega)
          exact ⟨r, (ends_next _ hpass).mpr hr, hK⟩

/-- **A loop ends within `K` calls of `unlink`** exactly when as many of them succeed as there
    are files to remove. -/
theorem remove_ends_iff (st : Store) (k K : Nat) :
    (∃ r, Removes due unlink (st, k) r ∧ r.2 ≤ K) ↔
      k ≤ K ∧ removed unlink k + due_files due st.files_ st.n_total_ ≤ removed unlink K := by
  constructor
  · rintro ⟨r, hr, hK⟩
    obtain ⟨_, hk, hcalls⟩ := hr.spec
    rw [← hcalls]
    exact ⟨hk.trans hK, removed_mono hK⟩
  · rintro ⟨hk, henough⟩
    obtain ⟨N, rfl⟩ := Nat.exists_eq_add_of_le hk
    exact removes_of_enough N st.files_ st.n_total_ k henough

/-- A loop that a policy turns on, or that is passed over. -/
theorem turned_on_iff (due : UInt64 → Nat → Bool) (unlink : Nat → Bool) (on : Prop) [Decidable on]
    (st : Store) (k K : Nat) :
    (∃ r, (if on then Removes due unlink (st, k) r else r = (st, k)) ∧ r.2 ≤ K) ↔
      k ≤ K ∧ removed unlink k + (if on then due_files due st.files_ st.n_total_ else 0)
        ≤ removed unlink K := by
  by_cases hon : on
  · simp only [if_pos hon]
    exact remove_ends_iff st k K
  · simp only [if_neg hon, exists_eq_left, Nat.add_zero]
    exact ⟨fun hk => ⟨hk, removed_mono hk⟩, fun h => h.1⟩

/-- What the first loop leaves to the second. -/
theorem turned_on_spec {on : Prop} [Decidable on] {st : Store} {r : Store × Nat}
    (h : if on then Removes due unlink (st, 0) r else r = (st, 0)) :
    r.1 = (if on then due_removed due st.files_ st.n_total_ else st) ∧
      removed unlink r.2 = if on then due_files due st.files_ st.n_total_ else 0 := by
  have hzero : removed unlink 0 = 0 := Nat.count_zero _
  by_cases hon : on
  · simp only [if_pos hon] at h ⊢
    obtain ⟨hr, _, hcalls⟩ := h.spec
    rw [hzero, Nat.zero_add] at hcalls
    exact ⟨hr, hcalls⟩
  · simp only [if_neg hon] at h ⊢
    rw [h]
    exact ⟨rfl, hzero⟩

end Ends

/-- **Both loops end within `K` calls of `unlink`** exactly when as many of these succeed as
    there are files to remove. -/
theorem rotate_ends_iff (cfg : Config) (now : Int) (request_size : Nat) (unlink : Nat → Bool)
    (st : Store) (K : Nat) :
    (∃ r, Rotates unlink cfg now request_size st r ∧ r.2 ≤ K) ↔
      due_count cfg now request_size st ≤ removed unlink K := by
  have hzero : removed unlink 0 = 0 := Nat.count_zero _
  constructor
  · rintro ⟨r, ⟨mid, hfirst, hsecond⟩, hK⟩
    obtain ⟨hleft, hcalls⟩ := turned_on_spec hfirst
    obtain ⟨_, henough⟩ := (turned_on_iff _ unlink (cfg.store_max_size_ ≠ 0) mid.1 mid.2
      K).mp ⟨r, hsecond, hK⟩
    rw [hcalls, hleft] at henough
    exact henough
  · intro henough
    obtain ⟨mid, hfirst, hmid⟩ := (turned_on_iff (expired_due cfg now) unlink
      (Rotates_Time cfg) st 0 K).mpr ⟨Nat.zero_le K, by
        rw [hzero, Nat.zero_add]
        exact le_trans (Nat.le_add_right _ _) henough⟩
    obtain ⟨hleft, hcalls⟩ := turned_on_spec hfirst
    obtain ⟨r, hsecond, hK⟩ := (turned_on_iff (too_large_due cfg request_size) unlink
      (cfg.store_max_size_ ≠ 0) mid.1 mid.2 K).mpr ⟨hmid, by
        rw [hcalls, hleft]
        exact henough⟩
    exact ⟨r, ⟨mid, hfirst, hsecond⟩, hK⟩

/-- No call succeeds. -/
theorem removed_never (k : Nat) : removed (fun _ => false) k = 0 := by
  induction k with
  | zero => exact Nat.count_zero _
  | succ k ih => rw [removed_succ, ih, if_neg Bool.false_ne_true]

/-- A store of one file of 20 bytes, a limit of 10, and a file that cannot be removed: the
    second loop tries it for ever. -/
theorem rotate_never_ends :
    ¬ ∃ r, Rotates (fun _ => false) (config (lit "a") (lit "log") 0 0 10 0) 0 0
      ⟨[(1, lit "a.log", 20)], 20⟩ r := by
  rintro ⟨r, mid, hfirst, hsecond⟩
  obtain rfl : mid = _ := hfirst
  -- one file is due
  have hdue : due_files (too_large_due (config (lit "a") (lit "log") 0 0 10 0) 0)
      [(1, lit "a.log", 20)] 20 = 1 := by decide
  obtain ⟨_, _, hcalls⟩ := Removes.spec hsecond
  rw [removed_never, removed_never, hdue] at hcalls
  exact absurd hcalls (by decide)

end Store

/-! ## §4. The loops of a logger. -/

section Session

open Lib.Directory Lib.Directory.Disk

variable {cfg : Config} {s : Session}

/-- What the loops read of a session. -/
def Session.store (s : Session) : Store := ⟨s.self.files_, UInt64.ofNat s.self.n_total_⟩

/-- A listed file has a name in the directory. -/
theorem find_listed {name : Bytes} {n : Nat} (h : (name, n) ∈ s.disk.listing (matched cfg)) :
    (s.disk.find name).isSome = true := by
  obtain ⟨e, he, heq⟩ := List.mem_map.mp h
  obtain ⟨rfl, _⟩ := Prod.mk.inj heq
  exact List.find?_isSome.mpr ⟨e, (List.mem_filter.mp he).1, decide_eq_true rfl⟩

/-- A counter that is exact is never smaller than one of the files. -/
theorem remove_log_store (hacc : Accounts cfg s) (hlisted : Listed cfg s)
    (ok : Bool) :
    (remove_log s ok).store = s.store.remove_log ok := by
  unfold Session.store remove_log Store.remove_log
  cases hfiles : s.self.files_ with
  | nil => simp only [hfiles]
  | cons f rest =>
      simp only
      unfold Listed at hlisted
      rw [hfiles, List.map_cons] at hlisted
      have hmem : f.2 ∈ s.disk.listing (matched cfg) := hlisted.subset List.mem_cons_self
      have htotal := s.disk.total_unlink (matched cfg) hmem
      rw [find_listed hmem]
      cases ok with
      | false => simp [hfiles]
      | true =>
          have hle : f.2.2 ≤ s.self.n_total_ := by
            rw [hacc.total, htotal]
            exact Nat.le_add_right _ _
          simp only [and_self, if_true, Store.mk.injEq, true_and]
          exact UInt64.ofNat_sub hle

/-- **The loops are those of `Logger`**, where its counters are exact and their tests agree. -/
theorem pass_store {due : Logger → Nat → Bool} {due' : UInt64 → Nat → Bool} (unlink : Nat → Bool)
    (k : Nat) (hacc : Accounts cfg s) (hlisted : Listed cfg s)
    (hdue : ∀ ctime, due' (UInt64.ofNat s.self.n_total_) ctime = due s.self ctime) :
    Store.remove_pass due' unlink (s.store, k) =
      Sum.map (Prod.map Session.store id) (Prod.map Session.store id)
        (remove_pass due unlink (s, k)) := by
  unfold Store.remove_pass remove_pass
  have hfiles : s.store.files_ = s.self.files_ := rfl
  simp only [hfiles]
  cases s.self.files_ with
  | nil => rfl
  | cons f rest =>
      simp only [← hdue]
      have htotal : s.store.n_total_ = UInt64.ofNat s.self.n_total_ := rfl
      rw [htotal]
      split_ifs with h
      · rw [Sum.map_inl, Prod.map_apply, remove_log_store hacc hlisted]
        rfl
      · rfl

/-- The tests agree as long as the sum with the request is a 64-bit number. -/
theorem too_large_store {request_size : Nat} (h : s.self.n_total_ + request_size < 2 ^ 64)
    (ctime : Nat) :
    Store.too_large_due cfg request_size (UInt64.ofNat s.self.n_total_) ctime =
      too_large cfg request_size s.self ctime := by
  unfold Store.too_large_due too_large
  rw [← UInt64.ofNat_add, UInt64.toNat_ofNat', Nat.mod_eq_of_lt h]

end Session

end Aos.Logger
