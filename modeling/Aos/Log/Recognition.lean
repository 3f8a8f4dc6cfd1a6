/-
  Aos.Log.Recognition — which files `Logger::is_log_filename` takes for a log.

  The name is compared with the prefix and its end with the suffix, both without
  regard to case.  The place of the suffix is a difference of two `size_t`, and
  the test that is to catch a short name never does.

  Main results:
    • `is_log_filename_eq`    — what the function does with any name;
    • `log_recognised_iff`    — it recognises the log files, but for short names
      that begin with the prefix.
-/
import Aos.Log.Logger

namespace Aos

/-! ## §1. Comparison of a prefix. -/

/-- What the C library's comparisons without regard to case see of a string. -/
def os_folded (s : Bytes) : List Int := s.map fun c => tolower c.toNat

theorem os_folded_length (s : Bytes) : (os_folded s).length = s.length := List.length_map _

/-- **`strncasecmp` against a whole NUL-free string tests for that prefix.** -/
theorem os_strncasecmp_prefix_iff (ct : Bytes) (h : NUL ∉ ct) :
    ∀ cs, os_strncasecmp cs ct ct.length = 0 ↔ os_folded ct <+: os_folded cs := by
  induction ct with
  | nil => intro cs; exact ⟨fun _ => List.nil_prefix, fun _ => rfl⟩
  | cons c ct ih =>
      intro cs
      have hc : c ≠ NUL := fun he => h (he ▸ List.mem_cons_self)
      have hrest := ih (fun hm => h (List.mem_cons_of_mem c hm))
      rw [List.length_cons, os_strncasecmp]
      cases cs with
      | nil =>
          -- the terminator is compared with `c`
          have hdiff : tolower (NUL.toNat) - tolower c.toNat ≠ 0 := by
            intro he
            have hz : tolower (NUL.toNat) = 0 := by decide
            exact hc (tolower_eq_zero (by omega))
          constructor
          · intro h0
            exact absurd ((if_pos (Or.inl hdiff)).symm.trans h0) hdiff
          · intro hp
            exact absurd (List.prefix_nil.mp hp) (List.cons_ne_nil _ _)
      | cons a cs =>
          show (if tolower a.toNat - tolower c.toNat ≠ 0 ∨ a = NUL
              then tolower a.toNat - tolower c.toNat else os_strncasecmp cs ct ct.length) = 0
            ↔ tolower c.toNat :: os_folded ct <+: tolower a.toNat :: os_folded cs
          rw [List.cons_prefix_cons]
          by_cases hdiff : tolower a.toNat - tolower c.toNat = 0
          · have ha : a ≠ NUL := by
              intro he
              have hz : tolower a.toNat = 0 := by rw [he]; decide
              exact hc (tolower_eq_zero (by omega))
            rw [if_neg (by simp [hdiff, ha]), hrest cs]
            exact ⟨fun hp => ⟨by omega, hp⟩, fun hp => hp.2⟩
          · rw [if_pos (Or.inl hdiff)]
            exact ⟨fun h0 => absurd h0 hdiff, fun hp => absurd hp.1.symm (by omega)⟩

/-- What is as long as the string is the string. -/
theorem suffix_iff_drop (s f : Bytes) (h : s.length ≤ f.length) :
    os_folded s <+: os_folded (f.drop (f.length - s.length))
      ↔ os_folded s <:+ os_folded f := by
  have hdrop : os_folded (f.drop (f.length - s.length))
      = (os_folded f).drop ((os_folded f).length - (os_folded s).length) := by
    rw [os_folded_length, os_folded_length, os_folded, List.map_drop]
    rfl
  have hlen : (os_folded (f.drop (f.length - s.length))).length = (os_folded s).length := by
    rw [os_folded_length, os_folded_length, List.length_drop]
    omega
  constructor
  · intro hp
    rw [hp.eq_of_length hlen.symm, hdrop]
    exact List.drop_suffix _ _
  · intro hs
    rw [hdrop, ← List.suffix_iff_eq_drop.mp hs]

/-! ## §2. Log files. -/

namespace Logger

/-- The name begins with the prefix and ends with the suffix, up to case. -/
def Named (filename prefix_ suffix_ : Bytes) : Prop :=
  os_folded prefix_ <+: os_folded filename ∧ os_folded suffix_ <:+ os_folded filename

instance (filename prefix_ suffix_ : Bytes) : Decidable (Named filename prefix_ suffix_) :=
  inferInstanceAs (Decidable (_ ∧ _))

/-- What the function does with any name: in front of a name that is shorter than the
    suffix there is nothing to read. -/
theorem is_log_filename_eq (filename prefix_ suffix_ : Bytes) (hp : NUL ∉ prefix_)
    (hs : NUL ∉ suffix_) :
    is_log_filename filename prefix_ suffix_
      = if os_folded prefix_ <+: os_folded filename ∧ filename.length < suffix_.length then none
        else some (decide (Named filename prefix_ suffix_)) := by
  unfold is_log_filename
  by_cases hbegin : os_folded prefix_ <+: os_folded filename
  · rw [if_pos ((os_strncasecmp_prefix_iff prefix_ hp filename).mpr hbegin)]
    by_cases hshort : filename.length < suffix_.length
    · rw [if_pos hshort, if_pos ⟨hbegin, hshort⟩]
    · rw [if_neg hshort, if_neg (fun h => hshort h.2)]
      have hend : os_strncasecmp (filename.drop (filename.length - suffix_.length)) suffix_
            suffix_.length = 0 ↔ os_folded suffix_ <:+ os_folded filename :=
        (os_strncasecmp_prefix_iff suffix_ hs _).trans
          (suffix_iff_drop suffix_ filename (Nat.le_of_not_lt hshort))
      refine congrArg some ?_
      rw [Bool.eq_iff_iff, beq_iff_eq, decide_eq_true_iff, hend]
      exact ⟨fun h => ⟨hbegin, h⟩, fun h => h.2⟩
  · rw [if_neg (fun h => hbegin ((os_strncasecmp_prefix_iff prefix_ hp filename).mp h)),
      if_neg (fun h => hbegin h.1), decide_eq_false (fun h => hbegin h.1)]

/-- **The files that are named as logs are recognised, and no others, exactly where the name
    does not begin with the prefix or is as long as the suffix.**  Elsewhere the bytes in
    front of the name are read. -/
theorem log_recognised_iff (filename prefix_ suffix_ : Bytes) (hp : NUL ∉ prefix_)
    (hs : NUL ∉ suffix_) :
    is_log_filename filename prefix_ suffix_
        = some (decide (Named filename prefix_ suffix_))
      ↔ ¬(os_folded prefix_ <+: os_folded filename ∧ filename.length < suffix_.length) := by
  rw [is_log_filename_eq filename prefix_ suffix_ hp hs]
  by_cases hread : os_folded prefix_ <+: os_folded filename ∧ filename.length < suffix_.length
  · rw [if_pos hread]
    exact ⟨fun h => absurd h (by simp), fun h => absurd hread h⟩
  · rw [if_neg hread]
    exact ⟨fun _ => hread, fun _ => rfl⟩

/-- The files of `SVM_Logger`. -/
theorem log_recognised_svm :
    is_log_filename (lit "svm_2024-01-31.LOG") (lit "svm_") (lit "log")
      = some (decide (Named (lit "svm_2024-01-31.LOG") (lit "svm_") (lit "log"))) :=
  (log_recognised_iff (lit "svm_2024-01-31.LOG") (lit "svm_") (lit "log") (by decide)
    (by decide)).mpr (by decide)

/-- A foreign file of two bytes, for a logger with no prefix and the suffix `log`. -/
theorem log_unrecognised_short :
    is_log_filename (lit "db") [] (lit "log")
      ≠ some (decide (Named (lit "db") [] (lit "log"))) := by
  decide

end Logger

end Aos
