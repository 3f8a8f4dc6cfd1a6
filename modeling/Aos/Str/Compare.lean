/-
  Aos.Str.Compare — the C-string comparisons.

  `strcasecmp` and `strncasecmp` keep each difference in a `signed char`.  A
  string stops at its first NUL; behind the bytes of a list stands one more.
-/
import Aos.Byte

namespace Aos

/-- The character a pointer into a C string points at. -/
def deref (cs : Bytes) : Byte := cs.headD NUL

/-- `res = tolower(*cs) - tolower(*ct)`, kept in a `signed char`. -/
def fold_diff (c d : Byte) : Int := (tolower (schar c) - tolower (schar d)).bmod (2 ^ 8)

/-- `strcasecmp(cs, ct)`, also called `stricmp`. -/
def strcasecmp : Bytes → Bytes → Int
  | [], ct => fold_diff NUL (deref ct)
  | c :: cs, ct =>
      let res := fold_diff c (deref ct)
      if res ≠ 0 ∨ c = NUL then res else strcasecmp cs ct.tail

/-- `strncasecmp(cs, ct, count)`, also called `strnicmp`. -/
def strncasecmp : Bytes → Bytes → Nat → Int
  | _, _, 0 => 0
  | cs, ct, count + 1 =>
      let res := fold_diff (deref cs) (deref ct)
      if res ≠ 0 ∨ deref cs = NUL then res else strncasecmp cs.tail ct.tail count

/-- The C library's `strcasecmp`, called as `ACE_OS::strcasecmp`. -/
def os_strcasecmp : Bytes → Bytes → Int
  | [], ct => tolower 0 - tolower (deref ct).toNat
  | c :: cs, ct =>
      let res := tolower c.toNat - tolower (deref ct).toNat
      if res ≠ 0 ∨ c = NUL then res else os_strcasecmp cs ct.tail

/-- The C library's `strncasecmp`, called as `ACE_OS::strncasecmp`. -/
def os_strncasecmp : Bytes → Bytes → Nat → Int
  | _, _, 0 => 0
  | cs, ct, count + 1 =>
      let res := tolower (deref cs).toNat - tolower (deref ct).toNat
      if res ≠ 0 ∨ deref cs = NUL then res else os_strncasecmp cs.tail ct.tail count

/-- `::strncmp`. -/
def strncmp : Bytes → Bytes → Nat → Int
  | _, _, 0 => 0
  | cs, ct, count + 1 =>
      if deref cs ≠ deref ct then (deref cs).toNat - (deref ct).toNat
      else if deref cs = NUL then 0
      else strncmp cs.tail ct.tail count

/-- **`strncmp` against a whole NUL-free string tests for that prefix.** -/
theorem strncmp_prefix_iff (ct : Bytes) (h : NUL ∉ ct) :
    ∀ cs, strncmp cs ct ct.length = 0 ↔ ct <+: cs := by
  induction ct with
  | nil => intro cs; exact ⟨fun _ => List.nil_prefix, fun _ => rfl⟩
  | cons c ct ih =>
      intro cs
      have hc : c ≠ NUL := fun he => h (he ▸ List.mem_cons_self)
      have hrest := ih (fun hm => h (List.mem_cons_of_mem c hm))
      rw [List.length_cons, strncmp]
      cases cs with
      | nil =>
          -- the string ends here, the prefix does not
          have hne : deref ([] : Bytes) ≠ deref (c :: ct) := fun he => hc he.symm
          rw [if_pos hne]
          constructor
          · intro h0
            have hpos : 0 < c.toNat := Nat.pos_of_ne_zero (fun hz => hc (UInt8.toNat_inj.mp hz))
            have hval : ((deref ([] : Bytes)).toNat : Int) - (deref (c :: ct)).toNat = -c.toNat := by
              show ((0 : Nat) : Int) - c.toNat = -c.toNat
              omega
            omega
          · intro hp
            exact absurd (List.prefix_nil.mp hp) (List.cons_ne_nil c ct)
      | cons a cs =>
          by_cases hac : a = c
          · subst hac
            have hda : deref (a :: cs) ≠ NUL := hc
            rw [if_neg (by simp [deref]), if_neg hda, List.prefix_cons_inj]
            exact hrest cs
          · have hne : deref (a :: cs) ≠ deref (c :: ct) := hac
            rw [if_pos hne]
            constructor
            · intro h0
              have hval : (deref (a :: cs)).toNat = (deref (c :: ct)).toNat := by omega
              exact absurd (UInt8.toNat_inj.mp hval) hne
            · intro hp
              exact absurd (List.cons_prefix_cons.mp hp).1.symm hac

/-- No difference is no difference: a `signed char` holds every difference but the
    multiples of 256 apart. -/
theorem fold_diff_eq_zero (c d : Byte) :
    fold_diff c d = 0 ↔ tolower (schar c) = tolower (schar d) := by
  have hbound : ∀ b : Byte, -128 ≤ tolower (schar b) ∧ tolower (schar b) < 128 := by
    intro b
    have hlt := b.toNat_lt
    unfold tolower schar
    split_ifs <;> omega
  have hc := hbound c
  have hd := hbound d
  unfold fold_diff
  rw [Int.bmod_def]
  omega

/-- Only a NUL agrees with a NUL. -/
theorem fold_diff_nul {d : Byte} (h : fold_diff NUL d = 0) : d = NUL := by
  have hall : ∀ n < 256, fold_diff NUL (UInt8.ofNat n) = 0 → UInt8.ofNat n = NUL := by
    decide +kernel
  have hd := hall d.toNat d.toNat_lt
  rw [UInt8.ofNat_toNat] at hd
  exact hd h

/-- One step of `strcasecmp`, at the end of a string too. -/
theorem strcasecmp_eq_zero (cs ct : Bytes) :
    strcasecmp cs ct = 0 ↔
      fold_diff (deref cs) (deref ct) = 0 ∧ (deref cs = NUL ∨ strcasecmp cs.tail ct.tail = 0) := by
  cases cs with
  | nil => exact ⟨fun h => ⟨h, Or.inl rfl⟩, fun h => h.1⟩
  | cons c cs =>
      rw [strcasecmp]
      show (if fold_diff c (deref ct) ≠ 0 ∨ c = NUL then fold_diff c (deref ct)
        else strcasecmp cs ct.tail) = 0
          ↔ fold_diff c (deref ct) = 0 ∧ (c = NUL ∨ strcasecmp cs ct.tail = 0)
      by_cases hdiff : fold_diff c (deref ct) = 0
      · by_cases hnul : c = NUL
        · rw [if_pos (Or.inr hnul)]
          exact ⟨fun h => ⟨h, Or.inl hnul⟩, fun h => h.1⟩
        · rw [if_neg (by simp [hdiff, hnul])]
          exact ⟨fun h => ⟨hdiff, Or.inr h⟩, fun h => h.2.resolve_left hnul⟩
      · rw [if_pos (Or.inl hdiff)]
        exact ⟨fun h => absurd h hdiff, fun h => h.1⟩

/-- Strings that are the same in lower case agree. -/
theorem strcasecmp_of_lower (cs : Bytes) :
    ∀ ct : Bytes, cs.map (fun c => tolower (schar c)) = ct.map (fun c => tolower (schar c)) →
      strcasecmp cs ct = 0 := by
  induction cs with
  | nil =>
      intro ct h
      rw [List.map_eq_nil_iff.mp h.symm]
      rfl
  | cons c cs ih =>
      intro ct h
      cases ct with
      | nil => exact absurd h (by simp)
      | cons d ct =>
          obtain ⟨hhead, htail⟩ := List.cons.inj h
          exact (strcasecmp_eq_zero _ _).mpr
            ⟨(fold_diff_eq_zero c d).mpr hhead, Or.inr (ih ct htail)⟩

/-- **Strings without a NUL that agree** are the same in lower case. -/
theorem lower_of_strcasecmp (cs : Bytes) :
    ∀ ct : Bytes, NUL ∉ cs → NUL ∉ ct → strcasecmp cs ct = 0 →
      cs.map (fun c => tolower (schar c)) = ct.map (fun c => tolower (schar c)) := by
  induction cs with
  | nil =>
      intro ct _ hct h
      cases ct with
      | nil => rfl
      | cons d ct =>
          have hd := fold_diff_nul ((strcasecmp_eq_zero [] (d :: ct)).mp h).1
          exact absurd (hd ▸ List.mem_cons_self) hct
  | cons c cs ih =>
      intro ct hcs hct h
      have hc : c ≠ NUL := fun heq => hcs (heq ▸ List.mem_cons_self)
      obtain ⟨hhead, htail⟩ := (strcasecmp_eq_zero _ _).mp h
      have htail := htail.resolve_left hc
      cases ct with
      | nil => exact absurd (fold_diff_nul
          ((fold_diff_eq_zero _ _).mpr ((fold_diff_eq_zero _ _).mp hhead).symm)) hc
      | cons d ct =>
          rw [List.map_cons, List.map_cons, (fold_diff_eq_zero c d).mp hhead,
            ih ct (fun hm => hcs (List.mem_cons_of_mem c hm))
              (fun hm => hct (List.mem_cons_of_mem d hm)) htail]

/-- **Two strings that agree with a third agree.** -/
theorem strcasecmp_join (a : Bytes) :
    ∀ b x : Bytes, strcasecmp a x = 0 → strcasecmp b x = 0 → strcasecmp a b = 0 := by
  induction a with
  | nil =>
      intro b x ha hb
      have hb' := ((strcasecmp_eq_zero b x).mp hb).1
      exact (fold_diff_eq_zero _ _).mpr
        (((fold_diff_eq_zero _ _).mp ha).trans ((fold_diff_eq_zero _ _).mp hb').symm)
  | cons c a ih =>
      intro b x ha hb
      obtain ⟨hax, hatail⟩ := (strcasecmp_eq_zero _ _).mp ha
      obtain ⟨hbx, hbtail⟩ := (strcasecmp_eq_zero _ _).mp hb
      have hdiff : fold_diff (deref (c :: a)) (deref b) = 0 :=
        (fold_diff_eq_zero _ _).mpr
          (((fold_diff_eq_zero _ _).mp hax).trans ((fold_diff_eq_zero _ _).mp hbx).symm)
      refine (strcasecmp_eq_zero _ _).mpr ⟨hdiff, ?_⟩
      rcases hatail with hnul | hatail
      · exact Or.inl hnul
      rcases hbtail with hnul | hbtail
      · -- the other string ends here, so this one does
        rw [hnul] at hdiff
        exact Or.inl (fold_diff_nul
          ((fold_diff_eq_zero _ _).mpr ((fold_diff_eq_zero _ _).mp hdiff).symm))
      · exact Or.inr (ih _ _ hatail hbtail)

/-- A line that begins with a line break is not a field of any name. -/
theorem strncasecmp_blank (b : Byte) (s name : Bytes) (c : Byte) (count : Nat)
    (hb : b = CR ∨ b = LF) (hc : 33 ≤ (tolower (schar c)) ∧ tolower (schar c) < 128) :
    strncasecmp (b :: s) (c :: name) (count + 1) ≠ 0 := by
  have hdiff : fold_diff b c ≠ 0 := by
    unfold fold_diff
    rcases hb with rfl | rfl
    · have hval : tolower (schar CR) = 13 := by decide
      rw [hval, Int.bmod_def]
      omega
    · have hval : tolower (schar LF) = 10 := by decide
      rw [hval, Int.bmod_def]
      omega
  rw [strncasecmp]
  show (if fold_diff b c ≠ 0 ∨ b = NUL then fold_diff b c else _) ≠ 0
  rw [if_pos (Or.inl hdiff)]
  exact hdiff

theorem strncasecmp_end (cs ct : Bytes) (count : Nat) (h : deref cs = NUL) :
    strncasecmp cs ct (count + 1) = fold_diff NUL (deref ct) := by
  unfold strncasecmp
  simp only [h]
  exact if_pos (Or.inr trivial)

/-- `strncasecmp` reads a string up to its NUL. -/
theorem strncasecmp_nul (tail : Bytes) (count : Nat) :
    ∀ t ct : Bytes, strncasecmp (t ++ NUL :: tail) ct count = strncasecmp t ct count := by
  induction count with
  | zero => exact fun _ _ => rfl
  | succ count ih =>
      intro t ct
      cases t with
      | nil =>
          -- both read a NUL and stop
          rw [strncasecmp_end _ ct count rfl, strncasecmp_end _ ct count rfl]
      | cons c t =>
          rw [List.cons_append, strncasecmp, strncasecmp]
          show (if fold_diff c (deref ct) ≠ 0 ∨ c = NUL then fold_diff c (deref ct)
            else strncasecmp (t ++ NUL :: tail) ct.tail count) = _
          rw [ih]
          rfl

/-- What stands behind the NUL is not compared. -/
theorem os_strncasecmp_nul (tail : Bytes) (count : Nat) : ∀ s ct : Bytes,
    os_strncasecmp (s ++ NUL :: tail) ct count = os_strncasecmp s ct count := by
  induction count with
  | zero => intro s ct; rfl
  | succ count ih =>
      intro s ct
      cases s with
      | nil =>
          rw [List.nil_append, os_strncasecmp, os_strncasecmp]
          exact (if_pos (Or.inr rfl)).trans (if_pos (Or.inr rfl)).symm
      | cons c s =>
          rw [List.cons_append, os_strncasecmp, os_strncasecmp, List.tail_cons, List.tail_cons, ih]
          rfl

/-- Only a NUL is folded to a NUL. -/
theorem tolower_eq_zero {c : Byte} (h : tolower c.toNat = 0) : c = NUL := by
  unfold tolower at h
  have hzero : c.toNat = 0 := by
    split_ifs at h <;> omega
  exact UInt8.toNat_inj.mp hzero

theorem tolower_toNat (c : Byte) : tolower c.toNat = (tolower_char c).toNat := by
  have hall : ∀ n < 256, tolower (UInt8.ofNat n).toNat = (tolower_char (UInt8.ofNat n)).toNat := by
    decide +kernel
  have hc := hall c.toNat c.toNat_lt
  rwa [UInt8.ofNat_toNat] at hc

/-- **Without a NUL in front of its end**, a text agrees with those of its letters. -/
theorem os_strcasecmp_eq_zero_iff (cs : Bytes) (tail : Bytes) (hcs : NUL ∉ cs) :
    ∀ ct : Bytes, NUL ∉ ct →
      (os_strcasecmp cs (ct ++ NUL :: tail) = 0 ↔ tolower_str ct = tolower_str cs) := by
  have hnul : ∀ c : Byte, tolower c.toNat = 0 ↔ c = NUL := fun c =>
    ⟨tolower_eq_zero, fun hc => hc ▸ rfl⟩
  induction cs with
  | nil =>
      intro ct hct
      cases ct with
      | nil => exact iff_of_true rfl rfl
      | cons d ct =>
          -- the first text has ended
          have hd : d ≠ NUL := fun h => hct (h ▸ List.mem_cons_self)
          refine iff_of_false ?_ (List.cons_ne_nil _ _)
          show tolower 0 - tolower d.toNat ≠ 0
          have hzero : tolower 0 = 0 := rfl
          rw [hzero, Int.zero_sub, Int.neg_ne_zero]
          exact (hnul d).not.mpr hd
  | cons c cs ih =>
      intro ct hct
      have hc : c ≠ NUL := fun h => hcs (h ▸ List.mem_cons_self)
      have hrest := ih fun h => hcs (List.mem_cons_of_mem c h)
      rw [os_strcasecmp]
      cases ct with
      | nil =>
          have hdiff : tolower c.toNat - tolower (deref ([] ++ NUL :: tail)).toNat ≠ 0 := by
            show tolower c.toNat - 0 ≠ 0
            rw [Int.sub_zero]
            exact (hnul c).not.mpr hc
          rw [if_pos (Or.inl hdiff)]
          exact iff_of_false hdiff (List.cons_ne_nil _ _).symm
      | cons d ct =>
          show (if tolower c.toNat - tolower d.toNat ≠ 0 ∨ c = NUL then
            tolower c.toNat - tolower d.toNat else os_strcasecmp cs (ct ++ NUL :: tail)) = 0 ↔
              tolower_char d :: tolower_str ct = tolower_char c :: tolower_str cs
          rw [List.cons.injEq, ← hrest ct fun h => hct (List.mem_cons_of_mem d h)]
          by_cases hcd : tolower c.toNat - tolower d.toNat = 0
          · have hsame : tolower_char d = tolower_char c := by
              rw [tolower_toNat, tolower_toNat] at hcd
              exact UInt8.toNat_inj.mp (by omega)
            rw [if_neg (fun h => h.elim (fun h => h hcd) hc)]
            exact (and_iff_right hsame).symm
          · rw [if_pos (Or.inl hcd)]
            refine iff_of_false hcd fun h => hcd ?_
            rw [tolower_toNat, tolower_toNat, h.1, Int.sub_self]

/-- What stands behind the NUL is not copied. -/
theorem c_str_append_nul (s tail : Bytes) : c_str (s ++ NUL :: tail) = c_str s := by
  induction s with
  | nil => exact c_str_nul tail
  | cons c s ih =>
      by_cases hc : c = NUL
      · rw [hc, List.cons_append, c_str_nul, c_str_nul]
      · rw [List.cons_append, c_str_cons hc, c_str_cons hc, ih]

/-- A string that agrees with `count` bytes is as long as they are. -/
theorem length_of_strncasecmp (count : Nat) :
    ∀ t ct : Bytes, strncasecmp t ct count = 0 → NUL ∉ ct → count ≤ ct.length →
      count ≤ t.length := by
  induction count with
  | zero => exact fun _ _ _ _ _ => Nat.zero_le _
  | succ count ih =>
      intro t ct h hct hle
      cases ct with
      | nil => exact absurd hle (by simp)
      | cons d ct =>
          rw [List.mem_cons, not_or] at hct
          cases t with
          | nil =>
              rw [strncasecmp_end _ _ count rfl] at h
              exact absurd (fold_diff_nul h).symm hct.1
          | cons c t =>
              rw [strncasecmp] at h
              rw [List.length_cons] at hle ⊢
              split at h
              · rename_i hstop
                rcases hstop with hne | hc
                · exact absurd h hne
                · have hc' : c = NUL := hc
                  have h' : fold_diff c d = 0 := h
                  rw [hc'] at h'
                  exact absurd (fold_diff_nul h').symm hct.1
              · have hrest := ih t ct h hct.2 (by omega)
                omega

/-- `strncasecmp` looks at no more than `count` bytes. -/
theorem strncasecmp_take (count : Nat) :
    ∀ t ct : Bytes, strncasecmp (t.take count) ct count = strncasecmp t ct count := by
  induction count with
  | zero => exact fun _ _ => rfl
  | succ count ih =>
      intro t ct
      cases t with
      | nil => rw [List.take_nil]
      | cons c t =>
          have hrest := ih t ct.tail
          rw [List.take_succ_cons, strncasecmp, strncasecmp]
          show (if _ then _ else strncasecmp (t.take count) ct.tail count) = _
          rw [hrest]
          rfl

/-- What agrees in `count` bytes is the same in lower case. -/
theorem lower_of_strncasecmp (count : Nat) :
    ∀ t ct : Bytes, strncasecmp t ct count = 0 → NUL ∉ ct → count ≤ ct.length →
      (t.take count).map (fun c => tolower (schar c))
        = (ct.take count).map fun c => tolower (schar c) := by
  induction count with
  | zero => exact fun _ _ _ _ _ => rfl
  | succ count ih =>
      intro t ct h hct hle
      have hlen := length_of_strncasecmp (count + 1) t ct h hct hle
      obtain ⟨c, t, rfl⟩ := List.exists_cons_of_length_pos (by omega : 0 < t.length)
      obtain ⟨d, ct, rfl⟩ := List.exists_cons_of_length_pos (by omega : 0 < ct.length)
      rw [List.mem_cons, not_or] at hct
      rw [strncasecmp] at h
      change (if fold_diff c d ≠ 0 ∨ c = NUL then fold_diff c d else strncasecmp t ct count) = 0 at h
      have hdiff : fold_diff c d = 0 := by
        by_contra hne
        rw [if_pos (Or.inl hne)] at h
        exact hne h
      have hnul : c ≠ NUL := by
        intro hc
        rw [hc] at hdiff
        exact hct.1 (fold_diff_nul hdiff).symm
      rw [if_neg (by simp [hdiff, hnul])] at h
      rw [List.take_succ_cons, List.take_succ_cons, List.map_cons, List.map_cons,
        ih t ct h hct.2 (by simpa using hle), (fold_diff_eq_zero c d).mp hdiff]

/-- A string in lower case. -/
def lower (s : Bytes) : List Int := s.map fun c => tolower (schar c)

theorem tolower_nul_iff (c : Byte) : tolower (schar c) = tolower (schar NUL) ↔ c = NUL := by
  constructor
  · intro h
    exact fold_diff_nul ((fold_diff_eq_zero NUL c).mpr h.symm)
  · intro h
    rw [h]

theorem lower_deref {a b : Bytes} (h : lower a = lower b) :
    tolower (schar (deref a)) = tolower (schar (deref b)) ∧ lower a.tail = lower b.tail := by
  cases a with
  | nil =>
      obtain rfl := List.map_eq_nil_iff.mp h.symm
      exact ⟨rfl, rfl⟩
  | cons c a =>
      cases b with
      | nil => exact absurd h (List.cons_ne_nil _ _)
      | cons d b =>
          obtain ⟨hhead, htail⟩ := List.cons.inj h
          exact ⟨hhead, htail⟩

/-- `strncasecmp` sees the strings in lower case alone. -/
theorem strncasecmp_congr (count : Nat) :
    ∀ {a a' b b' : Bytes}, lower a = lower a' → lower b = lower b' →
      strncasecmp a b count = strncasecmp a' b' count := by
  induction count with
  | zero => intro a a' b b' _ _; rfl
  | succ count ih =>
      intro a a' b b' ha hb
      obtain ⟨ha0, hatail⟩ := lower_deref ha
      obtain ⟨hb0, hbtail⟩ := lower_deref hb
      have hdiff : fold_diff (deref a) (deref b) = fold_diff (deref a') (deref b') := by
        unfold fold_diff
        rw [ha0, hb0]
      have hnul : deref a = NUL ↔ deref a' = NUL := by
        rw [← tolower_nul_iff, ← tolower_nul_iff, ha0]
      rw [strncasecmp, strncasecmp, hdiff, ih hatail hbtail]
      exact if_congr (or_congr Iff.rfl hnul) rfl rfl

theorem strncasecmp_self (count : Nat) : ∀ a : Bytes, strncasecmp a a count = 0 := by
  induction count with
  | zero => exact fun _ => rfl
  | succ count ih =>
      intro a
      have hdiff : fold_diff (deref a) (deref a) = 0 := (fold_diff_eq_zero _ _).mpr rfl
      rw [strncasecmp, hdiff, ih]
      exact ite_self 0

/-- Up to letter case `b` is the begin of `a`, each read up to its NUL; where `b` has a
    NUL, it is the whole of `a`. -/
def Begins (b a : Bytes) : Prop :=
  lower (c_str b) <+: lower (c_str a) ∧ (NUL ∈ b → (c_str a).length = (c_str b).length)

instance (b a : Bytes) : Decidable (Begins b a) := inferInstanceAs (Decidable (_ ∧ _))

/-- **What the comparison of two names sees**: as many characters as the new one has. -/
theorem strncasecmp_begins_iff (b : Bytes) :
    ∀ a : Bytes, strncasecmp a b b.length = 0 ↔ Begins b a := by
  induction b with
  | nil =>
      intro a
      exact ⟨fun _ => ⟨List.nil_prefix, fun h => absurd h List.not_mem_nil⟩, fun _ => rfl⟩
  | cons d b ih =>
      intro a
      rw [List.length_cons]
      by_cases hend : deref a = NUL
      · -- the old name ends here
        have ha : c_str a = [] := by
          cases a with
          | nil => rfl
          | cons c a =>
              obtain rfl : c = NUL := hend
              exact c_str_nul a
        rw [strncasecmp_end _ _ _ hend]
        constructor
        · intro h
          obtain rfl : d = NUL := fold_diff_nul h
          rw [Begins, c_str_nul, ha]
          exact ⟨List.nil_prefix, fun _ => rfl⟩
        · intro h
          have hd : d = NUL := by
            by_contra hd
            have hpre := h.1
            rw [c_str_cons hd, ha] at hpre
            exact absurd (List.prefix_nil.mp hpre) (List.cons_ne_nil _ _)
          rw [hd]
          exact (fold_diff_eq_zero _ _).mpr rfl
      · obtain ⟨c, a, rfl⟩ : ∃ c a', a = c :: a' := by
          cases a with
          | nil => exact absurd rfl hend
          | cons c a => exact ⟨c, a, rfl⟩
        have hc : c ≠ NUL := hend
        have hstep : strncasecmp (c :: a) (d :: b) (b.length + 1) = 0
            ↔ tolower (schar c) = tolower (schar d) ∧ strncasecmp a b b.length = 0 := by
          rw [← fold_diff_eq_zero, strncasecmp]
          show (if fold_diff c d ≠ 0 ∨ c = NUL then fold_diff c d else strncasecmp a b b.length) = 0
            ↔ _
          by_cases hdiff : fold_diff c d = 0
          · rw [if_neg (by simp [hdiff, hc])]
            exact ⟨fun h => ⟨hdiff, h⟩, fun h => h.2⟩
          · rw [if_pos (Or.inl hdiff)]
            exact ⟨fun h => absurd h hdiff, fun h => h.1⟩
        rw [hstep, ih]
        by_cases hd : d = NUL
        · -- the new name ends here
          subst hd
          rw [tolower_nul_iff, Begins, Begins, c_str_nul, c_str_cons hc]
          constructor
          · exact fun h => absurd h.1 hc
          · exact fun h => absurd (h.2 List.mem_cons_self) (Nat.succ_ne_zero _)
        · rw [Begins, Begins, c_str_cons hc, c_str_cons hd]
          have hmem : NUL ∈ d :: b ↔ NUL ∈ b := by
            rw [List.mem_cons]
            exact or_iff_right (fun h => hd h.symm)
          rw [hmem, List.length_cons, List.length_cons, Nat.succ_inj]
          show _ ↔ tolower (schar d) :: lower (c_str b) <+: tolower (schar c) :: lower (c_str a) ∧ _
          rw [List.cons_prefix_cons, eq_comm, and_assoc]

end Aos
