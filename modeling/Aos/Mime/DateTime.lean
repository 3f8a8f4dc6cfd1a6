/-
  Aos.Mime.DateTime — the time of a `MIME_Date`, and its text.

  `gmt_mktime` has `mktime` take the fields for local time, takes the local zone off again
  and puts the zone of the date on.  What `mktime` takes off for daylight saving stays off.
  A date without a zone has its zone at -1, and is put on like any other.

  Main results:
    • `gmt_mktime_iff` — when a calendar in the date's own zone shows what the text says;
    • `to_string_parsed_iff` — when `from_string` reads back what `to_string` writes.
-/
import Aos.Mime.DateText
import Aos.Log.Period

namespace Aos

open Lib.Calendar

namespace MIME_Date

/-! ## §1. Times. -/

/-- Local time, as the C library knows it. -/
structure Zone where
  /-- `timezone()`, the seconds west of UTC -/
  timezone : Int
  /-- by how much the clocks are put on at a local second -/
  dst : Int → Int

def tm (d : MIME_Date) : Aos.tm := ⟨d.tm_sec, d.tm_min, d.tm_hour, d.tm_mday, d.tm_mon, d.tm_year⟩

/-- `::mktime`, with a `tm_isdst` of -1. -/
def mktime (z : Zone) (t : Aos.tm) : Int := Aos.mktime (-z.timezone) t - z.dst (to_seconds t.fields)

/-- `gmt_mktime(apply_tz)` -/
def gmt_mktime (z : Zone) (d : MIME_Date) (apply_tz : Bool) : Int :=
  let time := mktime z d.tm - z.timezone -- adjust to GMT time
  if apply_tz then time + d.tm_gmtoff else time

/-- `to_string()`, without a format. -/
def to_string (d : MIME_Date) : Bytes := strftime (lit "%Y-%m-%d %H:%M:%S") d.tm

/-- The fields are taken for the time in Greenwich, but for daylight saving. -/
theorem gmt_mktime_eq (z : Zone) (d : MIME_Date) :
    gmt_mktime z d false = to_seconds d.tm.fields - epoch - z.dst (to_seconds d.tm.fields) := by
  unfold gmt_mktime mktime Aos.mktime
  simp only [Bool.false_eq_true, if_false]
  omega

theorem gmt_mktime_zone (z : Zone) (d : MIME_Date) :
    gmt_mktime z d true = gmt_mktime z d false + d.tm_gmtoff := rfl

/-! ## §2. The time a text says. -/

namespace Date_Text

variable (d : Date_Text)

/-- What a calendar in the zone of the text shows then. -/
def shown : Lib.Calendar.Fields := ⟨d.year, d.month.val, d.mday, d.hour, d.min, d.sec⟩

/-- The seconds by which that zone is in front of UTC. -/
def offset : Int :=
  if d.sign = 43 then 3600 * d.zone_hour + 60 * d.zone_min else -(3600 * d.zone_hour + 60 * d.zone_min)

theorem fields_meant : d.meant.tm.fields = d.shown := by
  show Lib.Calendar.Fields.mk ((d.year : Int) - 1900 + 1900) _ _ _ _ _ = _
  rw [Int.sub_add_cancel]
  rfl

theorem gmtoff_meant : d.meant.tm_gmtoff = -d.offset := by
  unfold meant offset
  dsimp only
  split_ifs
  · rfl
  · omega

/-- The passes give what the text says. -/
theorem scan_text (overflow : Bytes → Int) : (from_string overflow d.text).2 = d.meant := by
  have hyear := d.year_ok
  have hmday := d.mday_ok
  unfold from_string before_zone passes
  rw [show tokens d.text = d.wday_text.toList ++ d.parts from d.tokens_text, d.find_date_parts,
    d.find_time_parts, d.find_weekday_parts _ _ rfl, d.find_month_parts _ _ _ rfl]
  -- the year and the day are there
  rw [Date_Scan.find_year, if_neg (show ¬ ((d.year : Int) - 1900 = -1) by omega), Date_Scan.find_day,
    if_neg (show ¬ ((d.mday : Int) = -1) by omega), d.find_zone_parts _ _ _ rfl]
  rfl

/-- **The time of a text.**  A calendar in the zone of the text shows at that time what the
    text says if and only if there is such a day, and the local clocks are not put on then. -/
theorem gmt_mktime_iff (z : Zone) (overflow : Bytes → Int) :
    of_seconds (gmt_mktime z (from_string overflow d.text).2 true + d.offset + epoch) = d.shown ↔
      d.shown.Proper ∧ z.dst (to_seconds d.shown) = 0 := by
  have htime : gmt_mktime z (from_string overflow d.text).2 true + d.offset + epoch
      = to_seconds d.shown - z.dst (to_seconds d.shown) := by
    rw [d.scan_text, gmt_mktime_zone, gmt_mktime_eq, d.fields_meant, d.gmtoff_meant]
    omega
  rw [htime]
  constructor
  · intro hshown
    have hsame := to_of_seconds (to_seconds d.shown - z.dst (to_seconds d.shown))
    rw [hshown] at hsame
    exact ⟨hshown ▸ of_seconds_proper _, by omega⟩
  · intro hboth
    rw [hboth.2, Int.sub_zero]
    exact of_to_seconds hboth.1

end Date_Text

/-! ## §3. The text of a date. -/

/-- The fields are such that every conversion has its width. -/
structure Printable (d : MIME_Date) : Prop where
  sec : 0 ≤ d.tm_sec ∧ d.tm_sec ≤ 59
  min : 0 ≤ d.tm_min ∧ d.tm_min ≤ 59
  hour : 0 ≤ d.tm_hour ∧ d.tm_hour ≤ 23
  mday : 1 ≤ d.tm_mday ∧ d.tm_mday ≤ 31
  mon : 0 ≤ d.tm_mon ∧ d.tm_mon ≤ 11
  year : -900 ≤ d.tm_year ∧ d.tm_year ≤ 8099

/-- `%02d` of a number of two digits at most. -/
theorem dec2_two {n : Int} (h : 0 ≤ n ∧ n < 100) : dec2 n = two n.toNat := by
  have hall : ∀ k < 100, dec2 (k : Nat) = two k := by decide +kernel
  have hn : ((n.toNat : Nat) : Int) = n := Int.toNat_of_nonneg h.1
  have hk := hall n.toNat (by omega)
  rwa [hn] at hk

/-- `%d` of a number of four digits. -/
theorem dec_four {n : Int} (h : 1000 ≤ n ∧ n < 10000) : dec_int n = four n.toNat := by
  obtain ⟨k, rfl⟩ : ∃ k : Nat, n = k := ⟨n.toNat, (Int.toNat_of_nonneg (by omega)).symm⟩
  obtain ⟨h1, h2⟩ : 1000 ≤ k ∧ k < 10000 := by omega
  have hdigits : Nat.digits 10 k = [k % 10, k / 10 % 10, k / 100 % 10, k / 1000] := by
    rw [Nat.digits_def' (by omega) (by omega), Nat.digits_def' (by omega) (by omega),
      Nat.digits_def' (by omega) (by omega), Nat.digits_of_lt 10 _ (by omega) (by omega)]
    simp only [Nat.div_div_eq_div_mul]
  unfold dec_int dec four two digit
  rw [if_neg (by omega), Int.toNat_natCast, if_neg (by omega), hdigits]
  have h₁ : k / 100 / 10 = k / 1000 := by omega
  have h₂ : k % 100 / 10 = k / 10 % 10 := by omega
  have h₃ : k % 100 % 10 = k % 10 := by omega
  rw [h₁, h₂, h₃]
  rfl

section Text

open Date_Text (isdigit_spec explode_split explode_last number_two number_of_digits mark_none apr_30)

/-- No token is a name, or a zone. -/
theorem no_other {t : Bytes} (ht : isdigit (deref t) = true ∨ ∃ t', t = mark t')
    (overflow : Bytes → Int) (ab full : List Bytes) :
    name_of ab full t = none ∧ zone_of overflow t = none := by
  rcases ht with hdigit | ⟨t', rfl⟩
  · obtain ⟨halpha, _, hplus, hminus, _⟩ := isdigit_spec hdigit
    exact ⟨name_of_none ab full halpha, zone_of_none overflow ⟨hplus, hminus⟩⟩
  · exact mark_none overflow ab full t'

/-- The loops for the names and the zone find nothing in such tokens. -/
theorem nothing_else {date : MIME_Date} {ts : List Bytes} (count : Int)
    (hts : ∀ t ∈ ts, isdigit (deref t) = true ∨ ∃ t', t = mark t') (overflow : Bytes → Int) :
    (Date_Scan.mk date ts count).find_weekday = ⟨date, ts, count⟩ ∧
    (Date_Scan.mk date ts count).find_month overflow = ⟨date, ts, count⟩ ∧
    (Date_Scan.mk date ts count).find_zone overflow = ⟨date, ts, count⟩ := by
  have hname : ∀ ab full, ∀ t ∈ ts, name_of ab full t = none :=
    fun ab full t ht => (no_other (hts t ht) overflow ab full).1
  have hzone : ∀ t ∈ ts, zone_of overflow t = none :=
    fun t ht => (no_other (hts t ht) overflow [] []).2
  refine ⟨?_, ?_, ?_⟩
  · unfold Date_Scan.find_weekday
    rw [every_token_none (hname _ _)]
    exact ite_self _
  · unfold Date_Scan.find_month
    dsimp only
    rw [every_token_none (hname _ _)]
    exact ite_self _
  · unfold Date_Scan.find_zone
    dsimp only
    rw [first_token_none hzone]
    exact ite_self _

variable {d : MIME_Date} (h : Printable d)

/-- `YYYY-MM-DD` -/
def date_text (d : MIME_Date) : Bytes :=
  four (d.tm_year + 1900).toNat ++ 45 :: (two (d.tm_mon + 1).toNat ++ 45 :: two d.tm_mday.toNat)

/-- `HH:MM:SS` -/
def time_text (d : MIME_Date) : Bytes :=
  two d.tm_hour.toNat ++ 58 :: (two d.tm_min.toNat ++ 58 :: two d.tm_sec.toNat)

include h

theorem to_string_text : to_string d = date_text d ++ SP :: time_text d := by
  have hsec := h.sec
  have hmin := h.min
  have hhour := h.hour
  have hmday := h.mday
  have hmon := h.mon
  have hyear := h.year
  show dec_int (d.tm_year + 1900) ++ 45 :: (dec2 (d.tm_mon + 1) ++ 45 :: (dec2 d.tm_mday ++
    SP :: (dec2 d.tm_hour ++ 58 :: (dec2 d.tm_min ++ 58 :: (dec2 d.tm_sec ++ []))))) = _
  rw [dec_four (by omega), dec2_two (by omega), dec2_two (by omega), dec2_two (by omega),
    dec2_two (by omega), dec2_two (by omega), List.append_nil]
  simp [date_text, time_text]

theorem four_digits : ∀ c ∈ four (d.tm_year + 1900).toNat, isdigit c = true := by
  have hyear := h.year
  intro c hc
  rcases List.mem_append.mp hc with hc | hc
  · exact two_digits (by omega) c hc
  · exact two_digits (by omega) c hc

/-- The token of the date. -/
theorem date_of_text (overflow : Bytes → Int) :
    date_of overflow (date_text d) =
      if 0 ≤ d.tm_year then some (d.tm_year + 1900, d.tm_mon + 1, d.tm_mday) else none := by
  have hmday := h.mday
  have hmon := h.mon
  have hyear := h.year
  have hfour := four_digits h
  have hvalue : value (four (d.tm_year + 1900).toNat) = (d.tm_year + 1900).toNat := by
    have hhigh : value (two ((d.tm_year + 1900).toNat / 100)) = (d.tm_year + 1900).toNat / 100 :=
      (value_two [] (by omega)).trans (Nat.zero_add _)
    show value (two _ ++ two _) = _
    rw [value_two _ (by omega), hhigh]
    omega
  have hdash : ∀ {t : Bytes}, (∀ c ∈ t, isdigit c = true) → (45 : Byte) ∉ t :=
    fun ht hmem => (isdigit_spec (ht 45 hmem)).2.2.2.1 rfl
  have hexplode : explode 45 [] (date_text d) =
      [four (d.tm_year + 1900).toNat, two (d.tm_mon + 1).toNat, two d.tm_mday.toNat] := by
    unfold date_text
    rw [explode_split (hdash hfour), explode_split (hdash (two_digits (by omega))),
      explode_last (hdash (two_digits (by omega)))]
    rfl
  have hfirst : ∀ n, n < 100 → isdigit (deref (two n)) = true :=
    fun n hn => two_digits hn _ List.mem_cons_self
  have hbegin : isdigit (deref (date_text d)) = true := hfour _ List.mem_cons_self
  have hlen : (date_text d).length = 10 := rfl
  have hnumber : number overflow (four (d.tm_year + 1900).toNat) = d.tm_year + 1900 := by
    have hne : four (d.tm_year + 1900).toNat ≠ [] := List.cons_ne_nil _ _
    rw [number_of_digits overflow hne hfour (by omega), hvalue]
    exact Int.toNat_of_nonneg (by omega)
  have htwo : ∀ n : Int, 0 ≤ n ∧ n < 100 → number overflow (two n.toNat) = n := by
    intro n hn
    rw [number_two overflow (by omega)]
    exact Int.toNat_of_nonneg hn.1
  unfold date_of
  rw [if_neg (by rw [hbegin, hlen]; decide), hexplode]
  dsimp only
  rw [hnumber, htwo _ (by omega), htwo _ (by omega), hfirst _ (by omega), hfirst _ (by omega)]
  by_cases hold : 0 ≤ d.tm_year
  · rw [if_neg (by omega), if_neg (by simp), if_neg (by omega), if_neg (by simp), if_neg (by omega),
      if_pos hold]
  · rw [if_pos (by omega), if_neg hold]

/-- A text with this time of the day. -/
def timed : Date_Text :=
  { apr_30 with
    hour := d.tm_hour.toNat, hour_ok := by have := h.hour; omega
    min := d.tm_min.toNat, min_ok := by have := h.min; omega
    sec := d.tm_sec.toNat, sec_ok := by have := h.sec; omega }

/-- The token of the time. -/
theorem time_of_text (overflow : Bytes → Int) :
    time_of overflow (time_text d) = some (d.tm_hour, d.tm_min, d.tm_sec) := by
  have hback : ∀ n : Int, 0 ≤ n → ((n.toNat : Nat) : Int) = n := fun n hn => Int.toNat_of_nonneg hn
  have hread := (timed h).time_of_time overflow
  have hsame : some (((timed h).hour : Int), ((timed h).min : Int), ((timed h).sec : Int))
      = some (d.tm_hour, d.tm_min, d.tm_sec) := by
    show some (((d.tm_hour.toNat : Nat) : Int), ((d.tm_min.toNat : Nat) : Int),
      ((d.tm_sec.toNat : Nat) : Int)) = _
    rw [hback _ h.hour.1, hback _ h.min.1, hback _ h.sec.1]
  exact hread.trans hsame

/-- Both begin with a digit. -/
theorem text_begins : isdigit (deref (date_text d)) = true ∧ isdigit (deref (time_text d)) = true :=
  ⟨four_digits h _ List.mem_cons_self,
    two_digits (by have := h.hour; omega) _ List.mem_cons_self⟩

/-- The two tokens. -/
theorem tokens_to_string : tokens (to_string d) = [date_text d, time_text d] := by
  have hmon := h.mon
  have hmday := h.mday
  have hdate : Part (date_text d) := by
    refine ⟨List.cons_ne_nil _ _, fun b hb => part_char ?_, push_back_digit (text_begins h).1⟩
    rcases List.mem_append.mp hb with hb | hb
    · exact Or.inl (four_digits h b hb)
    rcases List.mem_cons.mp hb with rfl | hb
    · simp
    rcases List.mem_append.mp hb with hb | hb
    · exact Or.inl (two_digits (by omega) b hb)
    rcases List.mem_cons.mp hb with rfl | hb
    · simp
    · exact Or.inl (two_digits (by omega) b hb)
  have htime : Part (time_text d) := (timed h).time_part
  have hnul : ∀ {t : Bytes}, Part t → NUL ∉ t := fun ht hmem => (ht.chars NUL hmem).2 rfl
  let behind : Spaced := ⟨[SP], time_text d, List.cons_ne_nil _ _,
    fun b hb => by rw [List.mem_singleton.mp hb]; decide, htime.ne,
    fun b hb => (htime.chars b hb).1⟩
  have htext : to_string d = date_text d ++ [behind].flatMap fun x => x.gap ++ x.token := by
    rw [to_string_text h]
    exact congrArg (date_text d ++ ·) (List.append_nil (SP :: time_text d)).symm
  rw [htext, tokens_spaced hdate.ne (fun b hb => (hdate.chars b hb).1) [behind]
    (no_nul (by simpa [behind] using hnul htime) (hnul hdate)), hdate.kept]
  show [date_text d] ++ (push_back (time_text d) ++ []) = _
  rw [htime.kept]
  rfl

/-- What `from_string` makes of a year from 1900 on. -/
theorem scan_new (overflow : Bytes → Int) (hnew : 0 ≤ d.tm_year) :
    from_string overflow (to_string d) = (-1, { d with tm_wday := -1, tm_gmtoff := -1 }) := by
  have hmday := h.mday
  have hmon := h.mon
  have hbegin := text_begins h
  have hdate : first_token (date_of overflow) [date_text d, time_text d]
      = some ((d.tm_year + 1900, d.tm_mon + 1, d.tm_mday), [mark (date_text d), time_text d]) :=
    first_token_at (fun t ht => absurd ht List.not_mem_nil)
      ((date_of_text h overflow).trans (if_pos hnew)) [time_text d]
  have htime : first_token (time_of overflow) [mark (date_text d), time_text d]
      = some ((d.tm_hour, d.tm_min, d.tm_sec), [mark (date_text d), mark (time_text d)]) := by
    have hmarked : time_of overflow (mark (date_text d)) = none := time_of_none overflow (Or.inl rfl)
    exact @first_token_at _ _ [mark (date_text d)] _ _
      (fun t ht => by rw [List.mem_singleton.mp ht]; exact hmarked) (time_of_text h overflow) []
  have hmarks : ∀ t ∈ [mark (date_text d), mark (time_text d)],
      isdigit (deref t) = true ∨ ∃ t', t = mark t' := by
    intro t ht
    simp only [List.mem_cons, List.not_mem_nil, or_false] at ht
    rcases ht with rfl | rfl
    · exact Or.inr ⟨_, rfl⟩
    · exact Or.inr ⟨_, rfl⟩
  have hfirst : (Date_Scan.mk reset [date_text d, time_text d] 0).find_date overflow
      = ⟨{ reset with tm_year := d.tm_year, tm_mon := d.tm_mon, tm_mday := d.tm_mday },
        [mark (date_text d), time_text d], 3⟩ := by
    unfold Date_Scan.find_date
    dsimp only
    rw [if_pos (by decide), hdate]
    simp only [add_sub_cancel_right]
    rfl
  have hsecond : ∀ date : MIME_Date, date.tm_hour < 0 →
      (Date_Scan.mk date [mark (date_text d), time_text d] 3).find_time overflow
        = ⟨{ date with tm_sec := d.tm_sec, tm_min := d.tm_min, tm_hour := d.tm_hour },
          [mark (date_text d), mark (time_text d)], 6⟩ := by
    intro date hunset
    unfold Date_Scan.find_time
    dsimp only
    rw [if_pos hunset, htime]
    rfl
  unfold from_string before_zone passes
  rw [tokens_to_string h, hfirst, hsecond _ (show (-1 : Int) < 0 by decide), (nothing_else 6 hmarks overflow).1,
    (nothing_else 6 hmarks overflow).2.1, Date_Scan.find_year,
    if_neg (show ¬ d.tm_year = -1 by omega), Date_Scan.find_day,
    if_neg (show ¬ d.tm_mday = -1 by omega), (nothing_else 6 hmarks overflow).2.2]
  rfl

/-- One in front of 1900 is not taken, and with it no month. -/
theorem scan_old (overflow : Bytes → Int) (hold : ¬ 0 ≤ d.tm_year) :
    (from_string overflow (to_string d)).2.tm_mon = -1 := by
  have hmday := h.mday
  have hmon := h.mon
  have hbegin := text_begins h
  have hnodate : first_token (date_of overflow) [date_text d, time_text d] = none := by
    refine first_token_none ?_
    intro t ht
    simp only [List.mem_cons, List.not_mem_nil, or_false] at ht
    rcases ht with rfl | rfl
    · exact (date_of_text h overflow).trans (if_neg hold)
    · exact date_of_none overflow (Or.inr (by decide : 8 < 10))
  -- without a colon there is no time
  have hnotime : time_of overflow (date_text d) = none := by
    have hcolon : (58 : Byte) ∉ date_text d := by
      have hno : ∀ {t : Bytes}, (∀ c ∈ t, isdigit c = true) → (58 : Byte) ∉ t :=
        fun ht hmem => (isdigit_spec (ht 58 hmem)).2.1 rfl
      have hyear := hno (four_digits h)
      have hmonth := hno (two_digits (show (d.tm_mon + 1).toNat < 100 by omega))
      have hday := hno (two_digits (show d.tm_mday.toNat < 100 by omega))
      unfold date_text
      simp only [List.mem_append, List.mem_cons]
      have hne : (58 : Byte) ≠ 45 := by decide
      tauto
    unfold time_of
    rw [explode_last hcolon]
    exact ite_self _
  have htime : first_token (time_of overflow) [date_text d, time_text d]
      = some ((d.tm_hour, d.tm_min, d.tm_sec), [date_text d, mark (time_text d)]) :=
    @first_token_at _ _ [date_text d] _ _
      (fun t ht => by rw [List.mem_singleton.mp ht]; exact hnotime) (time_of_text h overflow) []
  have hrest : ∀ t ∈ [date_text d, mark (time_text d)],
      isdigit (deref t) = true ∨ ∃ t', t = mark t' := by
    intro t ht
    simp only [List.mem_cons, List.not_mem_nil, or_false] at ht
    rcases ht with rfl | rfl
    · exact Or.inl hbegin.1
    · exact Or.inr ⟨_, rfl⟩
  have hlong : ∀ t ∈ [date_text d, mark (time_text d)], t.length ≠ 4 ∧ t.length ≠ 2 := by
    intro t ht
    simp only [List.mem_cons, List.not_mem_nil, or_false] at ht
    rcases ht with rfl | rfl
    · exact (by decide : (10 : Nat) ≠ 4 ∧ (10 : Nat) ≠ 2)
    · exact (by decide : (8 : Nat) ≠ 4 ∧ (8 : Nat) ≠ 2)
  have hnoyear : first_token (year_of overflow) [date_text d, mark (time_text d)] = none :=
    first_token_none fun t ht => if_pos (hlong t ht).1
  have hnoday : first_token (day_of overflow) [date_text d, mark (time_text d)] = none :=
    first_token_none fun t ht => if_pos (hlong t ht).2
  have hfirst : (Date_Scan.mk reset [date_text d, time_text d] 0).find_date overflow
      = ⟨reset, [date_text d, time_text d], 0⟩ := by
    unfold Date_Scan.find_date
    dsimp only
    rw [hnodate]
    exact ite_self _
  have hsecond : (Date_Scan.mk reset [date_text d, time_text d] 0).find_time overflow
      = ⟨{ reset with tm_sec := d.tm_sec, tm_min := d.tm_min, tm_hour := d.tm_hour },
        [date_text d, mark (time_text d)], 3⟩ := by
    unfold Date_Scan.find_time
    dsimp only
    rw [if_pos (by decide), htime]
    rfl
  unfold from_string before_zone passes
  rw [tokens_to_string h, hfirst, hsecond, (nothing_else 3 hrest overflow).1,
    (nothing_else 3 hrest overflow).2.1, Date_Scan.find_year]
  dsimp only
  rw [hnoyear, ite_self, Date_Scan.find_day]
  dsimp only
  rw [hnoday, ite_self, (nothing_else 3 hrest overflow).2.2]
  rfl

/-- **What `to_string` writes is read back**, but for the weekday and the zone, from 1900
    on and not before.  Its time is then a second early: a zone that is not there is -1. -/
theorem to_string_parsed_iff (z : Zone) (overflow : Bytes → Int) :
    (from_string overflow (to_string d) = (-1, { d with tm_wday := -1, tm_gmtoff := -1 }) ↔
      0 ≤ d.tm_year) ∧
    (0 ≤ d.tm_year →
      gmt_mktime z (from_string overflow (to_string d)).2 true = gmt_mktime z d false - 1) := by
  refine ⟨⟨?_, scan_new h overflow⟩, ?_⟩
  · intro hread
    by_contra hold
    have hmon := h.mon
    have hunset := scan_old h overflow hold
    rw [hread] at hunset
    have hsame : d.tm_mon = -1 := hunset
    omega
  · intro hnew
    rw [scan_new h overflow hnew]
    exact Int.add_neg_one _

end Text

/-- Midnight of the first of 1970. -/
theorem to_string_parsed_epoch :
    from_string (fun _ => 0) (to_string ⟨0, 0, 0, 1, 0, 70, 4, 0⟩)
      = (-1, ⟨0, 0, 0, 1, 0, 70, -1, -1⟩) ∧
    gmt_mktime ⟨0, fun _ => 0⟩ (from_string (fun _ => 0) (to_string ⟨0, 0, 0, 1, 0, 70, 4, 0⟩)).2 true
      = gmt_mktime ⟨0, fun _ => 0⟩ ⟨0, 0, 0, 1, 0, 70, 4, 0⟩ false - 1 := by
  have hread := to_string_parsed_iff (d := ⟨0, 0, 0, 1, 0, 70, 4, 0⟩)
    ⟨by decide, by decide, by decide, by decide, by decide, by decide⟩ ⟨0, fun _ => 0⟩ (fun _ => 0)
  exact ⟨hread.1.mpr (by decide), hread.2 (by decide)⟩

end MIME_Date

end Aos
