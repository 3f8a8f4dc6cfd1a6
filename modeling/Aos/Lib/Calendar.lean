/-
  Aos.Lib.Calendar — the Gregorian calendar, as seconds and as fields.

  Days are numbered from the first day of year 0 and seconds from its first
  second, without end in either direction.  `to_seconds` takes any fields, a
  month behind December or a day in front of the first; `of_seconds` gives the
  fields that a calendar shows.

  Main results:
    • `year_of_spec`, `month_of_spec` — a day lies in its year and in its month;
    • `to_of_seconds`, `of_to_seconds` — the two are inverse on proper fields;
    • `truncate_isLeast` — the first second of a second, a minute, an hour, a day,
      a month or a year.
-/
import Mathlib.Tactic
import Mathlib.Order.Bounds.Basic

namespace Lib.Calendar

/-! ## §1. Years. -/

/-- A year with a 29th of February. -/
def leap (y : Int) : Bool := y % 4 = 0 ∧ (y % 100 ≠ 0 ∨ y % 400 = 0)

/-- The first day of a year. -/
def year_start (y : Int) : Int := 365 * y + (y + 3) / 4 - (y + 99) / 100 + (y + 399) / 400

/-- The year a day lies in: 400 years have 146097 days, and the quotient is off by one
    at most. -/
def year_of (n : Int) : Int :=
  let y := 400 * n / 146097
  if n < year_start y then y - 1 else if year_start (y + 1) ≤ n then y + 1 else y

theorem year_start_succ (y : Int) :
    year_start (y + 1) = year_start y + if leap y then 366 else 365 := by
  unfold year_start leap
  by_cases h : y % 4 = 0 ∧ (y % 100 ≠ 0 ∨ y % 400 = 0)
  · rw [if_pos (by simpa using h)]
    omega
  · rw [if_neg (by simpa using h)]
    omega

/-- A year starts near its share of the 146097 days. -/
theorem year_start_near (y : Int) :
    146097 * y - 396 ≤ 400 * year_start y ∧ 400 * year_start y ≤ 146097 * y + 699 := by
  unfold year_start
  omega

/-- **A day lies in its year.** -/
theorem year_of_spec (n : Int) :
    year_start (year_of n) ≤ n ∧ n < year_start (year_of n + 1) := by
  unfold year_of
  simp only
  generalize hy : 400 * n / 146097 = y
  have hthis := year_start_near y
  have hbefore := year_start_near (y - 1)
  have hnext := year_start_near (y + 1)
  have hafter := year_start_near (y + 1 + 1)
  split_ifs with hlow hhigh
  · rw [sub_add_cancel]
    omega
  · omega
  · exact ⟨not_lt.mp hlow, not_le.mp hhigh⟩

theorem year_start_mono : Monotone year_start := by
  apply monotone_int_of_le_succ
  intro y
  rw [year_start_succ]
  split_ifs <;> omega

/-- Where the steps go up, a number lies between two of them only once. -/
theorem between_unique {f : Int → Int} (hf : Monotone f) {a b n : Int}
    (ha : f a ≤ n ∧ n < f (a + 1)) (hb : f b ≤ n ∧ n < f (b + 1)) : a = b := by
  rcases lt_trichotomy a b with hlt | heq | hlt
  · have hstep := hf (Int.add_one_le_iff.mpr hlt)
    omega
  · exact heq
  · have hstep := hf (Int.add_one_le_iff.mpr hlt)
    omega

/-! ## §2. Months. -/

/-- The first day of a month, counted from the first of the year; month 12 is the end. -/
def month_start (y m : Int) : Int :=
  let late : Int := if leap y then 1 else 0
  if m ≤ 0 then 0
  else if m ≤ 1 then 31
  else if m ≤ 2 then 59 + late
  else if m ≤ 3 then 90 + late
  else if m ≤ 4 then 120 + late
  else if m ≤ 5 then 151 + late
  else if m ≤ 6 then 181 + late
  else if m ≤ 7 then 212 + late
  else if m ≤ 8 then 243 + late
  else if m ≤ 9 then 273 + late
  else if m ≤ 10 then 304 + late
  else if m ≤ 11 then 334 + late
  else 365 + late

/-- The last of the months `0 … k` that has begun on a day of the year. -/
def month_until (y d : Int) : Nat → Int
  | 0 => 0
  | k + 1 => if month_start y (k + 1 : Nat) ≤ d then (k + 1 : Nat) else month_until y d k

/-- The month of a day of the year. -/
def month_of (y d : Int) : Int := month_until y d 11

theorem month_start_mono (y : Int) : Monotone (month_start y) := by
  apply monotone_int_of_le_succ
  intro m
  have hlate : 0 ≤ (if leap y then 1 else 0 : Int) ∧ (if leap y then 1 else 0 : Int) ≤ 1 := by
    split_ifs <;> decide
  unfold month_start
  simp only
  generalize (if leap y then 1 else 0 : Int) = late at *
  omega

/-- A month has a first day. -/
theorem month_start_lt {y m : Int} (h : 0 ≤ m ∧ m < 12) :
    month_start y m < month_start y (m + 1) := by
  unfold month_start
  simp only
  omega

theorem month_until_spec {y d : Int} (h0 : 0 ≤ d) (k : Nat) :
    d < month_start y (k + 1 : Nat) →
      0 ≤ month_until y d k ∧ month_until y d k ≤ k ∧ month_start y (month_until y d k) ≤ d ∧
        d < month_start y (month_until y d k + 1) := by
  induction k with
  | zero => intro h; exact ⟨le_rfl, le_rfl, h0, h⟩
  | succ k ih =>
      intro h
      rw [month_until]
      split_ifs with hbegun
      · exact ⟨Int.natCast_nonneg _, le_rfl, hbegun, h⟩
      · obtain ⟨hlow, hhigh, hspec⟩ := ih (not_le.mp hbegun)
        exact ⟨hlow, by omega, hspec⟩

/-- **A day lies in its month.** -/
theorem month_of_spec {y d : Int} (h0 : 0 ≤ d) (h1 : d < month_start y 12) :
    (0 ≤ month_of y d ∧ month_of y d < 12) ∧ month_start y (month_of y d) ≤ d ∧
      d < month_start y (month_of y d + 1) := by
  obtain ⟨hlow, hhigh, hspec⟩ := month_until_spec h0 11 h1
  exact ⟨⟨hlow, Int.lt_add_one_of_le hhigh⟩, hspec⟩

/-- A year is its twelve months. -/
theorem month_start_end (y : Int) : month_start y 12 = year_start (y + 1) - year_start y := by
  rw [year_start_succ]
  unfold month_start
  cases leap y <;> simp

/-! ## §3. Seconds and fields. -/

/-- The fields of a point of time; months and hours are counted from 0, days from 1. -/
structure Fields where
  year : Int
  month : Int
  mday : Int
  hour : Int
  min : Int
  sec : Int
  deriving DecidableEq

namespace Fields

/-- The fields a calendar can show. -/
def Proper (c : Fields) : Prop :=
  (0 ≤ c.month ∧ c.month < 12) ∧
    (1 ≤ c.mday ∧ c.mday ≤ month_start c.year (c.month + 1) - month_start c.year c.month) ∧
    (0 ≤ c.hour ∧ c.hour < 24) ∧ (0 ≤ c.min ∧ c.min < 60) ∧ 0 ≤ c.sec ∧ c.sec < 60

end Fields

/-- The day any fields stand for: months are carried into the years. -/
def to_day (year month mday : Int) : Int :=
  let y := year + month / 12
  year_start y + month_start y (month % 12) + (mday - 1)

/-- The second any fields stand for. -/
def to_seconds (c : Fields) : Int :=
  86400 * to_day c.year c.month c.mday + 3600 * c.hour + 60 * c.min + c.sec

/-- What the calendar shows at a second. -/
def of_seconds (s : Int) : Fields :=
  let n := s / 86400
  let y := year_of n
  let d := n - year_start y
  let m := month_of y d
  ⟨y, m, d - month_start y m + 1, s % 86400 / 3600, s % 3600 / 60, s % 60⟩

theorem to_day_proper (year mday : Int) {month : Int} (h : 0 ≤ month ∧ month < 12) :
    to_day year month mday = year_start year + month_start year month + (mday - 1) := by
  have hdiv : month / 12 = 0 := by omega
  have hmod : month % 12 = month := by omega
  unfold to_day
  simp only [hdiv, hmod, add_zero]

/-- The calendar shows proper fields. -/
theorem of_seconds_proper (s : Int) : (of_seconds s).Proper := by
  have hy := year_of_spec (s / 86400)
  have hm := month_of_spec (y := year_of (s / 86400))
    (d := s / 86400 - year_start (year_of (s / 86400))) (by omega)
    (by rw [month_start_end]; omega)
  refine ⟨hm.1, ?_, ?_, ?_, ?_⟩ <;> unfold of_seconds <;> simp only <;> omega

/-- **The fields a calendar shows stand for the second they were read at.** -/
theorem to_of_seconds (s : Int) : to_seconds (of_seconds s) = s := by
  have hday := to_day_proper (of_seconds s).year (of_seconds s).mday (of_seconds_proper s).1
  unfold to_seconds
  rw [hday]
  unfold of_seconds
  simp only
  omega

/-- **Proper fields are shown at the second they stand for.** -/
theorem of_to_seconds {c : Fields} (hc : c.Proper) : of_seconds (to_seconds c) = c := by
  obtain ⟨hmonth, hmday, hhour, hmin, hsec⟩ := hc
  have hday := to_day_proper c.year c.mday hmonth
  have hn : to_seconds c / 86400 = to_day c.year c.month c.mday := by
    unfold to_seconds
    omega
  have hyear : year_of (to_seconds c / 86400) = c.year := by
    refine between_unique year_start_mono (year_of_spec _) ?_
    have hend := month_start_end c.year
    have hlow := month_start_mono c.year hmonth.1
    have hhigh := month_start_mono c.year (Int.add_one_le_iff.mpr hmonth.2)
    have hzero : month_start c.year 0 = 0 := rfl
    omega
  have hd : to_seconds c / 86400 - year_start c.year
      = month_start c.year c.month + (c.mday - 1) := by
    omega
  have hspec := month_of_spec (y := c.year) (d := to_seconds c / 86400 - year_start c.year)
  have hm : month_of c.year (to_seconds c / 86400 - year_start c.year) = c.month := by
    have hend := month_start_mono c.year (Int.add_one_le_iff.mpr hmonth.2)
    have hlow := month_start_mono c.year hmonth.1
    have hzero : month_start c.year 0 = 0 := rfl
    refine between_unique (month_start_mono c.year) (hspec ?_ ?_).2 ?_ <;> omega
  have hrest : to_seconds c % 86400 / 3600 = c.hour ∧ to_seconds c % 3600 / 60 = c.min ∧
      to_seconds c % 60 = c.sec := by
    unfold to_seconds
    omega
  have hmd : to_seconds c / 86400 - year_start c.year - month_start c.year c.month + 1 = c.mday := by
    omega
  unfold of_seconds
  simp only [hyear, hm, hmd, hrest.1, hrest.2.1, hrest.2.2]

/-! ## §4. Periods. -/

/-- What a period is one of. -/
inductive Granularity
  | second | minute | hour | day | month | year
  deriving DecidableEq

namespace Fields

/-- The fields that tell the periods apart. -/
def down_to (c : Fields) : Granularity → List Int
  | .second => [c.year, c.month, c.mday, c.hour, c.min, c.sec]
  | .minute => [c.year, c.month, c.mday, c.hour, c.min]
  | .hour => [c.year, c.month, c.mday, c.hour]
  | .day => [c.year, c.month, c.mday]
  | .month => [c.year, c.month]
  | .year => [c.year]

/-- The fields below take their first values. -/
def truncate (c : Fields) : Granularity → Fields
  | .second => c
  | .minute => { c with sec := 0 }
  | .hour => { c with min := 0, sec := 0 }
  | .day => { c with hour := 0, min := 0, sec := 0 }
  | .month => { c with mday := 1, hour := 0, min := 0, sec := 0 }
  | .year => { c with month := 0, mday := 1, hour := 0, min := 0, sec := 0 }

theorem down_to_truncate (c : Fields) (g : Granularity) :
    (c.truncate g).down_to g = c.down_to g := by
  cases g <;> rfl

theorem truncate_of_down_to {c e : Fields} {g : Granularity} (h : c.down_to g = e.down_to g) :
    c.truncate g = e.truncate g := by
  cases c
  cases e
  cases g <;> simp only [down_to, List.cons.injEq, and_true] at h <;> simp only [truncate, h]

theorem truncate_proper {c : Fields} (hc : c.Proper) (g : Granularity) :
    (c.truncate g).Proper := by
  obtain ⟨hmonth, hmday, hhour, hmin, hsec⟩ := hc
  have hfirst := month_start_lt (y := c.year) hmonth
  have hjanuary := month_start_lt (y := c.year) (m := 0) (by decide)
  cases g <;> refine ⟨?_, ?_, ?_, ?_, ?_⟩ <;> simp only [truncate] <;> omega

/-- Nothing in a period is in front of its first second. -/
theorem truncate_le {c : Fields} (hc : c.Proper) (g : Granularity) :
    to_seconds (c.truncate g) ≤ to_seconds c := by
  obtain ⟨hmonth, hmday, hhour, hmin, hsec⟩ := hc
  have hday := to_day_proper c.year c.mday hmonth
  have hfirst := to_day_proper c.year 1 hmonth
  have hjanuary := to_day_proper c.year 1 (show (0 : Int) ≤ 0 ∧ (0 : Int) < 12 by decide)
  have hmono := month_start_mono c.year hmonth.1
  unfold to_seconds
  cases g <;> simp only [truncate] <;> omega

end Fields

/-- **The first second of the period a second lies in.** -/
theorem truncate_isLeast (t : Int) (g : Granularity) :
    IsLeast {u | (of_seconds u).down_to g = (of_seconds t).down_to g}
      (to_seconds ((of_seconds t).truncate g)) := by
  have hproper := Fields.truncate_proper (of_seconds_proper t) g
  constructor
  · show (of_seconds (to_seconds _)).down_to g = _
    rw [of_to_seconds hproper, Fields.down_to_truncate]
  · intro u hu
    calc to_seconds ((of_seconds t).truncate g)
        = to_seconds ((of_seconds u).truncate g) := by rw [Fields.truncate_of_down_to hu]
      _ ≤ to_seconds (of_seconds u) := Fields.truncate_le (of_seconds_proper u) g
      _ = u := to_of_seconds u

end Lib.Calendar
