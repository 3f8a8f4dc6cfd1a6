/-
  Aos.Log.Period — the period a file of `Logger` is named after.

  `open_log` sets the fields of the local time below its period to their first
  values and has `mktime` make a time of them again.  A month and a year have no
  day 0: `mktime` takes it for the last day of the month in front.

  `localtime` and `mktime` are those of a zone with one offset from UTC.

  Main results:
    • `open_log_time_eq`     — the first second of the period, but a day in front of
      it for a month and a year;
    • `open_log_period_iff`  — for the other periods the file is named after the
      period it is opened in.
-/
import Aos.Str.Number
import Aos.Lib.Calendar

namespace Aos

open Lib.Calendar

/-! ## §1. Local time. -/

/-- `struct tm`; the weekday and the day of the year are not read. -/
structure tm where
  tm_sec : Int
  tm_min : Int
  tm_hour : Int
  tm_mday : Int
  tm_mon : Int
  /-- since 1900 -/
  tm_year : Int
  deriving DecidableEq

namespace tm

def fields (t : tm) : Fields :=
  ⟨t.tm_year + 1900, t.tm_mon, t.tm_mday, t.tm_hour, t.tm_min, t.tm_sec⟩

def of_fields (c : Fields) : tm := ⟨c.sec, c.min, c.hour, c.mday, c.month, c.year - 1900⟩

@[simp] theorem fields_of_fields (c : Fields) : (of_fields c).fields = c := by
  simp [fields, of_fields]

end tm

/-- The second a `time_t` counts from: the first of 1970. -/
def epoch : Int := to_seconds ⟨1970, 0, 1, 0, 0, 0⟩

/-- `localtime_r`, that many seconds in front of UTC. -/
def localtime (offset t : Int) : tm := tm.of_fields (of_seconds (t + offset + epoch))

/-- `mktime` -/
def mktime (offset : Int) (t : tm) : Int := to_seconds t.fields - offset - epoch

/-- `%d` in two places. -/
def dec2 (n : Int) : Bytes := if 0 ≤ n ∧ n < 10 then 48 :: dec_int n else dec_int n

/-- The conversions of `strftime` that a log file is named with. -/
def conversion (t : tm) (c : Byte) : Option Bytes :=
  if c = 89 then some (dec_int (t.tm_year + 1900))
  else if c = 109 then some (dec2 (t.tm_mon + 1))
  else if c = 100 then some (dec2 t.tm_mday)
  else if c = 72 then some (dec2 t.tm_hour)
  else if c = 77 then some (dec2 t.tm_min)
  else if c = 83 then some (dec2 t.tm_sec)
  else none

/-- `strftime` into a buffer that is large enough. -/
def strftime (pattern : Bytes) (t : tm) : Bytes :=
  match pattern with
  | [] => []
  | 37 :: c :: rest => (conversion t c).getD [37, c] ++ strftime rest t
  | c :: rest => c :: strftime rest t

namespace Logger

/-! ## §2. `open_log`. -/

/-- `Logger::Rotate` -/
inductive Rotate
  | SECOND | MINUTE | HOUR | DAY | MONTH | YEAR
  deriving DecidableEq

namespace Rotate

def value : Rotate → Int
  | SECOND => 1
  | MINUTE => 60
  | HOUR => 3600
  | DAY => 86400
  | MONTH => 86400 * 30
  | YEAR => 86400 * 365

/-- What the period is one of. -/
def period : Rotate → Granularity
  | SECOND => .second
  | MINUTE => .minute
  | HOUR => .hour
  | DAY => .day
  | MONTH => .month
  | YEAR => .year

end Rotate

def round_tm (rotate_time : Int) (tm_val : tm) : tm :=
  if rotate_time > 0 then
    let tm_val := if rotate_time > Rotate.SECOND.value then { tm_val with tm_sec := 0 } else tm_val
    let tm_val := if rotate_time > Rotate.MINUTE.value then { tm_val with tm_min := 0 } else tm_val
    let tm_val := if rotate_time > Rotate.HOUR.value then { tm_val with tm_hour := 0 } else tm_val
    let tm_val := if rotate_time > Rotate.DAY.value then { tm_val with tm_mday := 0 } else tm_val
    if rotate_time > Rotate.MONTH.value then { tm_val with tm_mon := 0 } else tm_val
  else tm_val

def log_time_format (rotate_time : Int) : Bytes :=
  if rotate_time > 0 then
    let pat := lit "%Y"
    let pat := if rotate_time < Rotate.YEAR.value then pat ++ lit "-%m" else pat
    let pat := if rotate_time < Rotate.MONTH.value then pat ++ lit "-%d" else pat
    let pat := if rotate_time < Rotate.DAY.value then pat ++ lit "_%H" else pat
    let pat := if rotate_time < Rotate.HOUR.value then pat ++ lit "-%M" else pat
    if rotate_time < Rotate.MINUTE.value then pat ++ lit "-%S" else pat
  else []

/-- `t_sec` in `open_log`, when it is opened at `t`. -/
def open_log_time (offset rotate_time t : Int) : Int :=
  mktime offset (round_tm rotate_time (localtime offset t))

/-- `date_buf` -/
def open_log_date (offset rotate_time t : Int) : Bytes :=
  strftime (log_time_format rotate_time) (localtime offset (open_log_time offset rotate_time t))

/-! ## §3. The period. -/

/-- The times that are in one period with `t`: the local clock and calendar show the same
    down to the unit of the period. -/
def period_of (offset : Int) (k : Rotate) (t : Int) : Set Int :=
  {u | (localtime offset u).fields.down_to k.period
    = (localtime offset t).fields.down_to k.period}

theorem localtime_fields (offset t : Int) :
    (localtime offset t).fields = of_seconds (t + offset + epoch) :=
  tm.fields_of_fields _

/-- **The first second of a period.** -/
theorem period_isLeast (offset : Int) (k : Rotate) (t : Int) :
    IsLeast (period_of offset k t)
      (to_seconds ((localtime offset t).fields.truncate k.period) - offset - epoch) := by
  have hleast := truncate_isLeast (t + offset + epoch) k.period
  rw [localtime_fields]
  constructor
  · have hzone : ∀ s : Int, s - offset - epoch + offset + epoch = s := by
      intro s
      omega
    show (localtime offset _).fields.down_to k.period = (localtime offset t).fields.down_to k.period
    rw [localtime_fields, localtime_fields, hzone]
    exact hleast.1
  · intro u hu
    have hshown : (localtime offset u).fields.down_to k.period
        = (localtime offset t).fields.down_to k.period := hu
    rw [localtime_fields, localtime_fields] at hshown
    have hle := hleast.2 hshown
    omega

/-- How many days in front of the period `open_log` gets: a month and a year have a day 0. -/
def days_before : Rotate → Int
  | .MONTH => 1
  | .YEAR => 1
  | _ => 0

/-- `round_tm` sets the fields below the period to their first values, but the day to 0. -/
theorem round_tm_fields (k : Rotate) (c : tm) :
    (round_tm k.value c).fields
      = { c.fields.truncate k.period with
          mday := (c.fields.truncate k.period).mday - days_before k } := by
  cases k <;>
    simp [round_tm, Rotate.value, Rotate.period, Fields.truncate, days_before, tm.fields]

/-- **`open_log` makes the first second of the period, but a day in front of it for a month and
    a year.** -/
theorem open_log_time_eq (offset : Int) (k : Rotate) (t : Int) :
    open_log_time offset k.value t
      = to_seconds ((localtime offset t).fields.truncate k.period) - offset - epoch
        - 86400 * days_before k := by
  unfold open_log_time mktime
  rw [round_tm_fields]
  unfold to_seconds to_day
  simp only
  omega

/-- `%Y-%m-%d_%H-%M-%S`, down to the unit of the period. -/
def Rotate.pattern : Rotate → Bytes
  | .SECOND => [37, 89, 45, 37, 109, 45, 37, 100, 95, 37, 72, 45, 37, 77, 45, 37, 83]
  | .MINUTE => [37, 89, 45, 37, 109, 45, 37, 100, 95, 37, 72, 45, 37, 77]
  | .HOUR => [37, 89, 45, 37, 109, 45, 37, 100, 95, 37, 72]
  | .DAY => [37, 89, 45, 37, 109, 45, 37, 100]
  | .MONTH => [37, 89, 45, 37, 109]
  | .YEAR => [37, 89]

theorem log_time_format_value (k : Rotate) : log_time_format k.value = k.pattern := by
  cases k <;> decide +kernel

/-- What the file is named with is shown by every time of the period. -/
theorem strftime_period (k : Rotate) (a b : tm)
    (h : a.fields.down_to k.period = b.fields.down_to k.period) :
    strftime (log_time_format k.value) a = strftime (log_time_format k.value) b := by
  rw [log_time_format_value]
  cases k <;>
    simp only [Rotate.period, Fields.down_to, tm.fields, List.cons.injEq, add_left_inj] at h <;>
    simp [Rotate.pattern, strftime, conversion, h]

/-- So is the name of the file. -/
theorem date_of_period {offset t : Int} (k : Rotate)
    (h : open_log_time offset k.value t ∈ period_of offset k t) :
    open_log_date offset k.value t
      = strftime (log_time_format k.value) (localtime offset t) :=
  strftime_period k _ _ h

/-- **A log file is named after the period it is opened in, whose first second `open_log` makes,
    exactly when the period is no month and no year.** -/
theorem open_log_period_iff (offset t : Int) (k : Rotate) :
    (IsLeast (period_of offset k t) (open_log_time offset k.value t) ∧
        open_log_date offset k.value t
          = strftime (log_time_format k.value) (localtime offset t))
      ↔ k ≠ .MONTH ∧ k ≠ .YEAR := by
  have hleast := period_isLeast offset k t
  have htime := open_log_time_eq offset k t
  constructor
  · intro h
    have hsame := h.1.unique hleast
    have hdays : days_before k = 0 := by omega
    constructor <;> rintro rfl <;> exact absurd hdays (by decide)
  · rintro ⟨hmonth, hyear⟩
    have hdays : days_before k = 0 := by
      cases k <;> first | rfl | exact absurd rfl hmonth | exact absurd rfl hyear
    rw [hdays, mul_zero, sub_zero] at htime
    have hfirst := htime ▸ hleast
    exact ⟨hfirst, date_of_period k hfirst.1⟩

/-- The middle of March 2024, a leap year, lies in no month that ends with February. -/
theorem open_log_march :
    ¬(IsLeast (period_of 0 .MONTH 1710499800) (open_log_time 0 Rotate.MONTH.value 1710499800) ∧
      open_log_date 0 Rotate.MONTH.value 1710499800
        = strftime (log_time_format Rotate.MONTH.value) (localtime 0 1710499800)) := by
  rintro ⟨-, hdate⟩
  have hfebruary : open_log_date 0 Rotate.MONTH.value 1710499800 = lit "2024-02" := by
    decide +kernel
  have hmarch : strftime (log_time_format Rotate.MONTH.value) (localtime 0 1710499800)
      = lit "2024-03" := by
    decide +kernel
  rw [hfebruary, hmarch] at hdate
  exact absurd hdate (by decide)

end Logger

end Aos
