/-
  Aos.Mime.Date — `MIME_Date::from_string`.

  The parser keeps the tokens of the text that look like a part of a date and goes
  over them in seven passes: one for a whole date, one for a time, one each for the
  weekday, the month with what stands around it, the year, the day and the zone.
  A token that has been taken is marked with a '%' over its first character.

  The passes test one value and then store another only in the zone: there a whole
  number is tested, and the hours and minutes are the characters it is made of.

  Main results:
    • `before_zone_ready` — what the passes in front of the zone leave in the fields;
    • `zone_of_text`, `atoi_short` — hours and minutes are two characters each;
    • `date_in_range_iff` — where every field is in its range.
-/
import Aos.Str.Compare
import Aos.Str.Number
import Aos.Str.Tokenizer

namespace Aos

/-! ## §1. Tokens. -/

/-- `::isalpha` of the C locale. -/
def isalpha (c : Byte) : Bool := (65 ≤ c ∧ c ≤ 90) ∨ (97 ≤ c ∧ c ≤ 122)

/-- `Multi_String::explode(separator, cstr)`: the strings it holds, at least one; `beg` is
    what has been read of the current one. -/
def explode (separator : Byte) (beg : Bytes) : Bytes → List Bytes
  | [] => [beg]
  | c :: cstr =>
      if c = separator then beg :: explode separator [] cstr
      else explode separator (beg ++ [c]) cstr

/-- `struct tm` and the zone, as far as `from_string` sets them. -/
structure MIME_Date where
  tm_sec : Int
  tm_min : Int
  tm_hour : Int
  tm_mday : Int
  tm_mon : Int
  tm_year : Int
  tm_wday : Int
  tm_gmtoff : Int
  deriving DecidableEq

namespace MIME_Date

/-- `reset()` -/
def reset : MIME_Date := ⟨-1, -1, -1, -1, -1, -1, -1, -1⟩

def day : List Bytes :=
  [lit "Sunday", lit "Monday", lit "Tuesday", lit "Wednesday", lit "Thursday", lit "Friday",
    lit "Saturday"]

def abday : List Bytes :=
  [lit "Sun", lit "Mon", lit "Tue", lit "Wed", lit "Thu", lit "Fri", lit "Sat"]

def mon : List Bytes :=
  [lit "January", lit "February", lit "March", lit "April", lit "May", lit "June", lit "July",
    lit "August", lit "September", lit "October", lit "November", lit "December"]

def abmon : List Bytes :=
  [lit "Jan", lit "Feb", lit "Mar", lit "Apr", lit "May", lit "Jun", lit "Jul", lit "Aug",
    lit "Sep", lit "Oct", lit "Nov", lit "Dec"]

/-- The two tests in front of `mstr.push_back(toker.token(), toker.size())`. -/
def push_back (token : Bytes) : List Bytes :=
  let ch0 := toupper_char (deref token)
  (if isdigit ch0 then [token] else []) ++
    if (Char_Map.set (lit "JFMASONDTW+-")).has ch0 ∧ token.length ≥ 3 ∧ token.length ≤ 9 then
      [token] else []

/-- The loop over the tokens. -/
def push_tokens (toker : Char_Tokenizer) : List Bytes :=
  let token := toker.next
  if _htoken : token.2 ≤ Char_Tokenizer.End then []
  else push_back token.1.token ++ push_tokens token.1
termination_by toker.ahead.length
decreasing_by exact Char_Tokenizer.ahead_shrinks (not_le.mp _htoken)

/-- `mstr` as the passes find it. -/
def tokens (cstr : Bytes) : List Bytes :=
  push_tokens ((Char_Tokenizer.new (c_str cstr)).set_separator (lit " ,;\t\x0b\r\n"))

/-- `*((char*) mstr[i]) = '%'` -/
def mark (token : Bytes) : Bytes := 37 :: token.tail

section Loops

variable {α : Type} (take : Bytes → Option α)

/-- A loop that ends with the first token that is taken. -/
def first_token : List Bytes → Option (α × List Bytes)
  | [] => none
  | t :: ts =>
      match take t with
      | some a => some (a, mark t :: ts)
      | none => (first_token ts).map fun (a, ts) => (a, t :: ts)

/-- A loop that goes on over all the tokens: what is taken, and where. -/
def every_token (i : Nat) : List Bytes → List (Nat × α)
  | [] => []
  | t :: ts => ((take t).map fun a => (i, a)).toList ++ every_token (i + 1) ts

/-- The tokens behind such a loop. -/
def mark_tokens (mstr : List Bytes) : List Bytes :=
  mstr.map fun t => if (take t).isSome then mark t else t

end Loops

/-! ## §2. The passes. -/

/-- The date, the tokens and the number of items parsed. -/
structure Date_Scan where
  date : MIME_Date
  mstr : List Bytes
  count : Int

/-- The place of a token in a table of names. -/
def name_of (ab full : List Bytes) (token : Bytes) : Option Nat :=
  if ¬ isalpha (deref token) then none
  else if token.length = 3 then ab.findIdx? fun name => os_strcasecmp token name = 0
  else full.findIdx? fun name => os_strcasecmp token name = 0

section Passes

variable (overflow : Bytes → Int)

/-- `ACE_OS::atoi`; `overflow` is what the C library gives for a number that is no `int`. -/
def number (s : Bytes) : Int := (atoi s).getD (overflow s)

/-- YYYY-MM-DD -/
def date_of (token : Bytes) : Option (Int × Int × Int) :=
  if ¬ isdigit (deref token) ∨ token.length < 10 then none
  else
    match explode 45 [] token with
    | [year, month, day] =>
        if number overflow year < 1900 ∨ number overflow year > 9999 then none
        else if ¬ isdigit (deref month) then none
        else if number overflow month < 1 ∨ number overflow month > 12 then none
        else if ¬ isdigit (deref day) then none
        else if number overflow day < 1 ∨ number overflow day > 31 then none
        else some (number overflow year, number overflow month, number overflow day)
    | _ => none

/-- HH:MM:SS or HH:MM -/
def time_of (token : Bytes) : Option (Int × Int × Int) :=
  if ¬ isdigit (deref token) ∨ token.length < 5 then none
  else
    match explode 58 [] token with
    | hour :: minute :: second =>
        if 1 < second.length then none
        else if number overflow hour < 0 ∨ number overflow hour > 23 then none
        else if ¬ isdigit (deref minute) then none
        else if number overflow minute < 0 ∨ number overflow minute > 59 then none
        else
          match second with
          | [second] =>
              if ¬ isdigit (deref second) then none
              else if number overflow second < 0 ∨ number overflow second > 59 then none
              else some (number overflow hour, number overflow minute, number overflow second)
          | _ => some (number overflow hour, number overflow minute, 0)
    | _ => none

def year_of (token : Bytes) : Option Int :=
  if token.length ≠ 4 then none
  else if number overflow token ≥ 1900 ∧ number overflow token ≤ 9999 then
    some (number overflow token)
  else none

def day_of (token : Bytes) : Option Int :=
  if token.length ≠ 2 then none
  else if number overflow token > 12 ∧ number overflow token ≤ 31 then some (number overflow token)
  else none

/-- The zone: its sign, and what is written to `hms` and to `hms + 3`. -/
def zone_of (token : Bytes) : Option (Byte × Bytes × Bytes) :=
  if deref token ≠ 43 ∧ deref token ≠ 45 then none
  else
    match explode 58 [] token with
    | [substr0] =>
        if substr0.length < 2 ∨ ¬ isdigit (deref substr0.tail) then none
        else if number overflow substr0 ≥ -1400 ∧ number overflow substr0 ≤ 1400 then
          some (deref token, substr0.tail.take 2,
            if substr0.length ≥ 4 then (substr0.drop 3).take 2 else [])
        else none
    | [substr0, substr1] =>
        if substr0.length < 2 ∨ ¬ isdigit (deref substr0.tail) then none
        else if ¬ isdigit (deref substr1) then none
        else if number overflow substr0 ≥ -14 ∧ number overflow substr0 ≤ 14 ∧
            number overflow substr1 ≥ 0 ∧ number overflow substr1 ≤ 59 then
          some (deref token, substr0.tail.take 2, if substr1.length ≥ 2 then substr1.take 2 else [])
        else none
    | _ => none

namespace Date_Scan

variable (s : Date_Scan)

/-- An item that is found: it is stored, and its token marked. -/
def took (date : MIME_Date) (pos : Nat) : Date_Scan :=
  ⟨date, s.mstr.modify pos mark, s.count + 1⟩

def find_date : Date_Scan :=
  if s.date.tm_year < 0 then
    match first_token (date_of overflow) s.mstr with
    | none => s
    | some ((year, month, day), mstr) =>
        ⟨{ s.date with tm_year := year - 1900, tm_mon := month - 1, tm_mday := day }, mstr,
          s.count + 3⟩
  else s

def find_time : Date_Scan :=
  if s.date.tm_hour < 0 then
    match first_token (time_of overflow) s.mstr with
    | none => s
    | some ((hour, minute, second), mstr) =>
        ⟨{ s.date with tm_sec := second, tm_min := minute, tm_hour := hour }, mstr, s.count + 3⟩
  else s

/-- if no weekday, find it -/
def find_weekday : Date_Scan :=
  if s.date.tm_wday = -1 then
    match (every_token (name_of abday day) 0 s.mstr).getLast? with
    | none => s
    | some (_, w) =>
        ⟨{ s.date with tm_wday := w }, mark_tokens (name_of abday day) s.mstr, s.count⟩
  else s

/-- check month_pos + 1 for year or day -/
def check_next (pos : Nat) : Date_Scan :=
  match s.mstr[pos]? with
  | none => s
  | some token =>
      if number overflow token ≥ 1900 ∧ number overflow token ≤ 9999 then
        s.took { s.date with tm_year := number overflow token - 1900 } pos
      else if number overflow token ≥ 1 ∧ number overflow token ≤ 31 then
        s.took { s.date with tm_mday := number overflow token } pos
      else s

/-- check month_pos - 1, month_pos + 2 or month_pos - 2 for year or day -/
def check_beside (pos : Nat) : Date_Scan :=
  match s.mstr[pos]? with
  | none => s
  | some token =>
      if number overflow token ≥ 1 ∧ number overflow token ≤ 31 ∧ s.date.tm_year ≠ -1 then
        s.took { s.date with tm_mday := number overflow token } pos
      else if number overflow token ≥ 1900 ∧ number overflow token ≤ 9999 ∧ s.date.tm_mday ≠ -1 then
        s.took { s.date with tm_year := number overflow token - 1900 } pos
      else s

/-- `tm.tm_year == -1 || tm.tm_mday == -1` -/
def misses : Prop := s.date.tm_year = -1 ∨ s.date.tm_mday = -1

instance : Decidable s.misses := inferInstanceAs (Decidable (_ ∨ _))

/-- if month found -/
def check_around (month_pos : Nat) : Date_Scan :=
  let s := s.check_next overflow (month_pos + 1)
  let s := if month_pos ≥ 1 then s.check_beside overflow (month_pos - 1) else s
  if s.misses then
    let s := s.check_beside overflow (month_pos + 2)
    if s.misses ∧ month_pos ≥ 2 then s.check_beside overflow (month_pos - 2) else s
  else s

/-- if tm_mon == -1, find month -/
def find_month : Date_Scan :=
  if s.date.tm_mon = -1 then
    let months := every_token (name_of abmon mon) 0 s.mstr
    match months.getLast? with
    | none => s
    | some (month_pos, m) =>
        (Date_Scan.mk { s.date with tm_mon := m } (mark_tokens (name_of abmon mon) s.mstr)
          (s.count + months.length)).check_around overflow month_pos
  else s

/-- if tm_year == -1, find year -/
def find_year : Date_Scan :=
  if s.date.tm_year = -1 then
    match first_token (year_of overflow) s.mstr with
    | none => s
    | some (year, mstr) => ⟨{ s.date with tm_year := year - 1900 }, mstr, s.count + 1⟩
  else s

/-- if tm_mday == -1, find day -/
def find_day : Date_Scan :=
  if s.date.tm_mday = -1 then
    match first_token (day_of overflow) s.mstr with
    | none => s
    | some (day, mstr) => ⟨{ s.date with tm_mday := day }, mstr, s.count + 1⟩
  else s

/-- if no tz, find timezone -/
def find_zone : Date_Scan :=
  if s.date.tm_gmtoff = -1 then
    match first_token (zone_of overflow) s.mstr with
    | none => s
    | some ((sign, hh, mm), mstr) =>
        let tm_gmtoff := number overflow hh * 3600 + number overflow mm * 60
        ⟨{ s.date with tm_gmtoff := if sign = 43 then 0 - tm_gmtoff else tm_gmtoff }, mstr,
          s.count + 1⟩
  else s

end Date_Scan

/-- The passes in front of the last one. -/
def passes (s : Date_Scan) : Date_Scan :=
  (((((s.find_date overflow).find_time overflow).find_weekday).find_month overflow).find_year
    overflow).find_day overflow

/-- What the last pass starts from. -/
def before_zone (cstr : Bytes) : Date_Scan := passes overflow ⟨reset, tokens cstr, 0⟩

/-- `from_string(cstr)`: what it returns, and the date. -/
def from_string (cstr : Bytes) : Int × MIME_Date :=
  let s := (before_zone overflow cstr).find_zone overflow
  (s.count - 7, s.date) -- YYYY-MM-DD HH:MM:SS TZ

end Passes

/-! ## §3. The tokens of a text. -/

/-- A character between tokens. -/
def Separator (b : Byte) : Prop := b ∈ [SP, 44, 59, TAB, 11, CR, LF]

instance (b : Byte) : Decidable (Separator b) := inferInstanceAs (Decidable (_ ∈ _))

theorem has_separator (b : Byte) :
    (Char_Map.set (c_str (lit " ,;\t\x0b\r\n"))).has b = decide (Separator b) := by
  have hsep : c_str (lit " ,;\t\x0b\r\n") = [SP, 44, 59, TAB, 11, CR, LF] := by decide
  rw [hsep, Char_Map.has_set]
  rfl

/-- A token and what stands between it and the one in front. -/
structure Spaced where
  gap : Bytes
  token : Bytes
  gap_ne : gap ≠ []
  gap_ok : ∀ b ∈ gap, Separator b
  token_ne : token ≠ []
  token_ok : ∀ b ∈ token, ¬ Separator b

/-- One token, and the separator it ends at. -/
theorem push_tokens_next {t : Char_Tokenizer} {gap token : Bytes} (rest : Bytes)
    (hcm : t.cm_ = Char_Map.set (c_str (lit " ,;\t\x0b\r\n")))
    (hahead : t.ahead = gap ++ (token ++ rest)) (hgap : ∀ b ∈ gap, Separator b) (hne : token ≠ [])
    (htoken : ∀ b ∈ token, ¬ Separator b) (hrest : ∀ c, rest.head? = some c → Separator c) :
    push_tokens t = push_back token ++ push_tokens t.next.1 ∧ t.next.1.ahead = rest.tail := by
  have hhas : ∀ b, t.cm_.has b = decide (Separator b) := fun b => hcm ▸ has_separator b
  obtain ⟨hfound, hread, hahead'⟩ := Char_Tokenizer.next_behind hahead
    (fun b hb => by rw [hhas, decide_eq_true (hgap b hb)]) hne
    (fun b hb => by rw [hhas, decide_eq_false (htoken b hb)])
    (fun c hc => by rw [hhas, decide_eq_true (hrest c hc)])
  refine ⟨?_, hahead'⟩
  rw [push_tokens, dif_neg (not_le.mpr hfound), hread]

theorem push_tokens_end {t : Char_Tokenizer} (h : t.ahead = []) : push_tokens t = [] := by
  have hend : ¬ t.next.2 > Char_Tokenizer.End :=
    Char_Tokenizer.next_only_separators fun b hb => by rw [h] at hb; cases hb
  rw [push_tokens, dif_pos (not_lt.mp hend)]

/-- **Tokens with separators between them** are read one after the other. -/
theorem push_tokens_spaced (items : List Spaced) :
    ∀ (t : Char_Tokenizer) (gap token : Bytes),
      t.cm_ = Char_Map.set (c_str (lit " ,;\t\x0b\r\n")) →
      t.ahead = gap ++ (token ++ items.flatMap fun x => x.gap ++ x.token) →
      (∀ b ∈ gap, Separator b) → token ≠ [] → (∀ b ∈ token, ¬ Separator b) →
      push_tokens t = push_back token ++ items.flatMap fun x => push_back x.token := by
  induction items with
  | nil =>
      intro t gap token hcm hahead hgap hne htoken
      obtain ⟨hstep, hrest⟩ := push_tokens_next [] hcm hahead hgap hne htoken
        (fun c hc => by cases hc)
      rw [hstep, push_tokens_end hrest]
      rfl
  | cons x items ih =>
      intro t gap token hcm hahead hgap hne htoken
      -- the first separator behind the token is eaten with it
      obtain ⟨c, gap', hx⟩ := List.exists_cons_of_ne_nil x.gap_ne
      have hsplit : (x :: items).flatMap (fun x => x.gap ++ x.token)
          = c :: (gap' ++ (x.token ++ items.flatMap fun x => x.gap ++ x.token)) := by
        rw [List.flatMap_cons, hx, List.append_assoc]
        rfl
      rw [hsplit] at hahead
      have hsep := x.gap_ok
      rw [hx] at hsep
      obtain ⟨hstep, hrest⟩ := push_tokens_next _ hcm hahead hgap hne htoken
        (fun d hd => Option.some.inj hd ▸ hsep c List.mem_cons_self)
      have htail := ih t.next.1 gap' x.token hcm hrest
        (fun b hb => hsep b (List.mem_cons_of_mem c hb)) x.token_ne x.token_ok
      rw [hstep, htail, List.flatMap_cons]

/-- **The tokens of a text.** -/
theorem tokens_spaced {token : Bytes} (hne : token ≠ []) (htoken : ∀ b ∈ token, ¬ Separator b)
    (items : List Spaced) (hnul : NUL ∉ token ++ items.flatMap fun x => x.gap ++ x.token) :
    tokens (token ++ items.flatMap fun x => x.gap ++ x.token)
      = push_back token ++ items.flatMap fun x => push_back x.token := by
  unfold tokens
  rw [c_str_of_no_nul hnul]
  exact push_tokens_spaced items _ [] token rfl rfl (fun b hb => absurd hb List.not_mem_nil) hne
    htoken

/-! ## §4. Fields in their ranges. -/

/-- A field is not set, or in its range. -/
def Unset_Or (lo hi x : Int) : Prop := x = -1 ∨ (lo ≤ x ∧ x ≤ hi)

/-- The fields but the zone. -/
structure Fields (d : MIME_Date) : Prop where
  sec : Unset_Or 0 59 d.tm_sec
  min : Unset_Or 0 59 d.tm_min
  hour : Unset_Or 0 23 d.tm_hour
  mday : Unset_Or 1 31 d.tm_mday
  mon : Unset_Or 0 11 d.tm_mon
  year : Unset_Or 0 8099 d.tm_year
  wday : Unset_Or 0 6 d.tm_wday

/-- Every field is in its range; the zone is at most 14 hours off. -/
def In_Range (d : MIME_Date) : Prop :=
  Fields d ∧ (d.tm_gmtoff = -1 ∨ (-50400 ≤ d.tm_gmtoff ∧ d.tm_gmtoff ≤ 50400))

section Ranges

variable {overflow : Bytes → Int} {token : Bytes}

/-- A loop that ends with the first token it takes. -/
theorem first_token_find {α : Type} (take : Bytes → Option α) (ts : List Bytes) :
    (first_token take ts = none ∧ ts.find? (fun t => (take t).isSome) = none) ∨
      ∃ t a ts', first_token take ts = some (a, ts') ∧ take t = some a ∧
        ts.find? (fun t => (take t).isSome) = some t := by
  induction ts with
  | nil => exact Or.inl ⟨rfl, rfl⟩
  | cons t ts ih =>
      rw [first_token, List.find?_cons]
      cases ht : take t with
      | some a => exact Or.inr ⟨t, a, _, rfl, ht, rfl⟩
      | none =>
          rcases ih with ⟨hnone, hfind⟩ | ⟨t', a, ts', hsome, htake, hfind⟩
          · rw [hnone]
            exact Or.inl ⟨rfl, hfind⟩
          · rw [hsome]
            exact Or.inr ⟨t', a, _, rfl, htake, hfind⟩

theorem first_token_some {α : Type} {take : Bytes → Option α} {ts ts' : List Bytes} {a : α}
    (h : first_token take ts = some (a, ts')) : ∃ t ∈ ts, take t = some a := by
  rcases first_token_find take ts with ⟨hnone, _⟩ | ⟨t, b, _, hsome, htake, hfind⟩
  · rw [hnone] at h
    cases h
  · rw [hsome] at h
    obtain ⟨rfl, _⟩ := Prod.mk.inj (Option.some.inj h)
    exact ⟨t, List.mem_of_find?_eq_some hfind, htake⟩

theorem every_token_mem {α : Type} {take : Bytes → Option α} {ts : List Bytes} {x : Nat × α} :
    ∀ i, x ∈ every_token take i ts → ∃ t ∈ ts, take t = some x.2 := by
  induction ts with
  | nil => intro i h; exact absurd h List.not_mem_nil
  | cons t ts ih =>
      intro i h
      rcases List.mem_append.mp h with h | h
      · obtain ⟨a, ha, rfl⟩ := Option.map_eq_some_iff.mp (Option.mem_toList.mp h)
        exact ⟨t, List.mem_cons_self, ha⟩
      · obtain ⟨t', ht', htake⟩ := ih (i + 1) h
        exact ⟨t', List.mem_cons_of_mem t ht', htake⟩

theorem name_of_lt {ab full : List Bytes} {n i : Nat} (hab : ab.length = n)
    (hfull : full.length = n) (h : name_of ab full token = some i) : i < n := by
  unfold name_of at h
  split_ifs at h
  · rw [← hab]
    exact (List.findIdx?_eq_some_iff_getElem.mp h).1
  · rw [← hfull]
    exact (List.findIdx?_eq_some_iff_getElem.mp h).1

theorem date_of_range {year month day : Int}
    (h : date_of overflow token = some (year, month, day)) :
    (1900 ≤ year ∧ year ≤ 9999) ∧ (1 ≤ month ∧ month ≤ 12) ∧ (1 ≤ day ∧ day ≤ 31) := by
  unfold date_of at h
  split_ifs at h
  split at h
  · split_ifs at h
    obtain ⟨rfl, hrest⟩ := Prod.mk.inj (Option.some.inj h)
    obtain ⟨rfl, rfl⟩ := Prod.mk.inj hrest
    omega
  · cases h

theorem time_of_range {hour minute second : Int}
    (h : time_of overflow token = some (hour, minute, second)) :
    (0 ≤ hour ∧ hour ≤ 23) ∧ (0 ≤ minute ∧ minute ≤ 59) ∧ (0 ≤ second ∧ second ≤ 59) := by
  unfold time_of at h
  split_ifs at h
  split at h
  · split_ifs at h
    split at h
    · split_ifs at h
      obtain ⟨rfl, hrest⟩ := Prod.mk.inj (Option.some.inj h)
      obtain ⟨rfl, rfl⟩ := Prod.mk.inj hrest
      omega
    · obtain ⟨rfl, hrest⟩ := Prod.mk.inj (Option.some.inj h)
      obtain ⟨rfl, rfl⟩ := Prod.mk.inj hrest
      omega
  · cases h

theorem year_of_range {year : Int} (h : year_of overflow token = some year) :
    1900 ≤ year ∧ year ≤ 9999 := by
  unfold year_of at h
  split_ifs at h with hlen hrange
  obtain rfl := Option.some.inj h
  exact hrange

theorem day_of_range {day : Int} (h : day_of overflow token = some day) : 1 ≤ day ∧ day ≤ 31 := by
  unfold day_of at h
  split_ifs at h with hlen hrange
  obtain rfl := Option.some.inj h
  exact ⟨by omega, hrange.2⟩

end Ranges

/-! ## §5. The passes in front of the zone. -/

/-- The fields are in their ranges, and the zone is not set. -/
structure Ready (s : Date_Scan) : Prop where
  fields : Fields s.date
  zone : s.date.tm_gmtoff = -1

namespace Date_Scan

variable {overflow : Bytes → Int} {s : Date_Scan}

theorem ready_year (h : Ready s) {year : Int} (hyear : 1900 ≤ year ∧ year ≤ 9999)
    (mstr : List Bytes) (count : Int) :
    Ready ⟨{ s.date with tm_year := year - 1900 }, mstr, count⟩ :=
  have hyear' : 0 ≤ year - 1900 ∧ year - 1900 ≤ 8099 := by omega
  ⟨{ h.fields with year := Or.inr hyear' }, h.zone⟩

theorem ready_mday (h : Ready s) {day : Int} (hday : 1 ≤ day ∧ day ≤ 31) (mstr : List Bytes)
    (count : Int) : Ready ⟨{ s.date with tm_mday := day }, mstr, count⟩ :=
  ⟨{ h.fields with mday := Or.inr hday }, h.zone⟩

theorem find_date_ready (h : Ready s) : Ready (s.find_date overflow) := by
  unfold find_date
  split_ifs
  · cases htoken : first_token (date_of overflow) s.mstr with
    | none => exact h
    | some r =>
        obtain ⟨⟨year, month, day⟩, mstr⟩ := r
        obtain ⟨t, _, htake⟩ := first_token_some htoken
        obtain ⟨hyear, hmonth, hday⟩ := date_of_range htake
        have hyear' : 0 ≤ year - 1900 ∧ year - 1900 ≤ 8099 := by omega
        have hmonth' : 0 ≤ month - 1 ∧ month - 1 ≤ 11 := by omega
        exact ⟨{ h.fields with
          year := Or.inr hyear', mon := Or.inr hmonth', mday := Or.inr hday }, h.zone⟩
  · exact h

theorem find_time_ready (h : Ready s) : Ready (s.find_time overflow) := by
  unfold find_time
  split_ifs
  · cases htoken : first_token (time_of overflow) s.mstr with
    | none => exact h
    | some r =>
        obtain ⟨⟨hour, minute, second⟩, mstr⟩ := r
        obtain ⟨t, _, htake⟩ := first_token_some htoken
        obtain ⟨hhour, hminute, hsecond⟩ := time_of_range htake
        exact ⟨{ h.fields with
          hour := Or.inr hhour, min := Or.inr hminute, sec := Or.inr hsecond }, h.zone⟩
  · exact h

theorem find_weekday_ready (h : Ready s) : Ready s.find_weekday := by
  unfold find_weekday
  split_ifs
  · cases hlast : (every_token (name_of abday day) 0 s.mstr).getLast? with
    | none => exact h
    | some r =>
        obtain ⟨pos, w⟩ := r
        obtain ⟨t, _, htake⟩ := every_token_mem 0 (List.mem_of_getLast? hlast)
        have hw : w < 7 := name_of_lt rfl rfl htake
        have hwday : (0 : Int) ≤ w ∧ (w : Int) ≤ 6 := by omega
        exact ⟨{ h.fields with wday := Or.inr hwday }, h.zone⟩
  · exact h

theorem check_next_ready (h : Ready s) (pos : Nat) : Ready (s.check_next overflow pos) := by
  unfold check_next
  cases s.mstr[pos]? with
  | none => exact h
  | some token =>
      dsimp only
      split_ifs with hyear hday
      · exact ready_year h hyear _ _
      · exact ready_mday h hday _ _
      · exact h

theorem check_beside_ready (h : Ready s) (pos : Nat) : Ready (s.check_beside overflow pos) := by
  unfold check_beside
  cases s.mstr[pos]? with
  | none => exact h
  | some token =>
      dsimp only
      split_ifs with hday hyear
      · exact ready_mday h ⟨hday.1, hday.2.1⟩ _ _
      · exact ready_year h ⟨hyear.1, hyear.2.1⟩ _ _
      · exact h

theorem check_around_ready (h : Ready s) (month_pos : Nat) :
    Ready (s.check_around overflow month_pos) := by
  have hbefore : Ready (if month_pos ≥ 1 then
      (s.check_next overflow (month_pos + 1)).check_beside overflow (month_pos - 1)
      else s.check_next overflow (month_pos + 1)) := by
    split_ifs
    · exact check_beside_ready (check_next_ready h _) _
    · exact check_next_ready h _
  unfold check_around
  dsimp only
  generalize (if month_pos ≥ 1 then
      (s.check_next overflow (month_pos + 1)).check_beside overflow (month_pos - 1)
      else s.check_next overflow (month_pos + 1)) = s' at hbefore
  split_ifs
  · exact check_beside_ready (check_beside_ready hbefore _) _
  · exact check_beside_ready hbefore _
  · exact hbefore

theorem find_month_ready (h : Ready s) : Ready (s.find_month overflow) := by
  unfold find_month
  split_ifs
  · dsimp only
    cases hlast : (every_token (name_of abmon mon) 0 s.mstr).getLast? with
    | none => exact h
    | some r =>
        -- the last month found is kept, and the tokens around it are looked at
        obtain ⟨pos, m⟩ := r
        obtain ⟨t, _, htake⟩ := every_token_mem 0 (List.mem_of_getLast? hlast)
        have hm : m < 12 := name_of_lt rfl rfl htake
        have hmon : (0 : Int) ≤ m ∧ (m : Int) ≤ 11 := by omega
        have hready : Ready ⟨{ s.date with tm_mon := m }, mark_tokens (name_of abmon mon) s.mstr,
            s.count + (every_token (name_of abmon mon) 0 s.mstr).length⟩ :=
          ⟨{ h.fields with mon := Or.inr hmon }, h.zone⟩
        exact check_around_ready hready pos
  · exact h

theorem find_year_ready (h : Ready s) : Ready (s.find_year overflow) := by
  unfold find_year
  split_ifs
  · cases htoken : first_token (year_of overflow) s.mstr with
    | none => exact h
    | some r =>
        obtain ⟨t, _, htake⟩ := first_token_some htoken
        exact ready_year h (year_of_range htake) _ _
  · exact h

theorem find_day_ready (h : Ready s) : Ready (s.find_day overflow) := by
  unfold find_day
  split_ifs
  · cases htoken : first_token (day_of overflow) s.mstr with
    | none => exact h
    | some r =>
        obtain ⟨t, _, htake⟩ := first_token_some htoken
        exact ready_mday h (day_of_range htake) _ _
  · exact h

end Date_Scan

/-- **What the passes in front of the zone leave**, on any text. -/
theorem before_zone_ready (overflow : Bytes → Int) (cstr : Bytes) :
    Ready (before_zone overflow cstr) := by
  have hreset : Ready ⟨reset, tokens cstr, 0⟩ :=
    ⟨⟨Or.inl rfl, Or.inl rfl, Or.inl rfl, Or.inl rfl, Or.inl rfl, Or.inl rfl, Or.inl rfl⟩, rfl⟩
  exact Date_Scan.find_day_ready (Date_Scan.find_year_ready (Date_Scan.find_month_ready
    (Date_Scan.find_weekday_ready (Date_Scan.find_time_ready (Date_Scan.find_date_ready hreset)))))

/-! ## §6. The zone. -/

/-- The characters that stand for the hours of a zone. -/
def zone_hours (token : Bytes) : Bytes := ((explode 58 [] token).headD []).tail.take 2

/-- The characters that stand for its minutes. -/
def zone_minutes (token : Bytes) : Bytes :=
  match explode 58 [] token with
  | [substr0] => if substr0.length ≥ 4 then (substr0.drop 3).take 2 else []
  | [_, substr1] => if substr1.length ≥ 2 then substr1.take 2 else []
  | _ => []

section Zone

variable {overflow : Bytes → Int} {token : Bytes}

/-- **What the zone pass stores** are these characters, whatever number it has tested. -/
theorem zone_of_text {sign : Byte} {hh mm : Bytes}
    (h : zone_of overflow token = some (sign, hh, mm)) :
    (hh = zone_hours token ∧ mm = zone_minutes token) ∧ hh.length ≤ 2 ∧ mm.length ≤ 2 ∧
      isdigit (deref hh) = true := by
  have hdigit : ∀ substr0 : Bytes, ¬ (substr0.length < 2 ∨ ¬ isdigit (deref substr0.tail) = true) →
      isdigit (deref (substr0.tail.take 2)) = true := by
    intro substr0 hok
    obtain ⟨hlen, hdig⟩ := not_or.mp hok
    cases htail : substr0.tail with
    | nil =>
        have hpos := congrArg List.length htail
        rw [List.length_tail, List.length_nil] at hpos
        omega
    | cons c rest =>
        rw [htail] at hdig
        exact not_not.mp hdig
  have htake : ∀ (p : Prop) [Decidable p] (t : Bytes), (if p then t.take 2 else []).length ≤ 2 := by
    intro p _ t
    split_ifs
    · exact List.length_take_le 2 t
    · exact Nat.zero_le 2
  unfold zone_of at h
  unfold zone_hours zone_minutes
  obtain ⟨_, h⟩ := Option.ite_none_left_eq_some.mp h
  split at h
  · rename_i substr0 hexplode
    rw [hexplode]
    obtain ⟨hok, h⟩ := Option.ite_none_left_eq_some.mp h
    obtain ⟨_, h⟩ := Option.ite_none_right_eq_some.mp h
    obtain ⟨_, hrest⟩ := Prod.mk.inj (Option.some.inj h)
    obtain ⟨rfl, rfl⟩ := Prod.mk.inj hrest
    exact ⟨⟨rfl, rfl⟩, List.length_take_le _ _, htake _ _, hdigit substr0 hok⟩
  · rename_i substr0 substr1 hexplode
    rw [hexplode]
    obtain ⟨hok, h⟩ := Option.ite_none_left_eq_some.mp h
    obtain ⟨_, h⟩ := Option.ite_none_left_eq_some.mp h
    obtain ⟨_, h⟩ := Option.ite_none_right_eq_some.mp h
    obtain ⟨_, hrest⟩ := Prod.mk.inj (Option.some.inj h)
    obtain ⟨rfl, rfl⟩ := Prod.mk.inj hrest
    exact ⟨⟨rfl, rfl⟩, List.length_take_le _ _, htake _ _, hdigit substr0 hok⟩
  · cases h

theorem value_lt (s : Bytes) (hs : ∀ c ∈ s, isdigit c = true) : value s < 10 ^ s.length := by
  induction s using List.reverseRecOn with
  | nil => exact Nat.one_pos
  | append_singleton s c ih =>
      have hc : 48 ≤ c ∧ c ≤ 57 := of_decide_eq_true (hs c (by simp))
      have h57 : c.toNat ≤ 57 := hc.2
      have hlt := ih fun d hd => hs d (List.mem_append_left _ hd)
      rw [value_append, List.length_append, List.length_singleton, pow_succ]
      omega

/-- **Two characters are a number of two digits** at most. -/
theorem atoi_short {s : Bytes} (hs : s.length ≤ 2) :
    ∃ n, atoi s = some n ∧ -9 ≤ n ∧ n ≤ 99 ∧ (isdigit (deref s) = true → 0 ≤ n) := by
  have hlen : (s.dropWhile isspace).length ≤ 2 := ((List.dropWhile_suffix _).length_le).trans hs
  have hdigits : ∀ t : Bytes, value (t.takeWhile isdigit) < 10 ^ (t.takeWhile isdigit).length :=
    fun t => value_lt _ fun c hc => List.mem_takeWhile_imp hc
  have hshort : ∀ (t : Bytes) (k : Nat), t.length ≤ k → value (t.takeWhile isdigit) < 10 ^ k :=
    fun t k ht => (hdigits t).trans_le (Nat.pow_le_pow_right (by decide)
      (((List.takeWhile_prefix _).length_le).trans ht))
  have hfirst : isdigit (deref s) = true → (s.dropWhile isspace).head? ≠ some 45 := by
    intro hdig
    cases s with
    | nil => exact absurd hdig (by decide)
    | cons c s =>
        have hc : 48 ≤ c ∧ c ≤ 57 := of_decide_eq_true hdig
        have h48 : 48 ≤ c.toNat := hc.1
        have hspace : isspace c = false := by
          unfold isspace
          rw [decide_eq_false_iff_not]
          intro hor
          rcases hor with rfl | ⟨_, h13⟩
          · exact absurd h48 (by decide)
          · have h13' : c.toNat ≤ 13 := h13
            omega
        rw [List.dropWhile_cons_of_neg (by rw [hspace]; decide), List.head?_cons]
        intro heq
        rw [Option.some.inj heq] at h48
        exact absurd h48 (by decide)
  unfold atoi
  dsimp only
  by_cases hminus : (s.dropWhile isspace).head? = some 45
  · -- a minus, and at most one digit
    have hlt := hshort (s.dropWhile isspace).tail 1 (by rw [List.length_tail]; omega)
    rw [if_pos (Or.inl hminus), if_pos hminus, if_pos (by omega)]
    exact ⟨_, rfl, by omega, by omega, fun hdig => absurd hminus (hfirst hdig)⟩
  · have hlt : value ((if (s.dropWhile isspace).head? = some 45 ∨ (s.dropWhile isspace).head? = some 43
        then (s.dropWhile isspace).tail else s.dropWhile isspace).takeWhile isdigit) < 10 ^ 2 := by
      refine hshort _ 2 ?_
      split_ifs
      · rw [List.length_tail]
        omega
      · exact hlen
    rw [if_neg hminus, if_pos (by omega)]
    exact ⟨_, rfl, by omega, by omega, fun _ => by omega⟩

/-- The numbers the zone is made of are those of its characters. -/
theorem zone_numbers {sign : Byte} {hh mm : Bytes}
    (h : zone_of overflow token = some (sign, hh, mm)) :
    number overflow hh = (atoi (zone_hours token)).getD 0 ∧
      number overflow mm = (atoi (zone_minutes token)).getD 0 ∧
      0 ≤ number overflow hh ∧ -9 ≤ number overflow mm := by
  obtain ⟨⟨rfl, rfl⟩, hhlen, hmlen, hdig⟩ := zone_of_text h
  obtain ⟨hour, hhour, _, _, hpos⟩ := atoi_short hhlen
  obtain ⟨minute, hminute, hlow, _, _⟩ := atoi_short hmlen
  unfold number
  rw [hhour, hminute]
  exact ⟨rfl, rfl, hpos hdig, hlow⟩

end Zone

/-- The first token that the zone pass takes has at most 14 hours in the characters that
    stand for its hours and minutes. -/
def Zone_Fits (overflow : Bytes → Int) (mstr : List Bytes) : Prop :=
  ∀ token, mstr.find? (fun token => (zone_of overflow token).isSome) = some token →
    60 * (atoi (zone_hours token)).getD 0 + (atoi (zone_minutes token)).getD 0 ≤ 840

/-- **Where every field of the date is in its range**: always but for the zone, and for the
    zone exactly where its hours and minutes come to no more than 14 hours. -/
theorem date_in_range_iff (overflow : Bytes → Int) (cstr : Bytes) :
    In_Range (from_string overflow cstr).2 ↔ Zone_Fits overflow (before_zone overflow cstr).mstr := by
  -- the passes in front store what they have tested, so the zone alone decides
  obtain ⟨hfields, hunset⟩ := before_zone_ready overflow cstr
  show In_Range ((before_zone overflow cstr).find_zone overflow).date ↔ _
  generalize before_zone overflow cstr = s at hfields hunset
  unfold Date_Scan.find_zone Zone_Fits
  rw [if_pos hunset] -- `tm_gmtoff` is -1, so the pass is run
  rcases first_token_find (zone_of overflow) s.mstr with
    ⟨hnone, hfind⟩ | ⟨t, ⟨sign, hh, mm⟩, ts', hsome, htake, hfind⟩
  · rw [hnone, hfind]
    exact ⟨fun _ token h => absurd h (Option.some_ne_none token).symm,
      fun _ => ⟨hfields, Or.inl hunset⟩⟩
  · rw [hsome, hfind]
    obtain ⟨hhour, hminute, hpos, hlow⟩ := zone_numbers htake
    have hcond : (∀ token, some t = some token → 60 * (atoi (zone_hours token)).getD 0 +
        (atoi (zone_minutes token)).getD 0 ≤ 840) ↔
        60 * number overflow hh + number overflow mm ≤ 840 := by
      rw [hhour, hminute]
      exact ⟨fun hall => hall t rfl, fun hle token htoken => Option.some.inj htoken ▸ hle⟩
    rw [hcond]
    dsimp only
    constructor
    · intro hrange
      have hoff := hrange.2
      dsimp only at hoff
      split_ifs at hoff <;> omega
    · intro hle
      refine ⟨⟨hfields.sec, hfields.min, hfields.hour, hfields.mday, hfields.mon, hfields.year,
        hfields.wday⟩, Or.inr ?_⟩
      dsimp only
      split_ifs <;> omega

/-- **"+99"** is taken for a zone of 99 hours. -/
theorem date_zone_99 :
    (from_string (fun _ => 0) [43, 57, 57]).2.tm_gmtoff = -356400 ∧
      ¬ In_Range (from_string (fun _ => 0) [43, 57, 57]).2 := by
  have htokens : tokens [43, 57, 57] = [[43, 57, 57]] := by
    have hnul : NUL ∉ [43, 57, 57] ++ ([] : List Spaced).flatMap fun x => x.gap ++ x.token := by
      rw [List.flatMap_nil]
      decide
    have hread := tokens_spaced (List.cons_ne_nil 43 [57, 57]) (by decide +kernel) [] hnul
    rw [List.flatMap_nil, List.flatMap_nil, List.append_nil, List.append_nil] at hread
    rw [hread]
    decide
  have hoff : (from_string (fun _ => 0) [43, 57, 57]).2.tm_gmtoff = -356400 := by
    unfold from_string before_zone
    rw [htokens]
    decide
  refine ⟨hoff, fun hrange => ?_⟩
  have hzone := hrange.2
  rw [hoff] at hzone
  omega

end MIME_Date

end Aos
