/-
  Aos.Mime.DateText — dates as mail headers write them.

  A date is a weekday with a comma, which may be left out, a day, a month, a year,
  a time and a zone, with gaps between them.  None of the seven passes takes the
  token of another one: the tokens in front of the time are too short for a date or
  a time, a month is no weekday, and a marked token is nothing any more.

  Main results:
    • `tokens_text` — the tokens of a date;
    • `find_month_beside` — the month, with the day in front of it and the year behind;
    • `date_text_parsed` — every date is read as what it says.
-/
import Aos.Mime.Date

namespace Aos

namespace MIME_Date

/-! ## §1. Digits and names. -/

def digit (d : Nat) : Byte := 48 + UInt8.ofNat d

/-- Two digits. -/
def two (n : Nat) : Bytes := [digit (n / 10), digit (n % 10)]

/-- Four digits. -/
def four (n : Nat) : Bytes := two (n / 100) ++ two (n % 100)

theorem digit_spec {d : Nat} (hd : d < 10) :
    isdigit (digit d) = true ∧ (digit d).toNat - 48 = d := by
  have hall : ∀ d : Fin 10, isdigit (digit d) = true ∧ (digit d).toNat - 48 = d := by decide
  exact hall ⟨d, hd⟩

theorem two_digits {n : Nat} (hn : n < 100) : ∀ c ∈ two n, isdigit c = true := by
  intro c hc
  rcases List.mem_cons.mp hc with rfl | hc
  · exact (digit_spec (by omega)).1
  · rw [List.mem_singleton.mp hc]
    exact (digit_spec (Nat.mod_lt _ (by decide))).1

theorem value_two (s : Bytes) {n : Nat} (hn : n < 100) :
    value (s ++ two n) = 100 * value s + n := by
  have hsplit : s ++ two n = (s ++ [digit (n / 10)]) ++ [digit (n % 10)] := by
    rw [List.append_assoc]
    rfl
  rw [hsplit, value_append, value_append, (digit_spec (by omega)).2,
    (digit_spec (Nat.mod_lt _ (by decide))).2]
  omega

/-- Digits are read as their value. -/
theorem atoi_of_digits {s : Bytes} (hne : s ≠ []) (hs : ∀ c ∈ s, isdigit c = true)
    (hlt : value s < 2 ^ 31) : atoi s = some (value s : Int) := by
  have hread := atoi_digits s [] hne hs fun c hc => by cases hc
  rwa [List.append_nil, if_pos hlt] at hread

/-- A letter, as the C library's comparison sees it. -/
def fold (c : Byte) : Int := tolower c.toNat

/-- A name in letters of either case. -/
def Spells (text name : Bytes) : Prop := text.map fold = name.map fold

/-- Two characters that are the same letter. -/
theorem fold_eq {c d : Byte} (h : fold c = fold d) :
    toupper_char c = toupper_char d ∧ isalpha c = isalpha d ∧ (c = NUL ↔ d = NUL) := by
  have hpair : ∀ n < 256, 65 ≤ n → n ≤ 90 →
      toupper_char (UInt8.ofNat n) = toupper_char (UInt8.ofNat (n + 32)) ∧
        isalpha (UInt8.ofNat n) = isalpha (UInt8.ofNat (n + 32)) := by
    decide +kernel
  have hletter : ∀ a b : Byte, 65 ≤ a.toNat → a.toNat ≤ 90 → b.toNat = a.toNat + 32 →
      toupper_char a = toupper_char b ∧ isalpha a = isalpha b ∧ (a = NUL ↔ b = NUL) := by
    intro a b ha ha' hb
    obtain ⟨hup, halpha⟩ := hpair a.toNat a.toNat_lt ha ha'
    rw [← hb, UInt8.ofNat_toNat, UInt8.ofNat_toNat] at hup halpha
    refine ⟨hup, halpha, fun h => ?_, fun h => ?_⟩
    · rw [h] at ha
      exact absurd ha (by decide)
    · rw [h] at hb
      have hzero : (NUL : Byte).toNat = 0 := rfl
      omega
  unfold fold tolower at h
  by_cases hc : 65 ≤ c.toNat ∧ c.toNat ≤ 90
  · by_cases hd : 65 ≤ d.toNat ∧ d.toNat ≤ 90
    · have heq : c = d := UInt8.toNat_inj.mp (by split_ifs at h <;> omega)
      rw [heq]
      exact ⟨rfl, rfl, Iff.rfl⟩
    · exact hletter c d hc.1 hc.2 (by split_ifs at h <;> omega)
  · by_cases hd : 65 ≤ d.toNat ∧ d.toNat ≤ 90
    · obtain ⟨hup, halpha, hnul⟩ := hletter d c hd.1 hd.2 (by split_ifs at h <;> omega)
      exact ⟨hup.symm, halpha.symm, hnul.symm⟩
    · have heq : c = d := UInt8.toNat_inj.mp (by split_ifs at h <;> omega)
      rw [heq]
      exact ⟨rfl, rfl, Iff.rfl⟩

section Names

variable {text name : Bytes}

theorem Spells.length (h : Spells text name) : text.length = name.length := by
  have hlen := congrArg List.length h
  rwa [List.length_map, List.length_map] at hlen

theorem Spells.deref (h : Spells text name) :
    toupper_char (deref text) = toupper_char (deref name) ∧
      isalpha (deref text) = isalpha (deref name) := by
  cases text with
  | nil =>
      obtain rfl := List.map_eq_nil_iff.mp h.symm
      exact ⟨rfl, rfl⟩
  | cons c text =>
      cases name with
      | nil => exact absurd h (List.cons_ne_nil _ _)
      | cons d name =>
          obtain ⟨hup, halpha, _⟩ := fold_eq (List.cons.inj h).1
          exact ⟨hup, halpha⟩

/-- `strcasecmp` reads a name in letters of either case. -/
theorem Spells.strcasecmp (ct : Bytes) (h : Spells text name) :
    os_strcasecmp text ct = os_strcasecmp name ct := by
  induction text generalizing name ct with
  | nil =>
      obtain rfl := List.map_eq_nil_iff.mp h.symm
      rfl
  | cons c text ih =>
      cases name with
      | nil => exact absurd h (List.cons_ne_nil _ _)
      | cons d name =>
          obtain ⟨hhead, htail⟩ := List.cons.inj h
          have hfold : tolower c.toNat = tolower d.toNat := hhead
          rw [os_strcasecmp, os_strcasecmp, hfold, ih ct.tail htail]
          exact if_congr (or_congr Iff.rfl (fold_eq hhead).2.2) rfl rfl

theorem Spells.name_of (ab full : List Bytes) (h : Spells text name) :
    MIME_Date.name_of ab full text = MIME_Date.name_of ab full name := by
  unfold MIME_Date.name_of
  simp only [h.deref.2, h.length, h.strcasecmp]

/-- A name that is kept as a token is kept in letters of either case. -/
theorem Spells.push_back (h : Spells text name) (hname : MIME_Date.push_back name = [name]) :
    MIME_Date.push_back text = [text] := by
  unfold MIME_Date.push_back at hname ⊢
  rw [h.deref.1, h.length]
  dsimp only at hname ⊢
  split_ifs at hname ⊢
  · exact absurd (congrArg List.length hname) (by simp)
  · rfl
  · rfl
  · exact absurd hname (List.cons_ne_nil _ _).symm

theorem Spells.letters (h : Spells text name) (hname : ∀ d ∈ name, isalpha d = true) :
    ∀ c ∈ text, isalpha c = true := by
  intro c hc
  have hmem : fold c ∈ name.map fold := by
    rw [← h]
    exact List.mem_map_of_mem hc
  obtain ⟨d, hd, heq⟩ := List.mem_map.mp hmem
  rw [← (fold_eq heq).2.1]
  exact hname d hd

/-- **The names are apart**: a weekday is read as itself, a month as itself and as no
    weekday. -/
theorem names_apart :
    (∀ w : Fin 7, MIME_Date.name_of abday day (abday.getD w []) = some w.val ∧
      (abday.getD w []).length = 3 ∧ MIME_Date.push_back (abday.getD w []) = [abday.getD w []] ∧
      ∀ c ∈ abday.getD w [], isalpha c = true) ∧
    ∀ m : Fin 12, MIME_Date.name_of abmon mon (abmon.getD m []) = some m.val ∧
      MIME_Date.name_of abday day (abmon.getD m []) = none ∧ (abmon.getD m []).length = 3 ∧
      MIME_Date.push_back (abmon.getD m []) = [abmon.getD m []] ∧
      ∀ c ∈ abmon.getD m [], isalpha c = true := by
  have hday : ∀ w : Fin 7, MIME_Date.name_of abday day (abday.getD w []) = some w.val ∧
      (abday.getD w []).length = 3 ∧ MIME_Date.push_back (abday.getD w []) = [abday.getD w []] ∧
      (abday.getD w []).all isalpha = true := by
    decide +kernel
  have hmon : ∀ m : Fin 12, MIME_Date.name_of abmon mon (abmon.getD m []) = some m.val ∧
      MIME_Date.name_of abday day (abmon.getD m []) = none ∧ (abmon.getD m []).length = 3 ∧
      MIME_Date.push_back (abmon.getD m []) = [abmon.getD m []] ∧
      (abmon.getD m []).all isalpha = true := by
    decide +kernel
  refine ⟨fun w => ?_, fun m => ?_⟩
  · obtain ⟨hname, hlen, hkept, hall⟩ := hday w
    exact ⟨hname, hlen, hkept, List.all_eq_true.mp hall⟩
  · obtain ⟨hname, hno, hlen, hkept, hall⟩ := hmon m
    exact ⟨hname, hno, hlen, hkept, List.all_eq_true.mp hall⟩

end Names

/-! ## §2. The passes. -/

section Loops

variable {α : Type} {take : Bytes → Option α}

theorem first_token_none {ts : List Bytes} (h : ∀ t ∈ ts, take t = none) :
    first_token take ts = none := by
  rcases first_token_find take ts with ⟨hnone, _⟩ | ⟨t, a, _, _, htake, hfind⟩
  · exact hnone
  · rw [h t (List.mem_of_find?_eq_some hfind)] at htake
    cases htake

theorem first_token_at {front : List Bytes} {t : Bytes} {a : α}
    (hfront : ∀ t' ∈ front, take t' = none) (ht : take t = some a) (ts : List Bytes) :
    first_token take (front ++ t :: ts) = some (a, front ++ mark t :: ts) := by
  induction front with
  | nil => rw [List.nil_append, first_token, ht]; rfl
  | cons t' front ih =>
      rw [List.cons_append, first_token, hfront t' List.mem_cons_self,
        ih fun t' ht' => hfront t' (List.mem_cons_of_mem _ ht')]
      rfl

theorem every_token_none {ts : List Bytes} (h : ∀ t ∈ ts, take t = none) (i : Nat) :
    every_token take i ts = [] := by
  induction ts generalizing i with
  | nil => rfl
  | cons t ts ih =>
      rw [every_token, h t List.mem_cons_self, ih fun t' ht' => h t' (List.mem_cons_of_mem t ht')]
      rfl

/-- A loop that goes on, with one token to take. -/
theorem every_token_at {front : List Bytes} {t : Bytes} {a : α}
    (hfront : ∀ t' ∈ front, take t' = none) (ht : take t = some a) {ts : List Bytes}
    (hts : ∀ t' ∈ ts, take t' = none) (i : Nat) :
    every_token take i (front ++ t :: ts) = [(i + front.length, a)] := by
  induction front generalizing i with
  | nil => rw [List.nil_append, every_token, ht, every_token_none hts]; rfl
  | cons t' front ih =>
      rw [List.cons_append, every_token, hfront t' List.mem_cons_self,
        ih (fun t' ht' => hfront t' (List.mem_cons_of_mem _ ht')), List.length_cons, Nat.add_assoc,
        Nat.add_comm 1]
      rfl

theorem mark_tokens_none {ts : List Bytes} (h : ∀ t ∈ ts, take t = none) :
    mark_tokens take ts = ts := by
  refine (List.map_congr_left fun t ht => ?_).trans (List.map_id ts)
  rw [h t ht]
  rfl

theorem mark_tokens_at {front : List Bytes} {t : Bytes} {a : α}
    (hfront : ∀ t' ∈ front, take t' = none) (ht : take t = some a) {ts : List Bytes}
    (hts : ∀ t' ∈ ts, take t' = none) :
    mark_tokens take (front ++ t :: ts) = front ++ mark t :: ts := by
  have hboth : mark_tokens take (front ++ t :: ts)
      = mark_tokens take front ++ mark_tokens take (t :: ts) := List.map_append
  have hhead : mark_tokens take (t :: ts) = mark t :: mark_tokens take ts := by
    show (if (take t).isSome then mark t else t) :: mark_tokens take ts = _
    rw [ht]
    rfl
  rw [mark_tokens_none hts] at hhead
  exact hboth.trans (congrArg₂ (· ++ ·) (mark_tokens_none hfront) hhead)

end Loops

/-- What is too short, or begins with no digit, is no date and no time. -/
theorem date_of_none (overflow : Bytes → Int) {t : Bytes}
    (h : isdigit (deref t) = false ∨ t.length < 10) : date_of overflow t = none := by
  unfold date_of
  refine if_pos (h.imp_left fun hdig => ?_)
  rw [hdig]
  decide

theorem time_of_none (overflow : Bytes → Int) {t : Bytes}
    (h : isdigit (deref t) = false ∨ t.length < 5) : time_of overflow t = none := by
  unfold time_of
  refine if_pos (h.imp_left fun hdig => ?_)
  rw [hdig]
  decide

/-- What begins with no letter is no name. -/
theorem name_of_none (ab full : List Bytes) {t : Bytes} (h : isalpha (deref t) = false) :
    name_of ab full t = none := by
  unfold name_of
  refine if_pos ?_
  rw [h]
  decide

/-- What begins with no sign is no zone. -/
theorem zone_of_none (overflow : Bytes → Int) {t : Bytes} (h : deref t ≠ 43 ∧ deref t ≠ 45) :
    zone_of overflow t = none := if_pos h

section Month

variable {overflow : Bytes → Int}

theorem check_next_year {s : Date_Scan} {pos : Nat} {Y : Bytes} (hY : s.mstr[pos]? = some Y)
    (hyear : 1900 ≤ number overflow Y ∧ number overflow Y ≤ 9999) :
    s.check_next overflow pos
      = s.took { s.date with tm_year := number overflow Y - 1900 } pos := by
  unfold Date_Scan.check_next
  rw [hY]
  exact if_pos hyear

theorem check_beside_day {s : Date_Scan} {pos : Nat} {D : Bytes} (hD : s.mstr[pos]? = some D)
    (hday : 1 ≤ number overflow D ∧ number overflow D ≤ 31) (hset : s.date.tm_year ≠ -1) :
    s.check_beside overflow pos = s.took { s.date with tm_mday := number overflow D } pos := by
  unfold Date_Scan.check_beside
  rw [hD]
  exact if_pos ⟨hday.1, hday.2, hset⟩

/-- The year behind the month makes the number in front of it the day. -/
theorem check_around_beside {s : Date_Scan} {pos : Nat} {D Y : Bytes} (hD : s.mstr[pos]? = some D)
    (hY : s.mstr[pos + 2]? = some Y)
    (hyear : 1900 ≤ number overflow Y ∧ number overflow Y ≤ 9999)
    (hday : 1 ≤ number overflow D ∧ number overflow D ≤ 31) :
    s.check_around overflow (pos + 1)
      = ⟨{ s.date with tm_year := number overflow Y - 1900, tm_mday := number overflow D },
          (s.mstr.modify (pos + 2) mark).modify pos mark, s.count + 1 + 1⟩ := by
  have hset : number overflow Y - 1900 ≠ -1 := by omega
  have hsame : (s.took { s.date with tm_year := number overflow Y - 1900 } (pos + 2)).mstr[pos]?
      = some D := by
    show (s.mstr.modify (pos + 2) mark)[pos]? = some D
    rw [List.getElem?_modify, hD]
    exact congrArg some (if_neg (by omega))
  have hfront : (s.check_next overflow (pos + 1 + 1)).check_beside overflow (pos + 1 - 1)
      = ⟨{ s.date with tm_year := number overflow Y - 1900, tm_mday := number overflow D },
          (s.mstr.modify (pos + 2) mark).modify pos mark, s.count + 1 + 1⟩ := by
    rw [Nat.add_sub_cancel, check_next_year hY hyear, check_beside_day hsame hday hset]
    rfl
  unfold Date_Scan.check_around
  dsimp only
  rw [if_pos (Nat.le_add_left 1 pos), hfront]
  -- year and day are set, so the tokens further off are not looked at
  refine if_neg fun hmiss => ?_
  rcases hmiss with h | h
  · exact hset h
  · have hmday : number overflow D = -1 := h
    omega

end Month

/-- **A month between its day and its year.** -/
theorem find_month_beside (overflow : Bytes → Int) {pre : Option Bytes} {D M Y T Z : Bytes} {m : Nat}
    (date : MIME_Date) (count : Int) (hmon : date.tm_mon = -1)
    (hpre : ∀ P ∈ pre, name_of abmon mon P = none) (hD : name_of abmon mon D = none)
    (hM : name_of abmon mon M = some m) (hY : name_of abmon mon Y = none)
    (hT : name_of abmon mon T = none) (hZ : name_of abmon mon Z = none)
    (hyear : 1900 ≤ number overflow Y ∧ number overflow Y ≤ 9999)
    (hday : 1 ≤ number overflow D ∧ number overflow D ≤ 31) :
    (Date_Scan.mk date (pre.toList ++ [D, M, Y, T, Z]) count).find_month overflow
      = ⟨{ date with
            tm_mon := m, tm_year := number overflow Y - 1900, tm_mday := number overflow D },
          pre.toList ++ [mark D, mark M, mark Y, T, Z], count + 1 + 1 + 1⟩ := by
  have hfront : ∀ t ∈ pre.toList ++ [D], name_of abmon mon t = none := by
    intro t ht
    rcases List.mem_append.mp ht with ht | ht
    · exact hpre t (Option.mem_toList.mp ht)
    · rw [List.mem_singleton.mp ht]
      exact hD
  have hrest : ∀ t ∈ [Y, T, Z], name_of abmon mon t = none := by
    intro t ht
    simp only [List.mem_cons, List.not_mem_nil, or_false] at ht
    rcases ht with rfl | rfl | rfl
    · exact hY
    · exact hT
    · exact hZ
  have hfound : every_token (name_of abmon mon) 0 (pre.toList ++ [D, M, Y, T, Z])
      = [(pre.toList.length + 1, m)] := by
    have hone := every_token_at hfront hM hrest 0
    rwa [List.append_assoc, List.length_append, Nat.zero_add] at hone
  have hmarked : mark_tokens (name_of abmon mon) (pre.toList ++ [D, M, Y, T, Z])
      = pre.toList ++ [D, mark M, Y, T, Z] := by
    have hone := mark_tokens_at hfront hM hrest
    rwa [List.append_assoc, List.append_assoc] at hone
  unfold Date_Scan.find_month
  dsimp only
  rw [if_pos hmon, hfound, hmarked]
  -- the place of the month depends on whether a weekday stands in front
  cases pre with
  | none => exact check_around_beside rfl rfl hyear hday
  | some P => exact check_around_beside rfl rfl hyear hday

/-! ## §3. The text of a date. -/

/-- White space between two items. -/
structure Gap where
  text : Bytes
  ne : text ≠ []
  ok : ∀ b ∈ text, b = SP ∨ b = TAB ∨ b = CR ∨ b = LF

/-- A token that is kept, of characters that are no separators. -/
structure Part (t : Bytes) : Prop where
  ne : t ≠ []
  chars : ∀ b ∈ t, ¬ Separator b ∧ b ≠ NUL
  kept : push_back t = [t]

/-- The characters of the tokens. -/
theorem part_char {b : Byte} (h : isdigit b = true ∨ isalpha b = true ∨ b = 43 ∨ b = 45 ∨ b = 58) :
    ¬ Separator b ∧ b ≠ NUL := by
  have hall : ∀ n < 256, isdigit (UInt8.ofNat n) = true ∨ isalpha (UInt8.ofNat n) = true ∨
      UInt8.ofNat n = 43 ∨ UInt8.ofNat n = 45 ∨ UInt8.ofNat n = 58 →
      ¬ Separator (UInt8.ofNat n) ∧ UInt8.ofNat n ≠ NUL := by
    decide +kernel
  have hb := hall b.toNat b.toNat_lt
  rw [UInt8.ofNat_toNat] at hb
  exact hb h

/-- A token that begins with a digit is kept. -/
theorem push_back_digit {t : Bytes} (h : isdigit (deref t) = true) : push_back t = [t] := by
  have hall : ∀ n < 256, isdigit (UInt8.ofNat n) = true →
      isdigit (toupper_char (UInt8.ofNat n)) = true ∧
        (Char_Map.set (lit "JFMASONDTW+-")).has (toupper_char (UInt8.ofNat n)) = false := by
    decide +kernel
  have hc := hall (deref t).toNat (deref t).toNat_lt
  rw [UInt8.ofNat_toNat] at hc
  obtain ⟨hdig, hno⟩ := hc h
  unfold push_back
  dsimp only
  rw [if_pos hdig, if_neg fun hhas => by rw [hno] at hhas; exact absurd hhas.1 (by decide)]
  rfl

theorem Part.of_digits {t : Bytes} (hne : t ≠ [])
    (ht : ∀ c ∈ t, isdigit c = true ∨ c = 58) (hfirst : isdigit (deref t) = true) : Part t :=
  ⟨hne, fun b hb => part_char ((ht b hb).imp_right fun h => Or.inr (Or.inr (Or.inr h))),
    push_back_digit hfirst⟩

theorem Part.of_name {t name : Bytes} (h : Spells t name) (hlen : name.length = 3)
    (hletters : ∀ c ∈ name, isalpha c = true) (hkept : push_back name = [name]) : Part t where
  ne := fun hnil => by
    have h3 := h.length
    rw [hnil, hlen] at h3
    cases h3
  chars := fun b hb => part_char (Or.inr (Or.inl (h.letters hletters b hb)))
  kept := h.push_back hkept

theorem Gap.separates (g : Gap) : ∀ b ∈ g.text, Separator b := by
  intro b hb
  rcases g.ok b hb with rfl | rfl | rfl | rfl <;> decide

/-- A token behind a gap. -/
def spaced (g : Gap) {t : Bytes} (ht : Part t) : Spaced :=
  ⟨g.text, t, g.ne, g.separates, ht.ne, fun b hb => (ht.chars b hb).1⟩

theorem no_nul {items : List Spaced} (h : ∀ x ∈ items, NUL ∉ x.token) {t : Bytes} (ht : NUL ∉ t) :
    NUL ∉ t ++ items.flatMap fun x => x.gap ++ x.token := by
  intro hmem
  rcases List.mem_append.mp hmem with hmem | hmem
  · exact ht hmem
  · obtain ⟨x, hx, hmem⟩ := List.mem_flatMap.mp hmem
    rcases List.mem_append.mp hmem with hmem | hmem
    · exact absurd (x.gap_ok NUL hmem) (by decide)
    · exact h x hx hmem

/-- `Www,` in letters of either case, with a gap behind it. -/
structure Weekday_Text where
  day : Fin 7
  name : Bytes
  name_ok : Spells name (abday.getD day [])
  gap : Gap

/-- `[Www,] D Mon YYYY HH:MM:SS +hhmm` -/
structure Date_Text where
  weekday : Option Weekday_Text
  mday : Nat
  mday_ok : 1 ≤ mday ∧ mday ≤ 31
  mday_text : Bytes
  mday_text_ok : mday_text = two mday ∨ (mday < 10 ∧ mday_text = [digit mday])
  gap1 : Gap
  month : Fin 12
  mon_text : Bytes
  mon_text_ok : Spells mon_text (abmon.getD month [])
  gap2 : Gap
  year : Nat
  year_ok : 1900 ≤ year ∧ year ≤ 9999
  gap3 : Gap
  hour : Nat
  hour_ok : hour ≤ 23
  min : Nat
  min_ok : min ≤ 59
  sec : Nat
  sec_ok : sec ≤ 59
  gap4 : Gap
  sign : Byte
  sign_ok : sign = 43 ∨ sign = 45
  zone_hour : Nat
  zone_min : Nat
  zone_ok : zone_min < 60 ∧ 100 * zone_hour + zone_min ≤ 1400

namespace Date_Text

variable (d : Date_Text)

/-- `HH:MM:SS` -/
def time : Bytes := two d.hour ++ 58 :: (two d.min ++ 58 :: two d.sec)

/-- `+hhmm` or `-hhmm` -/
def zone : Bytes := d.sign :: (two d.zone_hour ++ two d.zone_min)

/-- The items behind the weekday. -/
def items : Bytes :=
  d.mday_text ++ (d.gap1.text ++ d.mon_text ++ (d.gap2.text ++ four d.year ++
    (d.gap3.text ++ d.time ++ (d.gap4.text ++ d.zone))))

def text : Bytes :=
  match d.weekday with
  | none => d.items
  | some w => w.name ++ 44 :: (w.gap.text ++ d.items)

/-- What the text says; the zone is what has to be added to come to GMT. -/
def meant : MIME_Date where
  tm_sec := d.sec
  tm_min := d.min
  tm_hour := d.hour
  tm_mday := d.mday
  tm_mon := d.month.val
  tm_year := d.year - 1900
  tm_wday := match d.weekday with
    | none => -1
    | some w => w.day.val
  tm_gmtoff :=
    if d.sign = 43 then -(3600 * d.zone_hour + 60 * d.zone_min : Int)
    else 3600 * d.zone_hour + 60 * d.zone_min

/-- The tokens behind the weekday. -/
def parts : List Bytes := [d.mday_text, d.mon_text, four d.year, d.time, d.zone]

/-! ### What is written. -/

theorem mday_digits : d.mday_text ≠ [] ∧ d.mday_text.length ≤ 2 ∧
    (∀ c ∈ d.mday_text, isdigit c = true) ∧ value d.mday_text = d.mday := by
  have hmday := d.mday_ok
  rcases d.mday_text_ok with h | ⟨hlt, h⟩
  · rw [h]
    exact ⟨List.cons_ne_nil _ _, le_rfl, two_digits (by omega),
      (value_two [] (by omega)).trans (Nat.zero_add _)⟩
  · obtain ⟨hdig, hval⟩ := digit_spec hlt
    rw [h]
    refine ⟨List.cons_ne_nil _ _, Nat.le_succ 1, fun c hc => ?_, ?_⟩
    · rw [List.mem_singleton.mp hc]
      exact hdig
    · show 10 * 0 + ((digit d.mday).toNat - 48) = d.mday
      rw [hval, Nat.mul_zero, Nat.zero_add]

theorem year_digits : (∀ c ∈ four d.year, isdigit c = true) ∧ value (four d.year) = d.year := by
  have hyear := d.year_ok
  have hhigh : d.year / 100 < 100 := by omega
  have hlow : d.year % 100 < 100 := Nat.mod_lt _ (by decide)
  constructor
  · intro c hc
    rcases List.mem_append.mp hc with hc | hc
    · exact two_digits hhigh c hc
    · exact two_digits hlow c hc
  · have hfirst : value (two (d.year / 100)) = d.year / 100 :=
      (value_two [] hhigh).trans (Nat.zero_add _)
    rw [four, value_two _ hlow, hfirst]
    omega

/-! ### The tokens. -/

theorem mday_part : Part d.mday_text := by
  obtain ⟨hne, _, hdigits, _⟩ := d.mday_digits
  refine Part.of_digits hne (fun c hc => Or.inl (hdigits c hc)) ?_
  obtain ⟨c, t, ht⟩ := List.exists_cons_of_ne_nil hne
  rw [ht] at hdigits ⊢
  exact hdigits c List.mem_cons_self

theorem mon_part : Part d.mon_text := by
  obtain ⟨_, _, hlen, hkept, hletters⟩ := names_apart.2 d.month
  exact Part.of_name d.mon_text_ok hlen hletters hkept

theorem year_part : Part (four d.year) :=
  Part.of_digits (List.cons_ne_nil _ _) (fun c hc => Or.inl (d.year_digits.1 c hc))
    (d.year_digits.1 _ List.mem_cons_self)

theorem time_part : Part d.time := by
  have hhour := two_digits (n := d.hour) (by have := d.hour_ok; omega)
  have hmin := two_digits (n := d.min) (by have := d.min_ok; omega)
  have hsec := two_digits (n := d.sec) (by have := d.sec_ok; omega)
  refine Part.of_digits (List.cons_ne_nil _ _) (fun c hc => ?_) (hhour _ List.mem_cons_self)
  rcases List.mem_append.mp hc with hc | hc
  · exact Or.inl (hhour c hc)
  rcases List.mem_cons.mp hc with rfl | hc
  · exact Or.inr rfl
  rcases List.mem_append.mp hc with hc | hc
  · exact Or.inl (hmin c hc)
  rcases List.mem_cons.mp hc with rfl | hc
  · exact Or.inr rfl
  · exact Or.inl (hsec c hc)

theorem zone_digits : d.zone_hour < 100 ∧ d.zone_min < 100 ∧
    ∀ c ∈ two d.zone_hour ++ two d.zone_min, isdigit c = true := by
  have hzone := d.zone_ok
  have hh : d.zone_hour < 100 := by omega
  have hm : d.zone_min < 100 := by omega
  refine ⟨hh, hm, fun c hc => ?_⟩
  rcases List.mem_append.mp hc with hc | hc
  · exact two_digits hh c hc
  · exact two_digits hm c hc

theorem zone_part : Part d.zone := by
  have hsign : isdigit (toupper_char d.sign) = false ∧
      (Char_Map.set (lit "JFMASONDTW+-")).has (toupper_char d.sign) = true := by
    rcases d.sign_ok with h | h
    · rw [h]
      decide
    · rw [h]
      decide
  have hkept : push_back d.zone = [d.zone] := by
    have hfirst : deref d.zone = d.sign := rfl
    have hlen : d.zone.length = 5 := rfl
    unfold push_back
    dsimp only
    rw [hfirst, if_neg (by rw [hsign.1]; decide), if_pos ⟨hsign.2, by omega, by omega⟩]
    rfl
  refine ⟨List.cons_ne_nil _ _, fun b hb => ?_, hkept⟩
  rcases List.mem_cons.mp hb with rfl | hb
  · exact part_char (d.sign_ok.elim (fun h => Or.inr (Or.inr (Or.inl h)))
      fun h => Or.inr (Or.inr (Or.inr (Or.inl h))))
  · exact part_char (Or.inl (d.zone_digits.2.2 b hb))

/-- The tokens behind the one of the day. -/
def behind_day : List Spaced :=
  [spaced d.gap1 d.mon_part, spaced d.gap2 d.year_part, spaced d.gap3 d.time_part,
    spaced d.gap4 d.zone_part]

theorem items_spaced :
    d.items = d.mday_text ++ d.behind_day.flatMap fun x => x.gap ++ x.token := by
  show _ = d.mday_text ++ (d.gap1.text ++ d.mon_text ++ (d.gap2.text ++ four d.year ++
    (d.gap3.text ++ d.time ++ (d.gap4.text ++ d.zone ++ []))))
  rw [List.append_nil]
  rfl

theorem behind_day_kept : (d.behind_day.flatMap fun x => push_back x.token)
    = [d.mon_text, four d.year, d.time, d.zone] := by
  show push_back d.mon_text ++ (push_back (four d.year) ++ (push_back d.time ++
    (push_back d.zone ++ []))) = _
  rw [d.mon_part.kept, d.year_part.kept, d.time_part.kept, d.zone_part.kept]
  rfl

theorem behind_day_no_nul : ∀ x ∈ d.behind_day, NUL ∉ x.token := by
  have hpart : ∀ {t : Bytes}, Part t → NUL ∉ t := fun ht hmem => (ht.chars NUL hmem).2 rfl
  intro x hx
  simp only [behind_day, List.mem_cons, List.not_mem_nil, or_false] at hx
  rcases hx with rfl | rfl | rfl | rfl
  · exact hpart d.mon_part
  · exact hpart d.year_part
  · exact hpart d.time_part
  · exact hpart d.zone_part

/-- **The tokens of a date.** -/
theorem tokens_text :
    tokens d.text = (d.weekday.map Weekday_Text.name).toList ++ d.parts := by
  have hmday := d.mday_part
  have hnul : NUL ∉ d.mday_text := fun hmem => (hmday.chars NUL hmem).2 rfl
  unfold text
  cases d.weekday with
  | none =>
      dsimp only
      rw [d.items_spaced, tokens_spaced hmday.ne (fun b hb => (hmday.chars b hb).1) _
        (no_nul d.behind_day_no_nul hnul), hmday.kept, d.behind_day_kept]
      rfl
  | some w =>
      obtain ⟨_, hlen, hkept, hletters⟩ := names_apart.1 w.day
      have hname : Part w.name := Part.of_name w.name_ok hlen hletters hkept
      have hcomma : ∀ b ∈ 44 :: w.gap.text, Separator b := by
        intro b hb
        rcases List.mem_cons.mp hb with rfl | hb
        · decide
        · exact w.gap.separates b hb
      have hall : w.name ++ 44 :: (w.gap.text ++ d.items)
          = w.name ++ (Spaced.mk (44 :: w.gap.text) d.mday_text (List.cons_ne_nil _ _) hcomma
              hmday.ne (fun b hb => (hmday.chars b hb).1) :: d.behind_day).flatMap
                fun x => x.gap ++ x.token := by
        rw [List.flatMap_cons, d.items_spaced]
        simp only [List.cons_append, List.append_assoc]
      dsimp only
      rw [hall, tokens_spaced hname.ne (fun b hb => (hname.chars b hb).1) _ (no_nul ?_ ?_),
        hname.kept, List.flatMap_cons, d.behind_day_kept]
      · show [w.name] ++ (push_back d.mday_text ++ _) = _
        rw [hmday.kept]
        rfl
      · intro x hx
        rcases List.mem_cons.mp hx with rfl | hx
        · exact hnul
        · exact d.behind_day_no_nul x hx
      · exact fun hmem => (hname.chars NUL hmem).2 rfl

/-! ### The numbers. -/

theorem isdigit_spec {c : Byte} (h : isdigit c = true) :
    isalpha c = false ∧ c ≠ 58 ∧ c ≠ 43 ∧ c ≠ 45 ∧ isspace c = false := by
  have hall : ∀ n < 256, isdigit (UInt8.ofNat n) = true → isalpha (UInt8.ofNat n) = false ∧
      UInt8.ofNat n ≠ 58 ∧ UInt8.ofNat n ≠ 43 ∧ UInt8.ofNat n ≠ 45 ∧
      isspace (UInt8.ofNat n) = false := by
    decide +kernel
  have hc := hall c.toNat c.toNat_lt
  rw [UInt8.ofNat_toNat] at hc
  exact hc h

theorem number_of_digits (overflow : Bytes → Int) {t : Bytes} (hne : t ≠ [])
    (ht : ∀ c ∈ t, isdigit c = true) (hlt : value t < 2 ^ 31) : number overflow t = value t := by
  unfold number
  rw [atoi_of_digits hne ht hlt]
  rfl

theorem number_two (overflow : Bytes → Int) {n : Nat} (hn : n < 100) :
    number overflow (two n) = n := by
  have hval : value (two n) = n := (value_two [] hn).trans (Nat.zero_add _)
  have hne : two n ≠ [] := List.cons_ne_nil _ _
  rw [number_of_digits overflow hne (two_digits hn) (by omega), hval]

theorem explode_split {separator : Byte} {a : Bytes} (ha : separator ∉ a) (b : Bytes) :
    ∀ beg, explode separator beg (a ++ separator :: b) = (beg ++ a) :: explode separator [] b := by
  induction a with
  | nil =>
      intro beg
      rw [List.nil_append, explode, if_pos rfl, List.append_nil]
  | cons c a ih =>
      intro beg
      rw [List.mem_cons, not_or] at ha
      rw [List.cons_append, explode, if_neg (Ne.symm ha.1), ih ha.2, List.append_assoc]
      rfl

theorem explode_last {separator : Byte} {a : Bytes} (ha : separator ∉ a) :
    ∀ beg, explode separator beg a = [beg ++ a] := by
  induction a with
  | nil =>
      intro beg
      rw [explode, List.append_nil]
  | cons c a ih =>
      intro beg
      rw [List.mem_cons, not_or] at ha
      rw [explode, if_neg (Ne.symm ha.1), ih ha.2, List.append_assoc]
      rfl

theorem no_colon {n : Nat} (hn : n < 100) : (58 : Byte) ∉ two n :=
  fun h => (isdigit_spec (two_digits hn 58 h)).2.1 rfl

/-- The token of the time. -/
theorem time_of_time (overflow : Bytes → Int) :
    time_of overflow d.time = some ((d.hour : Int), (d.min : Int), (d.sec : Int)) := by
  have hh := d.hour_ok
  have hm := d.min_ok
  have hs := d.sec_ok
  have hexplode : explode 58 [] d.time = [two d.hour, two d.min, two d.sec] := by
    unfold time
    rw [explode_split (no_colon (by omega)), explode_split (no_colon (by omega)),
      explode_last (no_colon (by omega))]
    rfl
  have hfirst : ∀ n, n < 100 → isdigit (deref (two n)) = true :=
    fun n hn => two_digits hn _ List.mem_cons_self
  have hbegin : isdigit (deref d.time) = true := hfirst d.hour (by omega)
  have hlen : d.time.length = 8 := rfl
  unfold time_of
  rw [if_neg (by rw [hbegin, hlen]; decide), hexplode]
  dsimp only
  rw [number_two overflow (by omega : d.hour < 100), number_two overflow (by omega : d.min < 100),
    number_two overflow (by omega : d.sec < 100), hfirst d.min (by omega),
    hfirst d.sec (by omega), if_neg (by simp), if_neg (by omega), if_neg (by simp),
    if_neg (by omega), if_neg (by simp), if_neg (by omega)]

/-- A number with a sign. -/
theorem atoi_signed {sign : Byte} (hsign : sign = 43 ∨ sign = 45) {t : Bytes}
    (ht : ∀ c ∈ t, isdigit c = true) (hlt : value t < 2 ^ 31) :
    atoi (sign :: t) = some (if sign = 43 then (value t : Int) else -(value t : Int)) := by
  have htake : t.takeWhile isdigit = t := List.takeWhile_eq_self_iff.mpr ht
  have hspace : (sign :: t).dropWhile isspace = sign :: t := by
    refine List.dropWhile_cons_of_neg ?_
    rcases hsign with rfl | rfl <;> decide
  unfold atoi
  rw [hspace]
  dsimp only
  rw [List.head?_cons, List.tail_cons]
  rcases hsign with rfl | rfl
  · have hplus : some (43 : Byte) ≠ some 45 := by decide
    rw [if_pos (Or.inr rfl), htake, if_neg hplus, if_pos (by omega), if_pos rfl]
  · rw [if_pos (Or.inl rfl), htake, if_pos rfl, if_pos (by omega), if_neg (by decide)]

/-- The token of the zone. -/
theorem zone_of_zone (overflow : Bytes → Int) :
    zone_of overflow d.zone = some (d.sign, two d.zone_hour, two d.zone_min) := by
  have hzone := d.zone_ok
  obtain ⟨hh, hm, hdigits⟩ := d.zone_digits
  have hval : value (two d.zone_hour ++ two d.zone_min) = 100 * d.zone_hour + d.zone_min := by
    have hfirst : value (two d.zone_hour) = d.zone_hour := (value_two [] hh).trans (Nat.zero_add _)
    rw [value_two _ hm, hfirst]
  -- without a colon the token is one number with a sign
  have hcolon : (58 : Byte) ∉ d.zone := by
    intro hmem
    rcases List.mem_cons.mp hmem with heq | hmem
    · rcases d.sign_ok with h | h
      · rw [h] at heq
        exact absurd heq (by decide)
      · rw [h] at heq
        exact absurd heq (by decide)
    · exact (isdigit_spec (hdigits 58 hmem)).2.1 rfl
  have hnumber : number overflow d.zone
      = if d.sign = 43 then ((100 * d.zone_hour + d.zone_min : Nat) : Int)
        else -((100 * d.zone_hour + d.zone_min : Nat) : Int) := by
    have hread := atoi_signed d.sign_ok hdigits (by omega)
    unfold number zone
    rw [hread, hval]
    rfl
  have hfirst : isdigit (deref d.zone.tail) = true := hdigits _ List.mem_cons_self
  have hlen : d.zone.length = 5 := rfl
  have hrange : number overflow d.zone ≥ -1400 ∧ number overflow d.zone ≤ 1400 := by
    rw [hnumber]
    split_ifs <;> omega
  have hsign : ¬ (deref d.zone ≠ 43 ∧ deref d.zone ≠ 45) := fun h => d.sign_ok.elim h.1 h.2
  unfold zone_of
  rw [if_neg hsign, explode_last hcolon, List.nil_append]
  dsimp only
  rw [if_neg (by rw [hfirst, hlen]; decide), if_pos hrange]
  rfl

/-! ### The passes on the tokens. -/

/-- A token that has been marked is nothing any more. -/
theorem mark_none (overflow : Bytes → Int) (ab full : List Bytes) (t : Bytes) :
    name_of ab full (mark t) = none ∧ zone_of overflow (mark t) = none := by
  have hfirst : deref (mark t) = 37 := rfl
  refine ⟨name_of_none ab full ?_, zone_of_none overflow ?_⟩
  · rw [hfirst]
    decide
  · rw [hfirst]
    decide

/-- The token of the weekday, where there is one. -/
def wday_text : Option Bytes := d.weekday.map Weekday_Text.name

theorem wday_length : ∀ P ∈ d.wday_text, P.length = 3 := by
  intro P hP
  obtain ⟨w, _, rfl⟩ := Option.map_eq_some_iff.mp hP
  rw [w.name_ok.length]
  exact (names_apart.1 w.day).2.1

theorem mon_length : d.mon_text.length = 3 := by
  rw [d.mon_text_ok.length]
  exact (names_apart.2 d.month).2.2.1

/-- The tokens in front of the time are short. -/
theorem front_short : ∀ t ∈ d.wday_text.toList ++ [d.mday_text, d.mon_text, four d.year],
    t.length < 5 := by
  intro t ht
  rcases List.mem_append.mp ht with ht | ht
  · rw [d.wday_length t (Option.mem_toList.mp ht)]
    decide
  · simp only [List.mem_cons, List.not_mem_nil, or_false] at ht
    rcases ht with rfl | rfl | rfl
    · exact lt_of_le_of_lt d.mday_digits.2.1 (by decide)
    · rw [d.mon_length]
      decide
    · exact Nat.lt_succ_self 4

theorem find_date_parts (overflow : Bytes → Int) :
    (Date_Scan.mk reset (d.wday_text.toList ++ d.parts) 0).find_date overflow
      = ⟨reset, d.wday_text.toList ++ d.parts, 0⟩ := by
  have hnone : first_token (date_of overflow) (d.wday_text.toList ++ d.parts) = none := by
    refine first_token_none fun t ht => date_of_none overflow (Or.inr ?_)
    have hsplit : d.wday_text.toList ++ d.parts
        = (d.wday_text.toList ++ [d.mday_text, d.mon_text, four d.year]) ++ [d.time, d.zone] := by
      rw [List.append_assoc]
      rfl
    rw [hsplit] at ht
    rcases List.mem_append.mp ht with ht | ht
    · exact lt_trans (d.front_short t ht) (by decide)
    · simp only [List.mem_cons, List.not_mem_nil, or_false] at ht
      rcases ht with rfl | rfl
      · exact (by decide : 8 < 10)
      · exact (by decide : 5 < 10)
  unfold Date_Scan.find_date
  dsimp only
  rw [hnone]
  exact ite_self _

theorem find_time_parts (overflow : Bytes → Int) :
    (Date_Scan.mk reset (d.wday_text.toList ++ d.parts) 0).find_time overflow
      = ⟨{ reset with tm_sec := d.sec, tm_min := d.min, tm_hour := d.hour },
          d.wday_text.toList ++ [d.mday_text, d.mon_text, four d.year, mark d.time, d.zone], 3⟩ := by
  have hfound : first_token (time_of overflow) (d.wday_text.toList ++ d.parts)
      = some (((d.hour : Int), (d.min : Int), (d.sec : Int)),
        d.wday_text.toList ++ [d.mday_text, d.mon_text, four d.year, mark d.time, d.zone]) := by
    have hread := first_token_at
      (fun t ht => time_of_none overflow (Or.inr (d.front_short t ht))) (d.time_of_time overflow)
      [d.zone]
    rwa [List.append_assoc, List.append_assoc] at hread
  unfold Date_Scan.find_time
  dsimp only
  rw [hfound]
  exact if_pos (by decide)

/-- Numbers and the zone are no names. -/
theorem no_names (ab full : List Bytes) :
    name_of ab full d.mday_text = none ∧ name_of ab full (four d.year) = none ∧
      name_of ab full d.zone = none := by
  obtain ⟨hne, _, hdigits, _⟩ := d.mday_digits
  obtain ⟨c, t, ht⟩ := List.exists_cons_of_ne_nil hne
  refine ⟨name_of_none ab full ?_, name_of_none ab full ?_, name_of_none ab full ?_⟩
  · rw [ht] at hdigits ⊢
    exact (isdigit_spec (hdigits c List.mem_cons_self)).1
  · exact (isdigit_spec (d.year_digits.1 _ List.mem_cons_self)).1
  · have hfirst : deref d.zone = d.sign := rfl
    rw [hfirst]
    rcases d.sign_ok with h | h
    · rw [h]
      decide
    · rw [h]
      decide

theorem find_weekday_parts (date : MIME_Date) (count : Int) (hwday : date.tm_wday = -1) :
    (Date_Scan.mk date
        (d.wday_text.toList ++ [d.mday_text, d.mon_text, four d.year, mark d.time, d.zone])
        count).find_weekday
      = ⟨{ date with tm_wday := d.meant.tm_wday }, (d.wday_text.map mark).toList ++
          [d.mday_text, d.mon_text, four d.year, mark d.time, d.zone], count⟩ := by
  obtain ⟨hD, hY, hZ⟩ := d.no_names abday day
  have hM : name_of abday day d.mon_text = none := by
    rw [d.mon_text_ok.name_of]
    exact (names_apart.2 d.month).2.1
  have hT := (mark_none (fun _ => 0) abday day d.time).1
  have hnone : ∀ t ∈ [d.mday_text, d.mon_text, four d.year, mark d.time, d.zone],
      name_of abday day t = none := by
    intro t ht
    simp only [List.mem_cons, List.not_mem_nil, or_false] at ht
    rcases ht with rfl | rfl | rfl | rfl | rfl
    · exact hD
    · exact hM
    · exact hY
    · exact hT
    · exact hZ
  unfold Date_Scan.find_weekday wday_text meant
  dsimp only
  rw [if_pos hwday]
  cases d.weekday with
  | none =>
      rw [Option.map_none, Option.toList_none, List.nil_append, every_token_none hnone, ← hwday]
      rfl
  | some w =>
      have hW : name_of abday day w.name = some w.day.val := by
        rw [w.name_ok.name_of]
        exact (names_apart.1 w.day).1
      have hfound := every_token_at (fun t ht => absurd ht List.not_mem_nil) hW hnone 0
      have hmarked := mark_tokens_at (fun t ht => absurd ht List.not_mem_nil) hW hnone
      rw [List.nil_append] at hfound hmarked
      rw [Option.map_some, Option.toList_some, List.singleton_append, hfound, hmarked]
      rfl

theorem find_month_parts (overflow : Bytes → Int) (date : MIME_Date) (count : Int)
    (hmon : date.tm_mon = -1) :
    (Date_Scan.mk date ((d.wday_text.map mark).toList ++
        [d.mday_text, d.mon_text, four d.year, mark d.time, d.zone]) count).find_month overflow
      = ⟨{ date with tm_mon := d.month.val, tm_year := d.year - 1900, tm_mday := d.mday },
          (d.wday_text.map mark).toList ++
            [mark d.mday_text, mark d.mon_text, mark (four d.year), mark d.time, d.zone],
          count + 1 + 1 + 1⟩ := by
  have hmday := d.mday_ok
  have hyear := d.year_ok
  obtain ⟨hD, hY, hZ⟩ := d.no_names abmon mon
  obtain ⟨hne, _, hdigits, hvalue⟩ := d.mday_digits
  have hM : name_of abmon mon d.mon_text = some d.month.val := by
    rw [d.mon_text_ok.name_of]
    exact (names_apart.2 d.month).1
  have hday : number overflow d.mday_text = d.mday := by
    rw [number_of_digits overflow hne hdigits (by omega), hvalue]
  have hfour : number overflow (four d.year) = d.year := by
    have hne' : four d.year ≠ [] := List.cons_ne_nil _ _
    have hval := d.year_digits.2
    rw [number_of_digits overflow hne' d.year_digits.1 (by omega), hval]
  have hpre : ∀ P ∈ d.wday_text.map mark, name_of abmon mon P = none := by
    intro P hP
    obtain ⟨name, _, rfl⟩ := Option.map_eq_some_iff.mp hP
    exact (mark_none overflow abmon mon name).1
  have hmonth := find_month_beside overflow date count hmon hpre hD hM hY
    (mark_none overflow abmon mon d.time).1 hZ (by rw [hfour]; omega) (by rw [hday]; omega)
  rwa [hday, hfour] at hmonth

theorem find_zone_parts (overflow : Bytes → Int) (date : MIME_Date) (count : Int)
    (hzone : date.tm_gmtoff = -1) :
    (Date_Scan.mk date ((d.wday_text.map mark).toList ++
        [mark d.mday_text, mark d.mon_text, mark (four d.year), mark d.time, d.zone])
        count).find_zone overflow
      = ⟨{ date with tm_gmtoff := d.meant.tm_gmtoff }, (d.wday_text.map mark).toList ++
          [mark d.mday_text, mark d.mon_text, mark (four d.year), mark d.time, mark d.zone],
          count + 1⟩ := by
  obtain ⟨hh, hm, _⟩ := d.zone_digits
  have hdead : ∀ t ∈ (d.wday_text.map mark).toList ++
      [mark d.mday_text, mark d.mon_text, mark (four d.year), mark d.time],
      zone_of overflow t = none := by
    have hmark : ∀ t, zone_of overflow (mark t) = none := fun t => (mark_none overflow [] [] t).2
    intro t ht
    rcases List.mem_append.mp ht with ht | ht
    · obtain ⟨name, _, rfl⟩ := Option.map_eq_some_iff.mp (Option.mem_toList.mp ht)
      exact hmark name
    · simp only [List.mem_cons, List.not_mem_nil, or_false] at ht
      rcases ht with rfl | rfl | rfl | rfl <;> exact hmark _
  have hfound : first_token (zone_of overflow) ((d.wday_text.map mark).toList ++
      [mark d.mday_text, mark d.mon_text, mark (four d.year), mark d.time, d.zone])
        = some ((d.sign, two d.zone_hour, two d.zone_min), (d.wday_text.map mark).toList ++
          [mark d.mday_text, mark d.mon_text, mark (four d.year), mark d.time, mark d.zone]) := by
    have hread := first_token_at hdead (d.zone_of_zone overflow) []
    rwa [List.append_assoc, List.append_assoc] at hread
  have hoff : (if d.sign = 43 then
      0 - (number overflow (two d.zone_hour) * 3600 + number overflow (two d.zone_min) * 60)
      else number overflow (two d.zone_hour) * 3600 + number overflow (two d.zone_min) * 60)
      = d.meant.tm_gmtoff := by
    show _ = if d.sign = 43 then -(3600 * d.zone_hour + 60 * d.zone_min : Int)
      else 3600 * d.zone_hour + 60 * d.zone_min
    rw [number_two overflow hh, number_two overflow hm]
    split_ifs <;> omega
  unfold Date_Scan.find_zone
  dsimp only
  rw [if_pos hzone, hfound]
  dsimp only
  rw [hoff]

/-- **A date is read as what it says**, by every one of its items. -/
theorem date_text_parsed (overflow : Bytes → Int) : from_string overflow d.text = (0, d.meant) := by
  have hset : (d.year : Int) - 1900 ≠ -1 ∧ (d.mday : Int) ≠ -1 := by
    have hyear := d.year_ok
    omega
  -- the passes for the year and the day have nothing left to do
  have hkept : ∀ s : Date_Scan, s.date.tm_year ≠ -1 → s.date.tm_mday ≠ -1 →
      (s.find_year overflow).find_day overflow = s := by
    intro s hyear hmday
    have hfirst : s.find_year overflow = s := if_neg hyear
    rw [hfirst]
    exact if_neg hmday
  unfold from_string before_zone passes
  have htokens : tokens d.text = d.wday_text.toList ++ d.parts := d.tokens_text
  rw [htokens, d.find_date_parts, d.find_time_parts, d.find_weekday_parts _ _ rfl,
    d.find_month_parts _ _ _ rfl, hkept _ hset.1 hset.2, d.find_zone_parts _ _ _ rfl]
  rfl

/-- `Sat, 30 Apr 2011 16:19:01 +0800` -/
def apr_30 : Date_Text where
  weekday := some ⟨6, lit "Sat", rfl, ⟨[SP], List.cons_ne_nil _ _, by simp⟩⟩
  mday := 30
  mday_ok := by decide
  mday_text := two 30
  mday_text_ok := Or.inl rfl
  gap1 := ⟨[SP], List.cons_ne_nil _ _, by simp⟩
  month := 3
  mon_text := lit "Apr"
  mon_text_ok := rfl
  gap2 := ⟨[SP], List.cons_ne_nil _ _, by simp⟩
  year := 2011
  year_ok := by decide
  gap3 := ⟨[SP], List.cons_ne_nil _ _, by simp⟩
  hour := 16
  hour_ok := by decide
  min := 19
  min_ok := by decide
  sec := 1
  sec_ok := by decide
  gap4 := ⟨[SP], List.cons_ne_nil _ _, by simp⟩
  sign := 43
  sign_ok := Or.inl rfl
  zone_hour := 8
  zone_min := 0
  zone_ok := by decide

example : apr_30.text = lit "Sat, 30 Apr 2011 16:19:01 +0800" := by decide

end Date_Text

end MIME_Date

end Aos
