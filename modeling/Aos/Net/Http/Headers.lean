/-
  Aos.Net.Http.Headers — the headers of a request, as `parse_header` reads them.

  `parse_header` looks at a line only when it begins with a capital C, and then
  compares the name whatever its letters are.  What stands behind a
  Content-Length goes through `atoi` into an unsigned counter; what stands
  behind a Connection has to begin with `keep-alive`.

  Main results:
    • `parse_header_lines`, `parse_lines_eq` — the loop over the packed headers,
      and what it leaves;
    • `atoi_length_field` — a Content-Length with a capital C and a decimal value;
    • `recognises_iff` — the heads that are read as they are written;
    • `recognises_plain` — lines that do not try the reader are.
-/
import Aos.Net.Http.ServerIO

namespace Aos

open Lib.Packed

namespace HTTP_Server_IO

/-- `keep_alive()`. -/
def keep_alive (io : HTTP_Server_IO) : Bool := io.flags_ &&& KEEP_ALIVE ≠ 0

/-- The object at the end of a head, as `read_header` hands it to `parse_header`. -/
def at_end (first : Bytes) (L : List Bytes) : HTTP_Server_IO := ⟨.RD_OK, 0, 0, packed (first :: L)⟩

/-! ## §1. One line. -/

/-- What the code takes for the value of a Content-Length. -/
def length_text (t : Bytes) : Option Bytes :=
  if deref t = 67 ∧ strncasecmp t (lit "content-length:") 15 = 0 then some (c_str (t.drop 15))
  else none

/-- The line sets KEEP_ALIVE. -/
def Keeps (t : Bytes) : Prop :=
  deref t = 67 ∧ strncasecmp t (lit "connection:") 11 = 0 ∧
    strncasecmp (ltrim TRIM_CM (c_str (t.drop 11))) (lit "keep-alive") 10 = 0

instance (t : Bytes) : Decidable (Keeps t) := inferInstanceAs (Decidable (_ ∧ _ ∧ _))

/-- The text behind the name is the text of the entry. -/
theorem c_str_drop_nul {t : Bytes} {k : Nat} (h : k ≤ t.length) (tail : Bytes) :
    c_str ((t ++ NUL :: tail).drop k) = c_str (t.drop k) := by
  rw [List.drop_append_of_le_length h, c_str_append_nul]

theorem deref_nul (t tail : Bytes) : deref (t ++ NUL :: tail) = deref t := by
  cases t with
  | nil => rfl
  | cons c t => rfl

/-- A header is read up to its NUL. -/
theorem parse_line_nul (io : HTTP_Server_IO) (t tail : Bytes) :
    io.parse_line (t ++ NUL :: tail) = io.parse_line t := by
  -- a line that has the name is as long as it, so that the drop stays in front of the NUL
  have hlen : strncasecmp t (lit "content-length:") 15 = 0 → 15 ≤ t.length := fun h =>
    length_of_strncasecmp 15 t (lit "content-length:") h (by decide) (by decide)
  have hconn : strncasecmp t (lit "connection:") 11 = 0 → 11 ≤ t.length := fun h =>
    length_of_strncasecmp 11 t (lit "connection:") h (by decide) (by decide)
  unfold parse_line
  rw [deref_nul, strncasecmp_nul, strncasecmp_nul]
  by_cases hc : deref t = 67
  · rw [if_pos hc, if_pos hc]
    by_cases h15 : strncasecmp t (lit "content-length:") 15 = 0
    · rw [if_pos h15, if_pos h15, c_str_drop_nul (hlen h15)]
    · rw [if_neg h15, if_neg h15]
      by_cases h11 : strncasecmp t (lit "connection:") 11 = 0
      · rw [if_pos h11, if_pos h11, c_str_drop_nul (hconn h11)]
      · rw [if_neg h11, if_neg h11]
  · rw [if_neg hc, if_neg hc]

/-- A header changes neither the headers nor the read state. -/
theorem parse_line_frame {io io' : HTTP_Server_IO} {header : Bytes}
    (h : io.parse_line header = some io') :
    io'.headers_ = io.headers_ ∧ io'.rd_state_ = io.rd_state_ := by
  unfold parse_line at h
  split at h
  · split at h
    · obtain ⟨n, _, rfl⟩ := Option.map_eq_some_iff.mp h
      exact ⟨rfl, rfl⟩
    · split at h
      · simp only at h
        split at h
        · obtain rfl := Option.some.inj h
          exact ⟨rfl, rfl⟩
        · obtain rfl := Option.some.inj h
          exact ⟨rfl, rfl⟩
      · obtain rfl := Option.some.inj h
        exact ⟨rfl, rfl⟩
  · obtain rfl := Option.some.inj h
    exact ⟨rfl, rfl⟩

/-- No line has both names. -/
theorem names_differ {t : Bytes} (hlen : strncasecmp t (lit "content-length:") 15 = 0) :
    ¬ strncasecmp t (lit "connection:") 11 = 0 := by
  intro hconn
  have h15 := lower_of_strncasecmp 15 t (lit "content-length:") hlen (by decide) (by decide)
  have h11 := lower_of_strncasecmp 11 t (lit "connection:") hconn (by decide) (by decide)
  -- the first eleven letters would be those of both
  have hboth := congrArg (List.take 11) h15
  rw [← List.map_take, List.take_take, ← List.map_take, List.take_take] at hboth
  exact absurd (h11.symm.trans hboth) (by decide)

theorem length_text_name {t v : Bytes} (h : length_text t = some v) :
    deref t = 67 ∧ strncasecmp t (lit "content-length:") 15 = 0 ∧ v = c_str (t.drop 15) := by
  by_cases hname : deref t = 67 ∧ strncasecmp t (lit "content-length:") 15 = 0
  · rw [length_text, if_pos hname] at h
    exact ⟨hname.1, hname.2, (Option.some.inj h).symm⟩
  · rw [length_text, if_neg hname] at h
    exact absurd h (by simp)

theorem not_keeps_of_length {t v : Bytes} (h : length_text t = some v) : ¬ Keeps t :=
  fun hkeeps => names_differ (length_text_name h).2.1 hkeeps.2.1

/-- **A Content-Length** sets the counter. -/
theorem parse_line_length (io : HTTP_Server_IO) {t v : Bytes} (h : length_text t = some v) :
    io.parse_line t = (atoi v).map fun n => { io with rd_byte_ := (n % 2 ^ 64).toNat } := by
  obtain ⟨hc, hname, rfl⟩ := length_text_name h
  unfold parse_line
  rw [if_pos hc, if_pos hname]

/-- **Any other line** leaves it. -/
theorem parse_line_other (io : HTTP_Server_IO) {t : Bytes} (h : length_text t = none) :
    io.parse_line t
      = some { io with flags_ := if Keeps t then io.flags_ ||| KEEP_ALIVE else io.flags_ } := by
  unfold parse_line
  by_cases hc : deref t = 67
  · have hname : ¬ strncasecmp t (lit "content-length:") 15 = 0 := by
      intro hname
      rw [length_text, if_pos ⟨hc, hname⟩] at h
      exact absurd h (by simp)
    rw [if_pos hc, if_neg hname]
    by_cases hkeeps : Keeps t
    · rw [if_pos hkeeps.2.1, if_pos hkeeps]
      exact if_pos hkeeps.2.2
    · rw [if_neg hkeeps]
      split
      · rename_i hconn
        exact if_neg (fun hval => hkeeps ⟨hc, hconn, hval⟩)
      · rfl
  · have hkeeps : ¬ Keeps t := fun hkeeps => hc hkeeps.1
    rw [if_neg hc, if_neg hkeeps]

/-! ## §2. The loop. -/

/-- The loop over the indices of the packed headers is the loop over the headers. -/
theorem parse_indices (L : List Bytes) :
    ∀ (before : List Bytes) (io : HTTP_Server_IO), io.headers_ = packed (before ++ L) →
      (List.range' before.length L.length).foldlM
          (fun io i => io.parse_line ((io.headers_.at_ i).getD [])) io
        = L.foldlM parse_line io := by
  induction L with
  | nil => intro before io _; rfl
  | cons t L ih =>
      intro before io hio
      have hlt : before.length < (before ++ t :: L).length := by simp
      obtain ⟨tail, htail⟩ := (represents_packed (before ++ t :: L)).at_ before.length hlt
      -- the index is the number of headers before it
      have hentry : (before ++ t :: L)[before.length] = t := by simp
      have hheader : (io.headers_.at_ before.length).getD [] = t ++ NUL :: tail := by
        rw [hio, htail, hentry]
        rfl
      rw [List.length_cons, List.range'_succ, List.foldlM_cons, List.foldlM_cons, hheader,
        parse_line_nul]
      cases hread : io.parse_line t with
      | none => rfl
      | some io₁ =>
          have hsplit : before ++ t :: L = before ++ [t] ++ L := by simp
          have hrest := ih (before ++ [t]) io₁ (by rw [(parse_line_frame hread).1, hio, hsplit])
          rw [List.length_append, List.length_singleton] at hrest
          exact hrest

/-- **`parse_header()` is the loop over the lines** behind the request line. -/
theorem parse_header_lines (first : Bytes) (L : List Bytes) :
    (at_end first L).parse_header
      = L.foldlM parse_line { at_end first L with rd_byte_ := NO_CONTENT_LENGTH } := by
  have hcount : (at_end first L).headers_.count = L.length + 1 := by
    show (offsets 0 (first :: L)).length = _
    rw [offsets_length, List.length_cons]
  have hrange : (List.range (L.length + 1)).drop 1 = List.range' 1 L.length := by
    rw [List.range_eq_range', List.range'_succ]
    rfl
  unfold parse_header
  rw [hcount, hrange]
  exact parse_indices L [first] _ rfl

/-- What the last Content-Length leaves in the counter. -/
def counted (v : Option Bytes) (rd_byte : Nat) : Nat :=
  (v.bind atoi).elim rd_byte fun n => (n % 2 ^ 64).toNat

/-- What the lines leave in the flags. -/
def kept (L : List Bytes) (flags : Nat) : Nat :=
  if ∃ t ∈ L, Keeps t then flags ||| KEEP_ALIVE else flags

theorem kept_append (L : List Bytes) (t : Bytes) (flags : Nat) :
    kept (L ++ [t]) flags = if Keeps t then kept L flags ||| KEEP_ALIVE else kept L flags := by
  unfold kept
  by_cases hkeeps : Keeps t
  · rw [if_pos hkeeps, if_pos ⟨t, by simp, hkeeps⟩]
    split
    · rw [Nat.or_assoc, Nat.or_self]
    · rfl
  · have hany : (∃ u ∈ L ++ [t], Keeps u) ↔ ∃ u ∈ L, Keeps u := by
      simp [hkeeps, or_and_right, exists_or]
    rw [if_neg hkeeps, if_congr hany rfl rfl]

/-- **What the loop leaves**: the number of the last Content-Length, and whether
    there was a keep-alive. -/
theorem parse_lines_eq (L : List Bytes) (io : HTTP_Server_IO) :
    L.foldlM parse_line io =
      if ∀ v ∈ L.filterMap length_text, atoi v ≠ none then
        some { io with
          rd_byte_ := counted (L.filterMap length_text).getLast? io.rd_byte_
          flags_ := kept L io.flags_ }
      else none := by
  induction L using List.reverseRecOn with
  | nil => simp [counted, kept]
  | append_singleton L t ih =>
      rw [List.foldlM_append, ih, List.filterMap_append, kept_append]
      simp only [List.foldlM_cons, List.foldlM_nil, bind_pure]
      by_cases hall : ∀ v ∈ L.filterMap length_text, atoi v ≠ none
      · rw [if_pos hall, Option.bind_eq_bind, Option.bind_some]
        -- the last line is a Content-Length or leaves the counter
        cases htext : length_text t with
        | none =>
            have hmap : [t].filterMap length_text = [] := by simp [htext]
            rw [parse_line_other _ htext, hmap, List.append_nil, if_pos hall]
        | some v =>
            have hmap : [t].filterMap length_text = [v] := by simp [htext]
            rw [parse_line_length _ htext, hmap, if_neg (not_keeps_of_length htext),
              List.getLast?_append, List.getLast?_singleton]
            cases hnum : atoi v with
            | none =>
                rw [if_neg]
                · rfl
                · exact fun h => h v (by simp) hnum
            | some n =>
                rw [if_pos]
                · simp [counted, hnum]
                · intro w hw
                  rcases List.mem_append.mp hw with hw | hw
                  · exact hall w hw
                  · rw [List.mem_singleton.mp hw, hnum]
                    exact Option.some_ne_none n
      · rw [if_neg hall, if_neg]
        · rfl
        · exact fun h => hall fun v hv => h v (List.mem_append_left _ hv)

/-! ## §3. The fields as they are written. -/

/-- A space or a tab. -/
def blank (c : Byte) : Bool := c = SP ∨ c = TAB

/-- A text without the blanks around it. -/
def bare (s : Bytes) : Bytes := ((s.dropWhile blank).reverse.dropWhile blank).reverse

/-- The value of the field of this name; the letters of a name may be large or small. -/
def field (name t : Bytes) : Option Bytes :=
  if lower (t.take name.length) = lower name then some (bare (t.drop name.length)) else none

/-- A non-negative decimal number: digits, and at least one. -/
def decimal (s : Bytes) : Option Nat :=
  if s ≠ [] ∧ ∀ c ∈ s, isdigit c = true then some (value s) else none

def length_field (t : Bytes) : Option Nat := (field (lit "content-length:") t).bind decimal

/-- The last Content-Length that is a number. -/
def content_length (L : List Bytes) : Nat :=
  (L.filterMap length_field).getLast?.getD NO_CONTENT_LENGTH

def Keep_Alive (t : Bytes) : Prop :=
  (field (lit "connection:") t).map lower = some (lower (lit "keep-alive"))

instance (t : Bytes) : Decidable (Keep_Alive t) := inferInstanceAs (Decidable (_ = _))

/-- The head is read as it is written. -/
def Recognises (first : Bytes) (L : List Bytes) : Prop :=
  ∃ io, (at_end first L).parse_header = some io ∧ io.rd_byte_ = content_length L ∧
    (io.keep_alive = true ↔ ∃ t ∈ L, Keep_Alive t)

/-- A text is blanks, what it is without them, and blanks. -/
theorem bare_around (s : Bytes) :
    ∃ a b, s = a ++ bare s ++ b ∧ (∀ c ∈ a, blank c = true) ∧ ∀ c ∈ b, blank c = true := by
  refine ⟨s.takeWhile blank, ((s.dropWhile blank).reverse.takeWhile blank).reverse, ?_, ?_, ?_⟩
  · have hback := congrArg List.reverse
      (List.takeWhile_append_dropWhile (p := blank) (l := (s.dropWhile blank).reverse))
    rw [List.reverse_append, List.reverse_reverse] at hback
    rw [List.append_assoc, bare, hback, List.takeWhile_append_dropWhile]
  · exact fun c hc => List.mem_takeWhile_imp hc
  · exact fun c hc => List.mem_takeWhile_imp (List.mem_reverse.mp hc)

theorem field_name {name t v : Bytes} (h : field name t = some v) :
    lower (t.take name.length) = lower name ∧ v = bare (t.drop name.length) := by
  by_cases hname : lower (t.take name.length) = lower name
  · rw [field, if_pos hname] at h
    exact ⟨hname, (Option.some.inj h).symm⟩
  · rw [field, if_neg hname] at h
    exact absurd h (by simp)

/-- A name in other letters is the name. -/
theorem strncasecmp_name {name t : Bytes} (h : lower (t.take name.length) = lower name) :
    strncasecmp t name name.length = 0 := by
  rw [← strncasecmp_take, strncasecmp_congr name.length h rfl]
  exact strncasecmp_self name.length name

theorem decimal_digits {s : Bytes} {n : Nat} (h : decimal s = some n) :
    s ≠ [] ∧ (∀ c ∈ s, isdigit c = true) ∧ value s = n := by
  by_cases hs : s ≠ [] ∧ ∀ c ∈ s, isdigit c = true
  · rw [decimal, if_pos hs] at h
    exact ⟨hs.1, hs.2, Option.some.inj h⟩
  · rw [decimal, if_neg hs] at h
    exact absurd h (by simp)

/-- `atoi` skips blanks. -/
theorem atoi_blanks {a : Bytes} (ha : ∀ c ∈ a, blank c = true) (s : Bytes) :
    atoi (a ++ s) = atoi s := by
  have hspace : ∀ c ∈ a, isspace c = true := by
    intro c hc
    rcases of_decide_eq_true (ha c hc) with rfl | rfl
    · rfl
    · rfl
  unfold atoi
  rw [List.dropWhile_append_of_pos hspace]

/-- **A Content-Length with a capital C and a decimal value** is taken, and its
    number is the one that is written if that is an `int`. -/
theorem atoi_length_field {t : Bytes} {n : Nat} (hc : deref t = 67)
    (h : length_field t = some n) :
    ∃ v, length_text t = some v ∧ atoi v = if n < 2 ^ 31 then some (n : Int) else none := by
  obtain ⟨s, hfield, hdec⟩ := Option.bind_eq_some_iff.mp h
  obtain ⟨hname, rfl⟩ := field_name hfield
  obtain ⟨hne, hdigits, hvalue⟩ := decimal_digits hdec
  obtain ⟨a, b, hsplit, ha, hb⟩ := bare_around (t.drop (lit "content-length:").length)
  refine ⟨c_str (t.drop 15), if_pos ⟨hc, strncasecmp_name hname⟩, ?_⟩
  -- blanks and digits: no NUL cuts the text short
  have hnul : NUL ∉ t.drop 15 := by
    have hblank : blank NUL = false := by decide
    have hdigit : isdigit NUL = false := by decide
    intro hmem
    rw [show t.drop 15 = _ from hsplit] at hmem
    rcases List.mem_append.mp hmem with hmem | hmem
    · rcases List.mem_append.mp hmem with hmem | hmem
      · rw [ha NUL hmem] at hblank
        exact absurd hblank (by decide)
      · rw [hdigits NUL hmem] at hdigit
        exact absurd hdigit (by decide)
    · rw [hb NUL hmem] at hblank
      exact absurd hblank (by decide)
  rw [c_str_of_no_nul hnul, show t.drop 15 = _ from hsplit, List.append_assoc, atoi_blanks ha,
    atoi_digits _ b hne hdigits, hvalue]
  intro c hhead
  rcases of_decide_eq_true (hb c (List.mem_of_head? hhead)) with rfl | rfl
  · rfl
  · rfl

/-! ## §4. When the head is read as it is written. -/

/-- The `int` at `v` is `n` as a `size_t`: a negative one comes from the other end. -/
def Wraps_To (v : Bytes) (n : Nat) : Prop :=
  ∃ k : Int, atoi v = some k ∧ (k = n ∨ k < 0 ∧ k + 2 ^ 64 = n)

/-- The last Content-Length with a capital C, and the last one with a decimal value. -/
def Length_Read (L : List Bytes) : Prop :=
  match (L.filterMap length_text).getLast?, (L.filterMap length_field).getLast? with
  | none, none => True
  | none, some n => n = NO_CONTENT_LENGTH
  | some v, none => atoi v = some (-1)
  | some v, some n => Wraps_To v n

theorem wraps_to_iff {v : Bytes} {k : Int} (h : atoi v = some k) (n : Nat) :
    (k % 2 ^ 64).toNat = n ↔ Wraps_To v n := by
  have hrange := atoi_range h
  -- an int is less than 2^64 away from 0 on both sides
  have hwrap : (k % 2 ^ 64).toNat = n ↔ k = n ∨ k < 0 ∧ k + 2 ^ 64 = n := by omega
  rw [hwrap]
  constructor
  · exact fun hk => ⟨k, h, hk⟩
  · intro hk
    obtain ⟨k', hk', hwraps⟩ := hk
    rw [Option.some.inj (h.symm.trans hk')]
    exact hwraps

/-- **The counter is the last Content-Length that is a number.** -/
theorem length_read_iff {L : List Bytes} (hall : ∀ v ∈ L.filterMap length_text, atoi v ≠ none) :
    counted (L.filterMap length_text).getLast? NO_CONTENT_LENGTH = content_length L
      ↔ Length_Read L := by
  unfold content_length Length_Read
  cases hlast : (L.filterMap length_text).getLast? with
  | none =>
      cases (L.filterMap length_field).getLast? with
      | none => exact ⟨fun _ => trivial, fun _ => rfl⟩
      | some n => exact ⟨fun h => h.symm, fun h => h.symm⟩
  | some v =>
      obtain ⟨k, hk⟩ := Option.ne_none_iff_exists'.mp (hall v (List.mem_of_getLast? hlast))
      have hcounted : counted (some v) NO_CONTENT_LENGTH = (k % 2 ^ 64).toNat := by
        simp [counted, hk]
      rw [hcounted]
      cases (L.filterMap length_field).getLast? with
      | none =>
          have hrange := atoi_range hk
          show (k % 2 ^ 64).toNat = 2 ^ 64 - 1 ↔ atoi v = some (-1)
          rw [hk, Option.some.injEq]
          omega
      | some n => exact wraps_to_iff hk n

theorem keep_alive_kept (L : List Bytes) (io : HTTP_Server_IO) (h : io.flags_ = kept L 0) :
    io.keep_alive = true ↔ ∃ t ∈ L, Keeps t := by
  unfold keep_alive
  rw [h, kept]
  by_cases hany : ∃ t ∈ L, Keeps t
  · rw [if_pos hany]
    exact ⟨fun _ => hany, fun _ => rfl⟩
  · rw [if_neg hany]
    exact ⟨fun h => absurd h (by decide), fun h => absurd h hany⟩

/-- **The heads that are read as they are written.**  Every Content-Length with a
    capital C holds an `int`; the last of them is the number of the last
    Content-Length with a decimal value; and a Connection with a capital C begins
    with `keep-alive` if and only if some Connection is `keep-alive`. -/
theorem recognises_iff (first : Bytes) (L : List Bytes) :
    Recognises first L
      ↔ (∀ v ∈ L.filterMap length_text, atoi v ≠ none) ∧ Length_Read L ∧
        ((∃ t ∈ L, Keeps t) ↔ ∃ t ∈ L, Keep_Alive t) := by
  unfold Recognises
  rw [parse_header_lines, parse_lines_eq]
  by_cases hall : ∀ v ∈ L.filterMap length_text, atoi v ≠ none
  · rw [if_pos hall, ← length_read_iff hall]
    constructor
    · intro h
      obtain ⟨io, hio, hlen, hkeep⟩ := h
      obtain rfl := Option.some.inj hio
      exact ⟨hall, hlen, (keep_alive_kept L _ rfl).symm.trans hkeep⟩
    · intro h
      exact ⟨_, rfl, h.2.1, (keep_alive_kept L _ rfl).trans h.2.2⟩
  · rw [if_neg hall]
    refine ⟨fun h => ?_, fun h => absurd h.1 hall⟩
    obtain ⟨io, hio, _⟩ := h
    exact absurd hio (by simp)

/-- A name in small letters is not seen. -/
theorem content_length_small :
    ¬ Recognises (lit "POST / HTTP/1.1") [lit "Host: a", lit "content-length: 5"] := by
  intro h
  obtain ⟨io, hio, hlen, _⟩ := h
  have hwritten : [lit "Host: a", lit "content-length: 5"].filterMap length_field = [5] := by
    decide +kernel
  have htaken : [lit "Host: a", lit "content-length: 5"].filterMap length_text = [] := by decide
  rw [parse_header_lines, parse_lines_eq, htaken, if_pos (by simp)] at hio
  obtain rfl := Option.some.inj hio
  rw [content_length, hwritten] at hlen
  have hnone : (2 ^ 64 - 1 : Nat) = 5 := hlen
  omega

/-- A line that does not try the reader: a Content-Length has a capital C and is a
    number below 2^31, and a Connection that begins with `keep-alive` has a capital
    C and is it. -/
structure Plain (t : Bytes) : Prop where
  length : ∀ v, length_text t = some v → ∃ n, length_field t = some n ∧ n < 2 ^ 31
  capital : ∀ n, length_field t = some n → deref t = 67
  connection : Keeps t ↔ Keep_Alive t

theorem Plain.text {t : Bytes} (h : Plain t) :
    (length_text t = none ∧ length_field t = none) ∨
      ∃ v n, length_text t = some v ∧ length_field t = some n ∧ atoi v = some (n : Int) := by
  cases hfield : length_field t with
  | none =>
      refine Or.inl ⟨?_, rfl⟩
      cases htext : length_text t with
      | none => rfl
      | some v =>
          obtain ⟨n, hn, _⟩ := h.length v htext
          exact absurd (hfield.symm.trans hn) (by simp)
  | some n =>
      obtain ⟨v, htext, hnum⟩ := atoi_length_field (h.capital n hfield) hfield
      obtain ⟨n', hn', hlt⟩ := h.length v htext
      obtain rfl := Option.some.inj (hfield.symm.trans hn')
      rw [if_pos hlt] at hnum
      exact Or.inr ⟨v, n, htext, rfl, hnum⟩

theorem length_read_plain {L : List Bytes} (h : ∀ t ∈ L, Plain t) : Length_Read L := by
  induction L using List.reverseRecOn with
  | nil => trivial
  | append_singleton L t ih =>
      unfold Length_Read
      rw [List.filterMap_append, List.filterMap_append]
      rcases (h t (by simp)).text with ⟨htext, hfield⟩ | ⟨v, n, htext, hfield, hnum⟩
      · have hskip : [t].filterMap length_text = [] ∧ [t].filterMap length_field = [] := by
          simp [htext, hfield]
        rw [hskip.1, hskip.2, List.append_nil, List.append_nil]
        exact ih fun u hu => h u (List.mem_append_left _ hu)
      · have htake : [t].filterMap length_text = [v] ∧ [t].filterMap length_field = [n] := by
          simp [htext, hfield]
        rw [htake.1, htake.2, List.getLast?_concat, List.getLast?_concat]
        show Wraps_To v n
        exact ⟨n, hnum, Or.inl rfl⟩

/-- **Lines that do not try the reader** are read as they are written. -/
theorem recognises_plain (first : Bytes) {L : List Bytes} (h : ∀ t ∈ L, Plain t) :
    Recognises first L := by
  have hall : ∀ v ∈ L.filterMap length_text, atoi v ≠ none := by
    intro v hv
    obtain ⟨t, ht, htext⟩ := List.mem_filterMap.mp hv
    rcases (h t ht).text with ⟨hnone, _⟩ | ⟨v', n, hsome, _, hnum⟩
    · exact absurd (htext.symm.trans hnone) (by simp)
    · rw [Option.some.inj (htext.symm.trans hsome), hnum]
      exact Option.some_ne_none _
  unfold Recognises
  rw [parse_header_lines, parse_lines_eq, if_pos hall]
  refine ⟨_, rfl, (length_read_iff hall).mpr (length_read_plain h), ?_⟩
  rw [keep_alive_kept L _ rfl]
  constructor
  · intro hany
    obtain ⟨t, ht, hkeeps⟩ := hany
    exact ⟨t, ht, (h t ht).connection.mp hkeeps⟩
  · intro hany
    obtain ⟨t, ht, hfield⟩ := hany
    exact ⟨t, ht, (h t ht).connection.mpr hfield⟩

end HTTP_Server_IO

end Aos
