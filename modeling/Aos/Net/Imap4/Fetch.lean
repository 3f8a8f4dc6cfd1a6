/-
  Aos.Net.Imap4.Fetch — the response to a FETCH, read by `fetch_to_data`.

  A response is a sequence of untagged lines, some of which announce a literal
  and have it behind them, and a tagged line.  A literal of no bytes is not
  seen as one: the line that closes it is then taken for the tagged line.  One
  of 2^31 bytes or more has a length that `atoi` cannot give.

  Main results:
    • `line_read_text`, `line_read_literal` — what an untagged line announces;
    • `takes_untagged` — an untagged line and its literal, wherever they are cut;
    • `fetch_exact_iff` — the responses that are read exactly.
-/
import Aos.Net.Imap4.ClientIO

namespace Aos

open Lib.Feed

namespace IMAP4_Client_IO

/-! ## §1. Responses. -/

/-- A line that begins with '*', and the literal that it announces if it does. -/
structure Untagged where
  text : Bytes
  literal : Option Bytes
  no_lf : LF ∉ text
  no_brace : 123 ∉ text

namespace Untagged

/-- '{k}', with the length of the literal. -/
def announcement (u : Untagged) : Bytes :=
  match u.literal with
  | some d => 123 :: (dec d.length ++ [125])
  | none => []

/-- The line up to its line feed. -/
def line (u : Untagged) : Bytes := 42 :: (u.text ++ u.announcement ++ [CR])

/-- The line, the literal, and the line that closes it. -/
def bytes (u : Untagged) : Bytes :=
  u.line ++ [LF] ++
    match u.literal with
    | some d => d ++ ([41, CR] ++ [LF])
    | none => []

end Untagged

/-- The last line of a response. -/
structure Tagged where
  text : Bytes
  no_lf : LF ∉ text
  no_star : text.head? ≠ some 42

def Tagged.bytes (l : Tagged) : Bytes := l.text ++ [CR] ++ [LF]

def response (us : List Untagged) (last : Tagged) : Bytes :=
  (us.map Untagged.bytes).flatten ++ last.bytes

/-- The literals of a response, one behind the other. -/
def literals (us : List Untagged) : Bytes := (us.map fun u => u.literal.getD []).flatten

/-- The loop ends with the last byte of the response and no sooner, with the
    literals as its data and the tagged line in `buf_`. -/
def Exact (io : IMAP4_Client_IO) (us : List Untagged) (last : Tagged) (chunks : List Bytes) : Prop :=
  ∃ io', reader.Runs ⟨(io.read_reset, []), [], chunks⟩ (some ⟨(io', literals us), [], []⟩) ∧
    io'.rd_state_ = .RD_OK ∧ io'.buf_ = last.bytes

/-! ## §2. What a line announces. -/

theorem number_text (buf : Bytes) (h : 123 ∉ buf) : number buf = buf := by
  unfold number
  rw [List.takeWhile_eq_self_iff.mpr, List.reverse_reverse]
  intro c hc
  have hne : c ≠ 123 := fun heq => h (heq ▸ List.mem_reverse.mp hc)
  simpa using hne

theorem number_behind (front back : Bytes) (h : 123 ∉ back) :
    number (front ++ 123 :: back) = back := by
  have hback : ∀ c ∈ back.reverse, decide (c ≠ 123) = true := by
    intro c hc
    have hne : c ≠ 123 := fun heq => h (heq ▸ List.mem_reverse.mp hc)
    simpa using hne
  unfold number
  rw [List.reverse_append, List.reverse_cons, List.append_assoc,
    List.takeWhile_append_of_pos hback, List.singleton_append, List.takeWhile_cons,
    if_neg (by simp), List.append_nil, List.reverse_reverse]

/-- `atoi` of a text that begins with '*'. -/
theorem atoi_star (rest : Bytes) : atoi (c_str (42 :: rest)) = some 0 := by
  have hstr : c_str (42 :: rest) = 42 :: c_str rest := by
    unfold c_str
    rw [List.takeWhile_cons, if_pos (by decide)]
  have hspace : ¬ isspace 42 = true := by decide
  have hdigit : ¬ isdigit 42 = true := by decide
  have hsign : ¬ ((42 : Byte) = 45 ∨ (42 : Byte) = 43) := by decide
  have hminus : ¬ (42 : Byte) = 45 := by decide
  rw [hstr]
  unfold atoi
  simp only [List.dropWhile_cons, if_neg hspace, List.head?_cons, Option.some.injEq, if_neg hsign,
    if_neg hminus, List.takeWhile_cons, if_neg hdigit]
  rfl

/-- The bytes of an announcement behind its brace. -/
theorem announced_bytes (k : Nat) :
    ∀ c ∈ dec k ++ [125, CR, LF], c ≠ 123 ∧ c ≠ NUL := by
  intro c hc
  rw [List.mem_append] at hc
  rcases hc with hdigit | hend
  · have hd := (dec_digits k).2 c hdigit
    refine ⟨?_, ?_⟩
    · intro heq
      rw [heq] at hd
      exact absurd hd (by decide)
    · intro heq
      rw [heq] at hd
      exact absurd hd (by decide)
  · have hall : ∀ c ∈ ([125, CR, LF] : Bytes), c ≠ 123 ∧ c ≠ NUL := by decide +kernel
    exact hall c hend

/-- **A line without an announcement.** -/
theorem line_read_text (io : IMAP4_Client_IO) (u : Untagged) (h : u.literal = none) :
    io.line_read (u.line ++ [LF])
      = some { io with buf_ := u.line ++ [LF], rd_state_ := .RD_LINE } := by
  have hbrace : 123 ∉ u.line ++ [LF] := by
    have hann : u.announcement = [] := by
      unfold Untagged.announcement
      rw [h]
    have hother : ∀ c ∈ ([42, CR, LF] : Bytes), c ≠ 123 := by decide +kernel
    unfold Untagged.line
    rw [hann, List.append_nil]
    intro hmem
    simp only [List.cons_append, List.mem_cons, List.mem_append, List.not_mem_nil, or_false] at hmem
    rcases hmem with hstar | (htext | hcr) | hlf
    · exact hother 123 (by simp [hstar]) rfl
    · exact u.no_brace htext
    · exact hother 123 (by simp [hcr]) rfl
    · exact hother 123 (by simp [hlf]) rfl
  unfold line_read
  rw [number_text _ hbrace]
  show (if (u.line ++ [LF]).head? ≠ some 42 then _ else _) = _
  rw [if_neg (by unfold Untagged.line; simp)]
  show (atoi (c_str (42 :: (u.text ++ u.announcement ++ [CR] ++ [LF])))).map _ = _
  rw [atoi_star]
  rfl

/-- **A line with one.** -/
theorem line_read_literal (io : IMAP4_Client_IO) (u : Untagged) (d : Bytes)
    (h : u.literal = some d) :
    io.line_read (u.line ++ [LF])
      = if d.length < 2 ^ 31 then
          some (if 0 < d.length then
              { io with buf_ := u.line ++ [LF], rd_byte_ := d.length, rd_state_ := .RD_DATA }
            else { io with buf_ := u.line ++ [LF], rd_state_ := .RD_LINE })
        else none := by
  have hsplit : u.line ++ [LF] = 42 :: u.text ++ 123 :: (dec d.length ++ [125, CR, LF]) := by
    unfold Untagged.line Untagged.announcement
    rw [h]
    simp
  have hnumber : number (u.line ++ [LF]) = dec d.length ++ [125, CR, LF] := by
    rw [hsplit]
    apply number_behind
    intro hmem
    exact (announced_bytes d.length 123 hmem).1 rfl
  have hstr : c_str (dec d.length ++ [125, CR, LF]) = dec d.length ++ [125, CR, LF] :=
    c_str_of_no_nul (fun hmem => (announced_bytes d.length NUL hmem).2 rfl)
  have hatoi : atoi (dec d.length ++ [125, CR, LF])
      = if d.length < 2 ^ 31 then some (d.length : Int) else none := by
    rw [atoi_digits (dec d.length) [125, CR, LF] (dec_digits _).1 (dec_digits _).2, value_dec]
    intro c hc
    obtain rfl : 125 = c := Option.some.inj hc
    decide
  unfold line_read
  rw [if_neg (by rw [hsplit]; simp), hnumber, hstr, hatoi]
  by_cases hlt : d.length < 2 ^ 31
  · rw [if_pos hlt, if_pos hlt, Option.map_some]
    by_cases hpos : 0 < d.length
    · rw [if_pos (by omega), if_pos hpos]
      rfl
    · rw [if_neg (by omega), if_neg hpos]
  · rw [if_neg hlt, if_neg hlt]
    rfl

/-! ## §3. A line and its literal. -/

/-- The object waits for a new line. -/
structure Waiting (io : IMAP4_Client_IO) : Prop where
  data : io.rd_state_ ≠ .RD_DATA
  ok : io.rd_state_ ≠ .RD_OK
  pending : io.pending = []

theorem waiting_reset (io : IMAP4_Client_IO) : Waiting io.read_reset :=
  ⟨by simp [read_reset], by simp [read_reset], rfl⟩

theorem Untagged.line_no_lf (u : Untagged) : LF ∉ u.line := by
  have hend : ∀ c ∈ ([42, CR, 123, 125] : Bytes), c ≠ LF := by decide +kernel
  have hann : LF ∉ u.announcement := by
    unfold Untagged.announcement
    cases u.literal with
    | none => simp
    | some d =>
        intro hmem
        simp only [List.mem_cons, List.mem_append, List.not_mem_nil, or_false] at hmem
        rcases hmem with hopen | hdigit | hclose
        · exact hend LF (by simp [hopen]) rfl
        · exact absurd ((dec_digits _).2 LF hdigit) (by decide)
        · exact hend LF (by simp [hclose]) rfl
  unfold Untagged.line
  intro hmem
  simp only [List.mem_cons, List.mem_append, List.not_mem_nil, or_false] at hmem
  rcases hmem with hstar | (htext | hlit) | hcr
  · exact hend LF (by simp [hstar]) rfl
  · exact u.no_lf htext
  · exact hann hlit
  · exact hend LF (by simp [hcr]) rfl

/-- The line of a waiting object. -/
theorem waiting_line {io io' : IMAP4_Client_IO} (h : Waiting io) {t : Bytes} (hlf : LF ∉ t)
    (hread : io.line_read (t ++ [LF]) = some io') (data : Bytes) :
    reader.Takes id (io, data) (t ++ [LF]) (io', data) := by
  apply (reads_line data t io hlf h.data h.ok).1
  rw [h.pending]
  exact hread

/-- The literals that are read: not empty, and with a length that is an `int`. -/
def Readable (u : Untagged) : Prop := ∀ d, u.literal = some d → 0 < d.length ∧ d.length < 2 ^ 31

/-- **A line and its literal, wherever they are cut.** -/
theorem takes_untagged {io : IMAP4_Client_IO} (h : Waiting io) (u : Untagged) (hu : Readable u)
    (data : Bytes) :
    ∃ io', Waiting io' ∧ reader.Takes id (io, data) u.bytes (io', data ++ u.literal.getD []) := by
  unfold Untagged.bytes
  cases hlit : u.literal with
  | none =>
      refine ⟨{ io with buf_ := u.line ++ [LF], rd_state_ := .RD_LINE },
        ⟨by simp, by simp, rfl⟩, ?_⟩
      show reader.Takes id (io, data) (u.line ++ [LF] ++ []) (_, data ++ [])
      rw [List.append_nil, List.append_nil]
      exact waiting_line h u.line_no_lf (line_read_text io u hlit) data
  | some d =>
      obtain ⟨hpos, hlt⟩ := hu d hlit
      have hread := line_read_literal io u d hlit
      rw [if_pos hlt, if_pos hpos] at hread
      have hclose : LF ∉ ([41, CR] : Bytes) := by decide
      refine ⟨_, ⟨?_, ?_, ?_⟩,
        (waiting_line h u.line_no_lf hread data).trans (takes_data d [41, CR] _ data hclose rfl rfl)⟩
      · simp
      · simp
      · rfl

/-- A literal of no bytes: the line that closes it ends the loop. -/
theorem takes_empty {io : IMAP4_Client_IO} (h : Waiting io) (u : Untagged)
    (hlit : u.literal = some []) (data : Bytes) :
    ∃ io', io'.rd_state_ = .RD_OK ∧ reader.Takes id (io, data) u.bytes (io', data) := by
  have hread := line_read_literal io u [] hlit
  rw [if_pos (by decide), if_neg (by decide)] at hread
  have hclose : LF ∉ ([41, CR] : Bytes) := by decide
  have hwait : Waiting { io with buf_ := u.line ++ [LF], rd_state_ := .RD_LINE } :=
    ⟨by simp, by simp, rfl⟩
  unfold Untagged.bytes
  rw [hlit]
  exact ⟨_, rfl, (waiting_line h u.line_no_lf hread data).trans
    (waiting_line hwait hclose rfl data)⟩

/-- A literal that is too long: its length is undefined. -/
theorem fails_long {io : IMAP4_Client_IO} (h : Waiting io) (u : Untagged) (d : Bytes)
    (hlit : u.literal = some d) (hlong : 2 ^ 31 ≤ d.length) (data : Bytes) :
    reader.Fails id (io, data) u.bytes := by
  have hread := line_read_literal io u d hlit
  rw [if_neg (by omega)] at hread
  apply Reader.Fails.append
  apply (reads_line data u.line io u.line_no_lf h.data h.ok).2
  rw [h.pending]
  exact hread

/-! ## §4. Responses, wherever they are cut. -/

theorem takes_all (us : List Untagged) :
    ∀ (io : IMAP4_Client_IO) (data : Bytes), Waiting io → (∀ u ∈ us, Readable u) →
      ∃ io', Waiting io' ∧
        reader.Takes id (io, data) (us.map Untagged.bytes).flatten (io', data ++ literals us) := by
  induction us with
  | nil =>
      intro io data h _
      refine ⟨io, h, ?_⟩
      show reader.Takes id (io, data) [] (io, data ++ [])
      rw [List.append_nil]
      exact reader.takes_nil id _
  | cons u us ih =>
      intro io data h hall
      obtain ⟨io₁, h₁, htakes⟩ := takes_untagged h u (hall u List.mem_cons_self) data
      obtain ⟨io', h', hrest⟩ := ih io₁ (data ++ u.literal.getD []) h₁
        (fun v hv => hall v (List.mem_cons_of_mem u hv))
      rw [List.append_assoc] at hrest
      exact ⟨io', h', htakes.trans hrest⟩

/-- The tagged line ends the loop. -/
theorem takes_tagged {io : IMAP4_Client_IO} (h : Waiting io) (last : Tagged) (data : Bytes) :
    reader.Takes id (io, data) last.bytes
      ({ io with buf_ := last.bytes, rd_state_ := .RD_OK }, data) := by
  have hlf : LF ∉ last.text ++ [CR] := by
    have hcr : LF ≠ CR := by decide
    rw [List.mem_append, List.mem_singleton]
    intro hor
    exact hor.elim last.no_lf hcr
  apply waiting_line h hlf
  have hstar : (last.text ++ [CR] ++ [LF]).head? ≠ some 42 := by
    have htext := last.no_star
    cases htext' : last.text with
    | nil => decide
    | cons c text =>
        rw [htext'] at htext
        exact htext
  unfold line_read
  rw [if_pos hstar]
  rfl

/-- A literal that is not readable: the loop does not come to the tagged line. -/
theorem stops_early (us : List Untagged) :
    ∀ (io : IMAP4_Client_IO) (data : Bytes), Waiting io → (¬ ∀ u ∈ us, Readable u) →
      reader.Fails id (io, data) (us.map Untagged.bytes).flatten ∨
      ∃ s t io' data', (us.map Untagged.bytes).flatten = s ++ t ∧ io'.rd_state_ = .RD_OK ∧
        reader.Takes id (io, data) s (io', data') := by
  induction us with
  | nil =>
      intro io data _ hnot
      exact absurd (by simp) hnot
  | cons u us ih =>
      intro io data h hnot
      rw [List.map_cons, List.flatten_cons]
      by_cases hu : Readable u
      · obtain ⟨io₁, h₁, htakes⟩ := takes_untagged h u hu data
        have hrest : ¬ ∀ v ∈ us, Readable v := by
          intro hall
          apply hnot
          intro v hv
          rcases List.mem_cons.mp hv with rfl | hv
          · exact hu
          · exact hall v hv
        rcases ih io₁ (data ++ u.literal.getD []) h₁ hrest with hfails | ⟨s, t, io', data', hst, hok, hs⟩
        · exact Or.inl (htakes.fails hfails)
        · exact Or.inr ⟨u.bytes ++ s, t, io', data', by rw [hst, List.append_assoc], hok,
            htakes.trans hs⟩
      · unfold Readable at hu
        push Not at hu
        obtain ⟨d, hlit, hd⟩ := hu
        by_cases hpos : 0 < d.length
        · exact Or.inl ((fails_long h u d hlit (hd hpos) data).append _)
        · have hnil : d = [] := List.length_eq_zero_iff.mp (by omega)
          obtain ⟨io', hok, htakes⟩ := takes_empty h u (hnil ▸ hlit) data
          exact Or.inr ⟨u.bytes, _, io', data, rfl, hok, htakes⟩

/-- **FETCH.**  Wherever a response is cut, it is read exactly if and only if
    every literal has at least one byte and less than 2^31. -/
theorem fetch_exact_iff (io : IMAP4_Client_IO) (us : List Untagged) (last : Tagged)
    (chunks : List Bytes) (hne : ∀ chunk ∈ chunks, chunk ≠ [])
    (hchunks : chunks.flatten = response us last) :
    Exact io us last chunks ↔
      ∀ u ∈ us, ∀ d, u.literal = some d → 0 < d.length ∧ d.length < 2 ^ 31 := by
  have hwait := waiting_reset io
  have hd : Reader.Delivers id [] chunks ((us.map Untagged.bytes).flatten ++ last.bytes) :=
    ⟨by rw [List.map_id]; exact hchunks, hne⟩
  constructor
  · intro hexact
    by_contra hnot
    obtain ⟨io', hruns, _, _⟩ := hexact
    rcases stops_early us io.read_reset [] hwait hnot with hfails | ⟨s, t, io₁, data, hst, hok, htakes⟩
    · exact absurd (((hfails.append _).runs reader hd _).mp hruns) (by simp)
    · rw [hst, List.append_assoc] at hd
      obtain ⟨mb, net, hleft, hto⟩ := htakes [] chunks (t ++ last.bytes) hd
      rw [hto, reader.ends_done (decide_eq_true hok)] at hruns
      -- the tagged line is still to come
      have hconn := Option.some.inj hruns
      have hmb : [] = mb := congrArg Conn.mb hconn
      have hnet : [] = net := congrArg Conn.net hconn
      rw [← hmb, ← hnet] at hleft
      exact absurd hleft.1 (by simp [Tagged.bytes])
  · intro hall
    obtain ⟨io₁, h₁, htakes⟩ := takes_all us io.read_reset [] hwait hall
    have hwhole := htakes.trans (takes_tagged h₁ last ([] ++ literals us))
    rw [List.nil_append] at hwhole
    exact ⟨_, (Reader.Takes.runs reader (fun _ h => h) hd hwhole _).mpr rfl, rfl, rfl⟩

/-- "* 1 FETCH (BODY " with this literal. -/
def body_line (d : Bytes) : Untagged := ⟨lit " 1 FETCH (BODY ", some d, by decide, by decide⟩

def tagged_ok : Tagged := ⟨lit "a OK", by decide, by decide⟩

/-- A literal of two bytes, cut in its length, in its text and in a CRLF. -/
theorem fetch_cut_anywhere :
    Exact ⟨lit "a", [], .RD_OK, 0⟩ [body_line (lit "hi")] tagged_ok
      [lit "* 1 FETCH (BODY \x7b", lit "2\x7d\r", lit "\nh", lit "i)\r\na ", lit "OK\r\n"] :=
  (fetch_exact_iff ⟨lit "a", [], .RD_OK, 0⟩ [body_line (lit "hi")] tagged_ok _ (by decide)
    (by decide)).mpr (by
      intro u hu d hd
      obtain rfl := List.mem_singleton.mp hu
      obtain rfl : lit "hi" = d := Option.some.inj hd
      decide)

/-- A literal of no bytes, in one chunk: the loop ends with ")" in `buf_`. -/
theorem fetch_empty_literal :
    ¬ Exact ⟨lit "a", [], .RD_OK, 0⟩ [body_line []] tagged_ok
      [lit "* 1 FETCH (BODY \x7b0\x7d\r\n)\r\na OK\r\n"] := by
  intro hexact
  obtain ⟨io', hruns, _, _⟩ := hexact
  obtain ⟨io₁, hok, htakes⟩ :=
    takes_empty (waiting_reset ⟨lit "a", [], .RD_OK, 0⟩) (body_line []) rfl []
  obtain ⟨mb, net, hleft, hto⟩ := htakes [] [lit "* 1 FETCH (BODY \x7b0\x7d\r\n)\r\na OK\r\n"]
    tagged_ok.bytes ⟨by decide, by decide⟩
  rw [hto, reader.ends_done (decide_eq_true hok)] at hruns
  have hconn := Option.some.inj hruns
  have hmb : [] = mb := congrArg Conn.mb hconn
  have hnet : [] = net := congrArg Conn.net hconn
  rw [← hmb, ← hnet] at hleft
  exact absurd hleft.1 (by decide)

end IMAP4_Client_IO

end Aos
