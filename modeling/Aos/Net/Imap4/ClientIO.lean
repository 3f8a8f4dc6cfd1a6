/-
  Aos.Net.Imap4.ClientIO — `IMAP4_Client_IO`, the client's side of an IMAP session.

  Two readers share the block: `read_line` collects a line in `buf_` and looks
  for the announcement of a literal at its end, `read_data` takes the literal
  and the line that closes it.  `atoi` of a number that is no `int` is
  undefined, and so is the reading then.

  Main results:
    • `reader_ends` — the loop ends, whatever comes;
    • `reads_line` — a line, wherever it is cut, is one call of `line_read`;
    • `takes_data` — a literal and its closing line come through as they are;
    • `cmd_text` — a command that fits is in the block as it is.
-/
import Aos.Str.Compare
import Aos.Str.Line
import Aos.Str.Number
import Aos.Lib.Feed
import Aos.Net.MessageBlock

namespace Aos

open Lib.Feed

namespace IMAP4_Client_IO

inductive Read where
  | RD_MORE
  | RD_LINE
  | RD_DATA
  | RD_DATA_OK
  | RD_OK
  deriving DecidableEq

inductive Response where
  | OK
  | NO
  | BAD
  | UNKNOWN
  deriving DecidableEq

end IMAP4_Client_IO

open IMAP4_Client_IO in
structure IMAP4_Client_IO where
  tag_ : Bytes
  buf_ : Bytes
  rd_state_ : Read
  rd_byte_ : Nat

namespace IMAP4_Client_IO

def read_reset (io : IMAP4_Client_IO) : IMAP4_Client_IO :=
  { io with rd_state_ := .RD_MORE, rd_byte_ := 0, buf_ := [] }

/-! ## §1. The readers. -/

/-- `buf_.substr(buf_.find_last_of('{')+1)`: without a brace it is the whole string. -/
def number (buf : Bytes) : Bytes := (buf.reverse.takeWhile (· ≠ 123)).reverse

/-- One completed line has been read. -/
def line_read (io : IMAP4_Client_IO) (buf : Bytes) : Option IMAP4_Client_IO :=
  if buf.head? ≠ some 42 then
    some { io with buf_ := buf, rd_state_ := .RD_OK } -- no more line
  else
    -- has data to read
    (atoi (c_str (number buf))).map fun n_byte =>
      if n_byte > 0 then { io with buf_ := buf, rd_byte_ := n_byte.toNat, rd_state_ := .RD_DATA }
      else { io with buf_ := buf, rd_state_ := .RD_LINE }

/-- `read_line(mb)`: the object, the line, and what is left in the block. -/
def read_line (io : IMAP4_Client_IO) (mb : Bytes) : Option ( IMAP4_Client_IO × Bytes × Bytes) :=
  let buf := if io.rd_state_ ≠ .RD_MORE then [] else io.buf_
  let line := get_line mb LF
  if line.length > 0 then
    let buf := buf ++ line
    if line.getLast? = some LF then
      (io.line_read buf).map fun io => (io, buf, mb.drop line.length)
    else some ({ io with buf_ := buf, rd_state_ := .RD_MORE }, line, mb.drop line.length)
  else some ({ io with buf_ := buf, rd_state_ := .RD_MORE }, line, mb)

/-- `read_data(mb)`: the object, the data, and what is left in the block. -/
def read_data (io : IMAP4_Client_IO) (mb : Bytes) : IMAP4_Client_IO × Bytes × Bytes :=
  if io.rd_state_ = .RD_DATA then
    let n := if io.rd_byte_ > 0 then (if io.rd_byte_ > mb.length then mb.length else io.rd_byte_) else 0
    let data := mb.take n
    let mb := mb.drop n
    let io := { io with rd_byte_ := io.rd_byte_ - n }
    if mb.length > 0 then
      let line := get_line mb LF
      ({ io with rd_state_ := if line.getLast? = some LF then .RD_DATA_OK else io.rd_state_ },
        data, mb.drop line.length)
    else (io, data, mb)
  else (io, [], mb)

/-- The loop of `fetch_to_data(..)`, with the data it has collected. -/
def reader : Reader ( IMAP4_Client_IO × Bytes) Byte where
  read io mb :=
    if io.1.rd_state_ ≠ .RD_DATA then
      (io.1.read_line mb).map fun r => ((r.1, io.2), r.2.2)
    else
      let r := io.1.read_data mb
      some ((r.1, io.2 ++ r.2.1), r.2.2)
  done io := io.1.rd_state_ = .RD_OK

/-- The call in front of a line. -/
theorem reader_line {io : IMAP4_Client_IO} (hdata : io.rd_state_ ≠ .RD_DATA) (data mb : Bytes) :
    reader.read (io, data) mb = (io.read_line mb).map fun r => ((r.1, data), r.2.2) :=
  if_pos hdata

/-- The call in a literal. -/
theorem reader_data {io : IMAP4_Client_IO} (hst : io.rd_state_ = .RD_DATA) (data mb : Bytes) :
    reader.read (io, data) mb
      = some (((io.read_data mb).1, data ++ (io.read_data mb).2.1), (io.read_data mb).2.2) :=
  if_neg (fun h => h hst)

/-- A call of `read_line` takes something. -/
theorem read_line_shrinks {io io' : IMAP4_Client_IO} {mb line rest : Bytes} (hmb : mb ≠ [])
    (h : io.read_line mb = some (io', line, rest)) : rest.length < mb.length := by
  have hshrinks := get_line_shrinks mb LF hmb
  unfold read_line at h
  simp only at h
  rw [if_pos (get_line_pos mb LF hmb)] at h
  split at h
  · obtain ⟨io₁, _, hsame⟩ := Option.map_eq_some_iff.mp h
    obtain rfl : mb.drop (get_line mb LF).length = rest := congrArg (fun r => r.2.2) hsame
    exact hshrinks
  · obtain rfl : mb.drop (get_line mb LF).length = rest :=
      congrArg (fun r => r.2.2) (Option.some.inj h)
    exact hshrinks

/-- So does a call of `read_data`: the literal, or its closing line. -/
theorem read_data_shrinks {io : IMAP4_Client_IO} (hst : io.rd_state_ = .RD_DATA) {mb : Bytes}
    (hmb : mb ≠ []) : (io.read_data mb).2.2.length < mb.length := by
  have hpos := List.length_pos_iff.mpr hmb
  obtain ⟨n, hn⟩ : ∃ n, n = if io.rd_byte_ > 0 then
      (if io.rd_byte_ > mb.length then mb.length else io.rd_byte_) else 0 := ⟨_, rfl⟩
  unfold read_data
  rw [if_pos hst]
  simp only [← hn]
  by_cases hleft : (mb.drop n).length > 0
  · rw [if_pos hleft]
    have hshrinks := get_line_shrinks (mb.drop n) LF (List.length_pos_iff.mp hleft)
    have hle : (mb.drop n).length ≤ mb.length := by
      rw [List.length_drop]
      omega
    exact lt_of_lt_of_le hshrinks hle
  · rw [if_neg hleft]
    show (mb.drop n).length < mb.length
    omega

/-- **The loop ends**, whatever comes. -/
theorem reader_ends : ∀ c : Conn ( IMAP4_Client_IO × Bytes) Byte, ∃ r, reader.Runs c r := by
  apply reader.ends_of_progress
  intro io mb io' mb' hmb _ hread
  obtain ⟨io, data⟩ := io
  refine Or.inl ?_
  by_cases hst : io.rd_state_ = .RD_DATA
  · rw [reader_data hst] at hread
    obtain rfl : (io.read_data mb).2.2 = mb' := congrArg Prod.snd (Option.some.inj hread)
    exact read_data_shrinks hst hmb
  · rw [reader_line hst] at hread
    obtain ⟨⟨io₁, line, rest⟩, hline, hsame⟩ := Option.map_eq_some_iff.mp hread
    obtain rfl : rest = mb' := congrArg Prod.snd hsame
    exact read_line_shrinks hmb hline

/-- `std::string::find(str)`. -/
def find (s str : Bytes) : Option Nat :=
  if str <+: s then some 0
  else
    match s with
    | [] => none
    | _ :: s => (find s str).map (· + 1)

/-- `parse_cmd_response()`. -/
def parse_cmd_response (io : IMAP4_Client_IO) : Response :=
  match find io.buf_ io.tag_ with
  | none => .UNKNOWN
  | some pos =>
      let status := (io.buf_.drop (pos + io.tag_.length)).dropWhile (· = SP)
      if status = [] then .UNKNOWN
      else if strncmp status (lit "OK") 2 = 0 then .OK
      else if strncmp status (lit "NO") 2 = 0 then .NO
      else if strncmp status (lit "BAD") 3 = 0 then .BAD
      else .UNKNOWN

/-! ## §2. Lines. -/

/-- The part of a line that has been read. -/
def pending (io : IMAP4_Client_IO) : Bytes := if io.rd_state_ ≠ .RD_MORE then [] else io.buf_

/-- A block that does not hold the end of the line. -/
theorem read_line_part (io : IMAP4_Client_IO) (mb : Bytes) (hne : mb ≠ []) (hlf : LF ∉ mb) :
    io.read_line mb
      = some ({ io with buf_ := io.pending ++ mb, rd_state_ := .RD_MORE }, mb, []) := by
  have hlast : ¬ mb.getLast? = some LF := fun h => hlf (List.mem_of_getLast? h)
  unfold read_line
  simp only [get_line_none mb LF hlf]
  rw [if_pos (List.length_pos_iff.mpr hne), if_neg hlast, List.drop_length]
  rfl

/-- A block that does. -/
theorem read_line_whole (io : IMAP4_Client_IO) (t rest : Bytes) (hlf : LF ∉ t) :
    io.read_line (t ++ LF :: rest)
      = (io.line_read (io.pending ++ (t ++ [LF]))).map
          fun io' => (io', io.pending ++ (t ++ [LF]), rest) := by
  have hdrop : (t ++ LF :: rest).drop (t ++ [LF]).length = rest := by
    have hcons : t ++ LF :: rest = t ++ [LF] ++ rest := by simp
    rw [hcons, List.drop_left]
  unfold read_line
  simp only [get_line_delim t rest LF hlf]
  rw [if_pos (by simp), if_pos (by simp), hdrop]
  rfl

/-- A loop whose calls are calls of `read_line`, from all objects that are `good`. -/
structure Calls {S : Type} (R : Reader S Byte) (f : IMAP4_Client_IO → S)
    (good : IMAP4_Client_IO → Prop) : Prop where
  read : ∀ io mb, good io → R.read (f io) mb = (io.read_line mb).map fun r => (f r.1, r.2.2)
  done : ∀ io, R.done (f io) = decide (io.rd_state_ = .RD_OK)
  more : ∀ io, io.rd_state_ = .RD_MORE → good io

theorem reader_calls (data : Bytes) :
    Calls reader (fun io => (io, data)) (fun io => io.rd_state_ ≠ .RD_DATA) where
  read io mb hdata := reader_line hdata data mb
  done _ := rfl
  more io hmore := by
    rw [hmore]
    simp

/-- The part of a line that has been read comes in front of the rest. -/
theorem line_read_pending (io : IMAP4_Client_IO) (mb rest : Bytes) :
    ({ io with buf_ := io.pending ++ mb, rd_state_ := .RD_MORE } : IMAP4_Client_IO).line_read
        (pending { io with buf_ := io.pending ++ mb, rd_state_ := .RD_MORE } ++ rest)
      = io.line_read (io.pending ++ (mb ++ rest)) := by
  rw [← List.append_assoc]
  rfl

namespace Calls

variable {S : Type} {R : Reader S Byte} {f : IMAP4_Client_IO → S} {good : IMAP4_Client_IO → Prop}

/-- What a call on the way through a line comes to. -/
theorem line_call (hR : Calls R f good) {io : IMAP4_Client_IO} (hgood : good io)
    {t mb rest : Bytes} (hlf : LF ∉ t) (hne : mb ≠ []) (h : mb <+: t ++ [LF] ++ rest) :
    (∃ t', t = mb ++ t' ∧ R.read (f io) mb
      = some (f { io with buf_ := io.pending ++ mb, rd_state_ := .RD_MORE }, [])) ∨
    (∃ mb', mb = t ++ LF :: mb' ∧ R.read (f io) mb
      = (io.line_read (io.pending ++ (t ++ [LF]))).map fun io' => (f io', mb')) := by
  rw [List.append_assoc] at h
  rcases Lib.Lines.prefix_line hlf h with ⟨hno, t', ht'⟩ | ⟨mb', hmb'⟩
  · refine Or.inl ⟨t', ht', ?_⟩
    rw [hR.read io mb hgood, read_line_part io mb hne hno]
    rfl
  · refine Or.inr ⟨mb', hmb', ?_⟩
    rw [hR.read io mb hgood, hmb', read_line_whole io t mb' hlf, Option.map_map]
    rfl

/-- **A line, wherever it is cut.**  What it comes to is what `line_read` says of
    the whole of it. -/
theorem reads_line (hR : Calls R f good) (t : Bytes) : ∀ io : IMAP4_Client_IO, LF ∉ t → good io →
    io.rd_state_ ≠ .RD_OK →
    (∀ io', io.line_read (io.pending ++ (t ++ [LF])) = some io' →
      R.Takes id (f io) (t ++ [LF]) (f io')) ∧
    (io.line_read (io.pending ++ (t ++ [LF])) = none → R.Fails id (f io) (t ++ [LF])) := by
  induction hn : t.length using Nat.strong_induction_on generalizing t with
  | _ n ih =>
      intro io hlf hgood hok
      have hidle : R.done (f io) = false := by
        rw [hR.done]
        exact decide_eq_false hok
      -- behind a part of the line stands a line
      have hpart : ∀ mb t', mb ≠ [] → t = mb ++ t' →
          (∀ io', io.line_read (io.pending ++ (mb ++ (t' ++ [LF]))) = some io' →
            R.Takes id (f { io with buf_ := io.pending ++ mb, rd_state_ := .RD_MORE })
              (t' ++ [LF]) (f io')) ∧
          (io.line_read (io.pending ++ (mb ++ (t' ++ [LF]))) = none →
            R.Fails id (f { io with buf_ := io.pending ++ mb, rd_state_ := .RD_MORE })
              (t' ++ [LF])) := by
        intro mb t' hne ht
        subst ht
        have hpos := List.length_pos_iff.mpr hne
        rw [List.length_append] at hn
        rw [← line_read_pending]
        exact ih t'.length (by omega) t' rfl _ (fun hmem => hlf (List.mem_append_right mb hmem))
          (hR.more _ rfl) (by simp)
      refine ⟨fun io' hread => ?_, fun hread => ?_⟩
      · apply R.takes_of_call rfl hidle (by simp)
        intro mb rest hne hpre
        rcases hR.line_call hgood hlf hne hpre with ⟨t', rfl, hcall⟩ | ⟨mb', rfl, hcall⟩
        · rw [List.append_assoc] at hread
          exact ⟨_, [], mb, t' ++ [LF], List.append_assoc _ _ _, (List.append_nil mb).symm, hcall,
            (hpart mb t' hne rfl).1 io' hread⟩
        · have hcons : t ++ LF :: mb' = t ++ [LF] ++ mb' := by simp
          exact ⟨_, mb', t ++ [LF], [], (List.append_nil _).symm, hcons, by rw [hcall, hread]; rfl,
            R.takes_nil id _⟩
      · apply R.fails_of_call rfl hidle (by simp)
        intro mb rest hne hpre
        rcases hR.line_call hgood hlf hne hpre with ⟨t', rfl, hcall⟩ | ⟨mb', rfl, hcall⟩
        · rw [List.append_assoc] at hread
          exact Or.inr ⟨_, [], mb, t' ++ [LF], List.append_assoc _ _ _, (List.append_nil mb).symm,
            hcall, (hpart mb t' hne rfl).2 hread⟩
        · exact Or.inl (by rw [hcall, hread]; rfl)

/-- **A stream without the end of a line is kept**, wherever it is cut. -/
theorem drains_part (hR : Calls R f good) (t : Bytes) : ∀ io : IMAP4_Client_IO, LF ∉ t → t ≠ [] →
    good io → io.rd_state_ ≠ .RD_OK →
    R.Drains id (f io) t (f { io with buf_ := io.pending ++ t, rd_state_ := .RD_MORE }) := by
  induction hn : t.length using Nat.strong_induction_on generalizing t with
  | _ n ih =>
      intro io hlf hne hgood hok
      have hidle : R.done (f io) = false := by
        rw [hR.done]
        exact decide_eq_false hok
      apply R.drains_of_call rfl hidle hne
      intro mb hmb hpre
      rw [id_eq] at hpre
      obtain ⟨t', rfl⟩ := hpre
      have hpos := List.length_pos_iff.mpr hmb
      rw [List.length_append] at hn
      refine ⟨f { io with buf_ := io.pending ++ mb, rd_state_ := .RD_MORE }, [], mb, t', rfl,
        (List.append_nil mb).symm, ?_, ?_⟩
      · rw [hR.read io mb hgood,
          read_line_part io mb hmb (fun hmem => hlf (List.mem_append_left t' hmem))]
        rfl
      · by_cases hnil : t' = []
        · subst hnil
          rw [List.append_nil]
          exact R.drains_nil (fun _ h => h) _
        · have hrest := ih t'.length (by omega) t' rfl
            { io with buf_ := io.pending ++ mb, rd_state_ := .RD_MORE }
            (fun hmem => hlf (List.mem_append_right mb hmem)) hnil (hR.more _ rfl) (by simp)
          have hpending : pending { io with buf_ := io.pending ++ mb, rd_state_ := .RD_MORE }
              = io.pending ++ mb := rfl
          rw [hpending, List.append_assoc] at hrest
          exact hrest

end Calls

/-- A line in front of which `fetch_to_data` stands. -/
theorem reads_line (data : Bytes) (t : Bytes) (io : IMAP4_Client_IO) (hlf : LF ∉ t)
    (hdata : io.rd_state_ ≠ .RD_DATA) (hok : io.rd_state_ ≠ .RD_OK) :
    (∀ io', io.line_read (io.pending ++ (t ++ [LF])) = some io' →
      reader.Takes id (io, data) (t ++ [LF]) (io', data)) ∧
    (io.line_read (io.pending ++ (t ++ [LF])) = none →
      reader.Fails id (io, data) (t ++ [LF])) :=
  (reader_calls data).reads_line t io hlf hdata hok

/-! ## §3. Literals. -/

/-- A block with nothing but data. -/
theorem read_data_part {io : IMAP4_Client_IO} (hst : io.rd_state_ = .RD_DATA) (mb : Bytes)
    (hmb : mb ≠ []) (hle : mb.length ≤ io.rd_byte_) :
    io.read_data mb = ({ io with rd_byte_ := io.rd_byte_ - mb.length }, mb, []) := by
  have hpos := List.length_pos_iff.mpr hmb
  have hn : (if io.rd_byte_ > 0 then (if io.rd_byte_ > mb.length then mb.length else io.rd_byte_)
      else 0) = mb.length := by
    rw [if_pos (by omega)]
    split
    · rfl
    · omega
  unfold read_data
  rw [if_pos hst]
  simp only [hn, List.drop_length, List.take_length]
  rw [if_neg (by simp)]

/-- A block with the rest of the data and something behind it. -/
theorem read_data_end {io : IMAP4_Client_IO} (hst : io.rd_state_ = .RD_DATA) (d mb : Bytes)
    (hd : io.rd_byte_ = d.length) (hmb : mb ≠ []) :
    io.read_data (d ++ mb)
      = ({ io with
            rd_byte_ := 0
            rd_state_ := if (get_line mb LF).getLast? = some LF then .RD_DATA_OK else io.rd_state_ },
          d, mb.drop (get_line mb LF).length) := by
  have hpos := List.length_pos_iff.mpr hmb
  have hn : (if io.rd_byte_ > 0 then
      (if io.rd_byte_ > (d ++ mb).length then (d ++ mb).length else io.rd_byte_) else 0)
        = d.length := by
    rw [List.length_append, hd]
    split
    · rw [if_neg (by omega)]
    · omega
  unfold read_data
  rw [if_pos hst]
  simp only [hn, List.drop_left, List.take_left]
  rw [if_pos hpos, hd, Nat.sub_self]

/-- **A literal and its closing line, wherever they are cut.** -/
theorem takes_data (d t : Bytes) : ∀ (io : IMAP4_Client_IO) (data : Bytes), LF ∉ t →
    io.rd_state_ = .RD_DATA → io.rd_byte_ = d.length →
    reader.Takes id (io, data) (d ++ (t ++ [LF]))
      ({ io with rd_byte_ := 0, rd_state_ := .RD_DATA_OK }, data ++ d) := by
  induction hn : (d ++ t).length using Nat.strong_induction_on generalizing d t with
  | _ n ih =>
      intro io data hlf hst hbyte
      have hidle : reader.done (io, data) = false := by
        show decide (io.rd_state_ = .RD_OK) = false
        rw [hst]
        rfl
      apply reader.takes_of_call rfl hidle (by simp)
      intro mb rest hmb hpre
      have hpos := List.length_pos_iff.mpr hmb
      rw [id_eq, List.append_assoc] at hpre
      by_cases hle : mb.length ≤ d.length
      · -- data only
        obtain ⟨d', rfl⟩ := List.prefix_of_prefix_length_le hpre (List.prefix_append d _) hle
        rw [List.length_append] at hbyte
        refine ⟨({ io with rd_byte_ := io.rd_byte_ - mb.length }, data ++ mb), [], mb,
          d' ++ (t ++ [LF]), List.append_assoc _ _ _, (List.append_nil mb).symm, ?_, ?_⟩
        · rw [reader_data hst, read_data_part hst mb hmb (by omega)]
        · have hshort : (d' ++ t).length < n := by
            simp only [List.length_append] at hn ⊢
            omega
          have hrest := ih (d' ++ t).length hshort d' t rfl
            { io with rd_byte_ := io.rd_byte_ - mb.length } (data ++ mb) hlf hst
            (by show io.rd_byte_ - mb.length = d'.length; omega)
          rw [List.append_assoc] at hrest
          exact hrest
      · -- all data, and something of the closing line
        obtain ⟨mb₁, rfl⟩ : d <+: mb :=
          List.prefix_of_prefix_length_le (List.prefix_append d _) hpre (by omega)
        rw [List.prefix_append_right_inj, List.append_assoc] at hpre
        have hmb₁ : mb₁ ≠ [] := by
          intro hnil
          rw [hnil, List.append_nil] at hle
          omega
        have hcall := read_data_end hst d mb₁ hbyte hmb₁
        rcases Lib.Lines.prefix_line hlf hpre with ⟨hno, t', rfl⟩ | ⟨mb', rfl⟩
        · have hlast : ¬ mb₁.getLast? = some LF := fun h => hno (List.mem_of_getLast? h)
          have hpos₁ := List.length_pos_iff.mpr hmb₁
          rw [get_line_none mb₁ LF hno, if_neg hlast, List.drop_length] at hcall
          refine ⟨({ io with rd_byte_ := 0 }, data ++ d), [], d ++ mb₁, [] ++ (t' ++ [LF]), by simp,
            (List.append_nil _).symm, ?_, ?_⟩
          · rw [reader_data hst, hcall]
          · have hrest := ih ([] ++ t').length
              (by rw [← hn]; simp only [List.length_append, List.length_nil]; omega) [] t' rfl
              { io with rd_byte_ := 0 } (data ++ d)
              (fun hmem => hlf (List.mem_append_right mb₁ hmem)) hst rfl
            rw [List.append_nil] at hrest
            exact hrest
        · have hdrop : (t ++ LF :: mb').drop (t ++ [LF]).length = mb' := by
            have hcons : t ++ LF :: mb' = t ++ [LF] ++ mb' := by simp
            rw [hcons, List.drop_left]
          rw [get_line_delim t mb' LF hlf, if_pos (by simp), hdrop] at hcall
          have hcons : d ++ (t ++ LF :: mb') = d ++ (t ++ [LF]) ++ mb' := by simp
          exact ⟨({ io with rd_byte_ := 0, rd_state_ := .RD_DATA_OK }, data ++ d), mb',
            d ++ (t ++ [LF]), [], (List.append_nil _).symm, hcons, by rw [reader_data hst, hcall],
            reader.takes_nil id _⟩

/-! ## §4. Commands. -/

inductive Write where
  | WR_MORE
  | WR_OK
  deriving DecidableEq

/-- Every command: `mb.reset()`, one `snprintf`, and the state by the space that is left. -/
def cmd {B : Type} (MB : Message_Block B) (mb : B) (text : Bytes) : B × Write :=
  let mb := MB.print (MB.reset mb) text
  (mb, if MB.space mb > 0 then .WR_OK else .WR_MORE)

/-- `"%s LOGIN %s %s\r\n"`. -/
def login_line (tag user pass : Bytes) : Bytes :=
  c_str tag ++ lit " LOGIN " ++ c_str user ++ [SP] ++ c_str pass ++ [CR, LF]

/-- `cmd_login(mb, user, pass)`. -/
def cmd_login (io : IMAP4_Client_IO) {B : Type} (MB : Message_Block B) (mb : B)
    (user pass : Bytes) : B × Write :=
  cmd MB mb (login_line io.tag_ user pass)

/-- A command that fits is in the block as it is. -/
theorem cmd_text {B : Type} (MB : Message_Block B) (mb : B) (text : Bytes)
    (h : text.length < MB.size mb) :
    MB.text (cmd MB mb text).1 = text ∧ (cmd MB mb text).2 = .WR_OK := by
  have hspace := MB.space_reset mb
  obtain ⟨htext, hleft⟩ := MB.print_fits (MB.reset mb) text (by rw [hspace]; exact h)
  unfold cmd
  refine ⟨?_, ?_⟩
  · show MB.text (MB.print (MB.reset mb) text) = _
    rw [htext, MB.text_reset, List.nil_append]
  · show (if MB.space (MB.print (MB.reset mb) text) > 0 then _ else _) = _
    rw [if_pos (by omega)]

end IMAP4_Client_IO

end Aos
