/-
  Aos.Net.Http.ServerIO — `HTTP_Server_IO`, the server's side of an HTTP request.

  `read_header` reads the head of a request line by line into `headers_`; a
  part of a line is stored at once and lengthened by the next call.  With the
  empty line the head is parsed, and `read_data` counts the body.  `atoi` of a
  Content-Length that is no `int` is undefined, and so is the reading then.

  Main results:
    • `reader_ends` — the server's loop ends, whatever comes;
    • `read_piece_line`, `read_piece_part` — what one call does to the headers.
-/
import Aos.Str.Line
import Aos.Str.Compare
import Aos.Str.Number
import Aos.Str.Tokenizer
import Aos.Str.MultiString
import Aos.Lib.Feed

namespace Aos

open Lib.Packed

namespace HTTP_Server_IO

def HEADER_MAX : Nat := 8192

/-- `(size_t) -1`. -/
def NO_CONTENT_LENGTH : Nat := 2 ^ 64 - 1

def KEEP_ALIVE : Nat := 1

inductive Read where
  | RD_MORE
  | RD_HEADER
  | RD_DATA
  | RD_OK
  | RD_ERR_HEADER_OVERSIZE
  deriving DecidableEq

end HTTP_Server_IO

open HTTP_Server_IO in
structure HTTP_Server_IO where
  rd_state_ : Read
  rd_byte_ : Nat
  flags_ : Nat
  headers_ : Multi_String
  deriving DecidableEq

namespace HTTP_Server_IO

def read_reset (_io : HTTP_Server_IO) : HTTP_Server_IO := ⟨.RD_MORE, 0, 0, .new⟩

/-! ## §1. The head. -/

/-- The body of the loop in `parse_header`, for the header at `header`. -/
def parse_line (io : HTTP_Server_IO) (header : Bytes) : Option HTTP_Server_IO :=
  if deref header = 67 then -- 'C'
    if strncasecmp header (lit "content-length:") 15 = 0 then
      (atoi (c_str (header.drop 15))).map fun n => { io with rd_byte_ := (n % 2 ^ 64).toNat }
    else if strncasecmp header (lit "connection:") 11 = 0 then
      let val := ltrim TRIM_CM (c_str (header.drop 11))
      if strncasecmp val (lit "keep-alive") 10 = 0 then
        some { io with flags_ := io.flags_ ||| KEEP_ALIVE }
      else some io
    else some io
  else some io

/-- `parse_header()`; `headers_[0]` is skipped. -/
def parse_header (io : HTTP_Server_IO) : Option HTTP_Server_IO :=
  ((List.range io.headers_.count).drop 1).foldlM
    (fun io i => io.parse_line ((io.headers_.at_ i).getD []))
    { io with rd_byte_ := NO_CONTENT_LENGTH }

/-- The end of the head. -/
def header_completed (io : HTTP_Server_IO) : Option HTTP_Server_IO :=
  (parse_header { io with rd_state_ := .RD_OK }).map fun io =>
    let first := (io.headers_.at_ 0).getD []
    if strncasecmp first (lit "POST") 4 = 0 ∨ strncasecmp first (lit "PUT") 3 = 0 then
      { io with rd_state_ := .RD_DATA } -- POST & PUT command has message body!
    else io

/-- `read_header(mb)` behind `get_line`, in the states RD_MORE and RD_HEADER. -/
def read_piece (io : HTTP_Server_IO) (line : Bytes) : Option HTTP_Server_IO :=
  if io.headers_.strs_.length + line.length > HEADER_MAX then
    some { io with rd_state_ := .RD_ERR_HEADER_OVERSIZE }
  else if line.getLast? = some LF then
    let n_crlf := if line.length > 1 ∧ line.getD (line.length - 2) NUL = CR then 2 else 1
    if io.rd_state_ = .RD_HEADER then
      if line.length = n_crlf then io.header_completed
      else
        some { io with
          headers_ := io.headers_.push_back (line.take (line.length - n_crlf))
          rd_state_ := .RD_HEADER }
    else -- rd_state_ == RD_MORE
      some { io with
        headers_ := io.headers_.append_to_last (line.take (line.length - n_crlf))
        rd_state_ := .RD_HEADER }
  else if io.rd_state_ = .RD_HEADER then
    some { io with headers_ := io.headers_.push_back line, rd_state_ := .RD_MORE }
  else -- rd_state_ == RD_MORE
    some { io with headers_ := io.headers_.append_to_last line, rd_state_ := .RD_MORE }

/-- `read_header(mb)`: the object, the line, and what is left in the block. -/
def read_header (io : HTTP_Server_IO) (mb : Bytes) : Option ( HTTP_Server_IO × Bytes × Bytes) :=
  if io.rd_state_ = .RD_MORE ∨ io.rd_state_ = .RD_HEADER then
    let line := get_line mb LF
    (io.read_piece line).map fun io => (io, line, mb.drop line.length)
  else some (io, [], mb)

/-! ## §2. The body, and the loop. -/

/-- `read_data(mb)`: the object, the data, and what is left in the block. -/
def read_data (io : HTTP_Server_IO) (mb : Bytes) : HTTP_Server_IO × Bytes × Bytes :=
  if io.rd_state_ = .RD_DATA then
    if io.rd_byte_ ≠ NO_CONTENT_LENGTH then
      let n := if io.rd_byte_ > mb.length then mb.length else io.rd_byte_
      let rd_byte := io.rd_byte_ - n
      ({ io with
          rd_byte_ := rd_byte
          rd_state_ := if rd_byte = 0 then .RD_OK else io.rd_state_ },
        mb.take n, mb.drop n)
    else ({ io with rd_state_ := .RD_OK }, mb, []) -- will skip reading message-body
  else (io, [], mb)

/-- `read_state() >= RD_OK`. -/
def done (io : HTTP_Server_IO) : Bool :=
  io.rd_state_ = .RD_OK ∨ io.rd_state_ = .RD_ERR_HEADER_OVERSIZE

/-- The server's loop. -/
def reader : Lib.Feed.Reader HTTP_Server_IO Byte where
  read io mb :=
    if io.rd_state_ ≠ .RD_DATA then (io.read_header mb).map fun r => (r.1, r.2.2)
    else
      let r := io.read_data mb
      some (r.1, r.2.2)
  done := done

/-- The call in the head. -/
theorem reader_header {io : HTTP_Server_IO}
    (hst : io.rd_state_ = .RD_MORE ∨ io.rd_state_ = .RD_HEADER) (mb : Bytes) :
    reader.read io mb = (io.read_piece (get_line mb LF)).map fun io' =>
      (io', mb.drop (get_line mb LF).length) := by
  have hdata : io.rd_state_ ≠ .RD_DATA := by
    rcases hst with hmore | hheader
    · rw [hmore]
      decide
    · rw [hheader]
      decide
  show (if io.rd_state_ ≠ .RD_DATA then (io.read_header mb).map fun r => (r.1, r.2.2) else _) = _
  unfold read_header
  rw [if_pos hdata, if_pos hst, Option.map_map]
  rfl

/-- The call in the body. -/
theorem reader_data {io : HTTP_Server_IO} (hst : io.rd_state_ = .RD_DATA) (mb : Bytes) :
    reader.read io mb = some ((io.read_data mb).1, (io.read_data mb).2.2) :=
  if_neg (fun h => h hst)

/-- A call of `read_data` takes something, or is the last. -/
theorem read_data_shrinks {io : HTTP_Server_IO} (hst : io.rd_state_ = .RD_DATA) {mb : Bytes}
    (hmb : mb ≠ []) :
    (io.read_data mb).2.2.length < mb.length ∨
      (io.read_data mb).2.2.length ≤ mb.length ∧ done (io.read_data mb).1 = true := by
  have hpos := List.length_pos_iff.mpr hmb
  unfold read_data
  rw [if_pos hst]
  by_cases hcount : io.rd_byte_ ≠ NO_CONTENT_LENGTH
  · rw [if_pos hcount]
    by_cases hzero : io.rd_byte_ = 0
    · -- nothing is wanted, and the body is read
      refine Or.inr ⟨?_, ?_⟩
      · show (mb.drop _).length ≤ mb.length
        rw [List.length_drop]
        omega
      · simp only [hzero, Nat.zero_sub]
        rfl
    · refine Or.inl ?_
      show (mb.drop _).length < mb.length
      rw [List.length_drop]
      split
      · omega
      · omega
  · rw [if_neg hcount]
    exact Or.inl hpos

/-- **The server's loop ends**, whatever comes. -/
theorem reader_ends : ∀ c : Lib.Feed.Conn HTTP_Server_IO Byte, ∃ r, reader.Runs c r := by
  apply reader.ends_of_progress
  intro io mb io' mb' hmb hidle hread
  have hnot : ¬ (io.rd_state_ = .RD_OK ∨ io.rd_state_ = .RD_ERR_HEADER_OVERSIZE) :=
    of_decide_eq_false hidle
  have hheader : io.rd_state_ = .RD_MORE ∨ io.rd_state_ = .RD_HEADER → mb'.length < mb.length := by
    intro hst
    rw [reader_header hst] at hread
    obtain ⟨io₁, _, hsame⟩ := Option.map_eq_some_iff.mp hread
    obtain rfl : mb.drop (get_line mb LF).length = mb' := congrArg Prod.snd hsame
    exact get_line_shrinks mb LF hmb
  cases hst : io.rd_state_ with
  | RD_MORE => exact Or.inl (hheader (Or.inl hst))
  | RD_HEADER => exact Or.inl (hheader (Or.inr hst))
  | RD_DATA =>
      rw [reader_data hst] at hread
      have hsame := Option.some.inj hread
      obtain rfl : (io.read_data mb).1 = io' := congrArg Prod.fst hsame
      obtain rfl : (io.read_data mb).2.2 = mb' := congrArg Prod.snd hsame
      exact read_data_shrinks hst hmb
  | RD_OK => exact absurd (Or.inl hst) hnot
  | RD_ERR_HEADER_OVERSIZE => exact absurd (Or.inr hst) hnot

/-! ## §3. What a call does to the headers. -/

/-- A line without its line end. -/
def strip (t : Bytes) : Bytes := if t.getLast? = some CR then t.dropLast else t

theorem strip_length (t : Bytes) : (strip t).length ≤ t.length := by
  unfold strip
  split
  · rw [List.length_dropLast]
    omega
  · exact le_refl _

/-- The line end, as the code counts it. -/
theorem line_end_length (t : Bytes) :
    (t ++ [LF]).length - (if (t ++ [LF]).length > 1 ∧
      (t ++ [LF]).getD ((t ++ [LF]).length - 2) NUL = CR then 2 else 1) = (strip t).length ∧
    (t ++ [LF]).take (strip t).length = strip t := by
  have hlen : (t ++ [LF]).length = t.length + 1 := by simp
  rcases List.eq_nil_or_concat t with rfl | ⟨u, c, rfl⟩
  · exact ⟨rfl, rfl⟩
  · rw [List.concat_eq_append] at hlen ⊢
    have hget : (u ++ [c] ++ [LF]).getD ((u ++ [c] ++ [LF]).length - 2) NUL = c := by
      have hidx : (u ++ [c] ++ [LF]).length - 2 = u.length := by simp
      rw [hidx, List.append_assoc]
      exact getD_at u [LF] c NUL
    have hcount : (u ++ [c] ++ [LF]).length = u.length + 2 := by simp
    rw [hget, hcount]
    unfold strip
    rw [List.getLast?_concat]
    by_cases hc : c = CR
    · rw [if_pos ⟨by omega, hc⟩, if_pos (by rw [hc]), List.dropLast_concat]
      refine ⟨by omega, ?_⟩
      rw [List.append_assoc, List.take_left]
    · rw [if_neg (fun h => hc h.2), if_neg (fun h => hc (Option.some.inj h))]
      refine ⟨by simp, ?_⟩
      rw [List.take_left]

/-- The object in the state RD_HEADER, with these headers. -/
def closed (L : List Bytes) : HTTP_Server_IO := ⟨.RD_HEADER, 0, 0, packed L⟩

/-- The object in the state RD_MORE, with these headers and the part of one. -/
def opened (L : List Bytes) (part : Bytes) : HTTP_Server_IO := ⟨.RD_MORE, 0, 0, packed (L ++ [part])⟩

/-- The object that has read nothing. -/
def start : HTTP_Server_IO := ⟨.RD_MORE, 0, 0, packed []⟩

/-- **The whole of a line**, in every state. -/
theorem read_piece_line (io : HTTP_Server_IO) (t : Bytes)
    (hsize : io.headers_.strs_.length + (t.length + 1) ≤ HEADER_MAX) :
    io.read_piece (t ++ [LF])
      = if io.rd_state_ = .RD_HEADER then
          if strip t = [] then io.header_completed
          else some { io with headers_ := io.headers_.push_back (strip t), rd_state_ := .RD_HEADER }
        else
          some { io with headers_ := io.headers_.append_to_last (strip t), rd_state_ := .RD_HEADER } := by
  obtain ⟨hcount, htake⟩ := line_end_length t
  have hlen : (t ++ [LF]).length = t.length + 1 := by simp
  have hstrip := strip_length t
  unfold read_piece
  rw [if_neg (by rw [hlen]; omega), if_pos (by simp)]
  simp only [hcount, htake]
  have hnil : (t ++ [LF]).length = (if (t ++ [LF]).length > 1 ∧
      (t ++ [LF]).getD ((t ++ [LF]).length - 2) NUL = CR then 2 else 1) ↔ strip t = [] := by
    rw [← List.length_eq_zero_iff]
    split at hcount
    · rw [if_pos (by assumption)]
      omega
    · rw [if_neg (by assumption)]
      omega
  by_cases hstate : io.rd_state_ = .RD_HEADER
  · rw [if_pos hstate, if_pos hstate]
    by_cases hblank : strip t = []
    · rw [if_pos (hnil.mpr hblank), if_pos hblank]
    · rw [if_neg (fun h => hblank (hnil.mp h)), if_neg hblank]
  · rw [if_neg hstate, if_neg hstate]

/-- **A part of a line**, in every state. -/
theorem read_piece_part (io : HTTP_Server_IO) (p : Bytes) (hlf : LF ∉ p)
    (hsize : io.headers_.strs_.length + p.length ≤ HEADER_MAX) :
    io.read_piece p
      = if io.rd_state_ = .RD_HEADER then
          some { io with headers_ := io.headers_.push_back p, rd_state_ := .RD_MORE }
        else some { io with headers_ := io.headers_.append_to_last p, rd_state_ := .RD_MORE } := by
  have hlast : ¬ p.getLast? = some LF := fun h => hlf (List.mem_of_getLast? h)
  unfold read_piece
  rw [if_neg (by omega), if_neg hlast]

end HTTP_Server_IO

end Aos
