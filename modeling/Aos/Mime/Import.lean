/-
  Aos.Mime.Import — the three importers.

  `import_data` takes its input whole, `import_file` and `import_file_handle`
  read it into a buffer again and again.  All run the same loop over the lines
  of a buffer and carry the line that a buffer's end has cut off.

  Main results:
    • `get_lines_eq` — the loop over a buffer is `read_stream`, which cuts the
      buffer into lines and gives them to the parser;
    • `import_buffers_eq` — once the delimiter is known, importing buffers is
      reading their concatenation;
    • `import_data_eq` — `import_data` is the parser over all lines, unless it
      stops behind the header.
-/
import Aos.Mime.Parse
import Aos.Str.Line

namespace Aos

open Lib.Lines MIME_Entity

/-! ## §1. The loops. -/

/-- The variables of the import loops. -/
structure Reader where
  e : MIME_Entity
  line : Bytes
  n_byte : Int
  parsing : Bool

/-- `bool with_body = (flag == Flag::NO_BODY)?false:true`. -/
def with_body (flag : Flag) : Bool := if flag = .NO_BODY then false else true

theorem rest_shorter (left : Bytes) (delimiter : Byte)
    (h : left.drop (get_line left delimiter).length ≠ []) :
    (left.drop (get_line left delimiter).length).length < left.length := by
  have hne : left ≠ [] := by
    intro heq
    subst heq
    exact h rfl
  have hpos := get_line_pos left delimiter hne
  have hlen := List.length_pos_iff.mpr hne
  rw [List.length_drop]
  omega

/-- The loop `get lines` over one buffer, of which `left` is not read yet. -/
def get_lines (flag : Flag) (no_hidden_header : Bool) (delimiter : Byte) (st : Reader)
    (left : Bytes) : Reader :=
  let bstr := get_line left delimiter
  let rest := left.drop bstr.length
  let line := st.line ++ bstr
  if bstr.getLast? = some delimiter then
    let e := st.e.parse_line line no_hidden_header (with_body flag)
    -- check if only parse header AND header completed
    if flag = .HEADER ∧ e.pstate_.val ≥ Parse.HEADER_DONE.val then ⟨e, line, st.n_byte, false⟩
    else
      let st' : Reader := ⟨e, [], st.n_byte + toInt line.length, st.parsing⟩
      if _h : rest = [] then st' else get_lines flag no_hidden_header delimiter st' rest
  else
    let st' : Reader := { st with line := line }
    if _h : rest = [] then st' else get_lines flag no_hidden_header delimiter st' rest
termination_by left.length
decreasing_by all_goals exact rest_shorter left delimiter _h

/-- `import_data(buf, len, flag, no_hidden_header)`: the entity and the value returned. -/
def import_data (buf : Bytes) (flag : Flag) (no_hidden_header : Bool) : MIME_Entity × Int :=
  let delimiter := get_line_delimiter buf
  let st := get_lines flag no_hidden_header delimiter ⟨new, [], 0, true⟩ buf
  (st.e.parse_line st.line no_hidden_header (with_body flag), st.n_byte + toInt st.line.length)

/-- `while( parsing )`, for the buffers the reads return; there are none left at
    the end of the file. -/
def import_buffers (flag : Flag) (no_hidden_header : Bool) :
    Byte → Reader → List Bytes → Reader
  | _, st, [] =>
      { st with
        e := st.e.parse_line st.line no_hidden_header (with_body flag)
        n_byte := st.n_byte + toInt st.line.length }
  | delimiter, st, buf :: bufs =>
      let delimiter := if delimiter = NUL then get_line_delimiter buf else delimiter
      let st' := get_lines flag no_hidden_header delimiter st buf
      if st'.parsing then import_buffers flag no_hidden_header delimiter st' bufs else st'

/-- What the reads of a file return: `size` bytes each, the last one what is left. -/
def reads (size : Nat) (file : Bytes) : List Bytes :=
  if _h : file = [] ∨ size = 0 then [] else file.take size :: reads size (file.drop size)
termination_by file.length
decreasing_by
  have hlen := List.length_pos_iff.mpr (fun he => _h (Or.inl he))
  have hsize : size ≠ 0 := fun he => _h (Or.inr he)
  rw [List.length_drop]
  omega

/-- An importer over the given buffers, from a reset entity. -/
def import_from (bufs : List Bytes) (flag : Flag) (no_hidden_header : Bool) : MIME_Entity × Int :=
  let st := import_buffers flag no_hidden_header NUL ⟨new, [], 0, true⟩ bufs
  (st.e, st.n_byte)

/-- `MIME_Entity::import_file` on a file with this content, `BUF_SIZE = 4096`. -/
def import_file (file : Bytes) (flag : Flag) (no_hidden_header : Bool) : MIME_Entity × Int :=
  import_from (reads 4096 file) flag no_hidden_header

/-- `MIME_Util::import_file_handle` on such a file, `BUF_SIZE = 16384`. -/
def import_file_handle (file : Bytes) (flag : Flag) (no_hidden_header : Bool) :
    MIME_Entity × Int :=
  import_from (reads 16384 file) flag no_hidden_header

/-! ## §2. The reads of a file. -/

theorem reads_flatten (size : Nat) (hsize : size ≠ 0) :
    ∀ file : Bytes, (reads size file).flatten = file := by
  intro file
  fun_induction reads size file with
  | case1 file h =>
      rcases h with h | h
      · exact h.symm
      · exact absurd h hsize
  | case2 file h ih => rw [List.flatten_cons, ih, List.take_append_drop]

theorem reads_ne_nil (size : Nat) : ∀ file : Bytes, ∀ buf ∈ reads size file, buf ≠ [] := by
  intro file
  fun_induction reads size file with
  | case1 file h => intro buf hbuf; exact absurd hbuf List.not_mem_nil
  | case2 file h ih =>
      intro buf hbuf
      rcases List.mem_cons.mp hbuf with rfl | hbuf
      · intro hnil
        rcases List.take_eq_nil_iff.mp hnil with h0 | h0
        · exact h (Or.inr h0)
        · exact h (Or.inl h0)
      · exact ih buf hbuf

theorem reads_cons (size : Nat) (hsize : size ≠ 0) (file : Bytes) (hfile : file ≠ []) :
    reads size file = file.take size :: reads size (file.drop size) := by
  rw [reads, dif_neg (by simp [hsize, hfile])]

/-- A file that fits one buffer. -/
theorem reads_short (size : Nat) (file : Bytes) (hfile : file ≠ []) (hlen : file.length ≤ size) :
    reads size file = [file] := by
  have hpos := List.length_pos_iff.mpr hfile
  rw [reads_cons size (by omega) file hfile, List.take_of_length_le hlen,
    List.drop_eq_nil_of_le hlen, reads, dif_pos (Or.inl rfl)]

/-! ## §3. Lines into the parser. -/

/-- The header is all that is wanted, and it is complete. -/
def stops (flag : Flag) (e : MIME_Entity) : Bool :=
  flag = .HEADER ∧ e.pstate_.val ≥ Parse.HEADER_DONE.val

/-- Complete lines into the parser, up to an early end. -/
def feed (flag : Flag) (no_hidden_header : Bool) : MIME_Entity → Int → List Bytes → Reader
  | e, n, [] => ⟨e, [], n, true⟩
  | e, n, line :: lines =>
      let e' := e.parse_line line no_hidden_header (with_body flag)
      if stops flag e' then ⟨e', line, n, false⟩
      else feed flag no_hidden_header e' (n + toInt line.length) lines

/-- A stream read behind `carry`: its lines into the parser, the rest carried on. -/
def read_stream (flag : Flag) (no_hidden_header : Bool) (delimiter : Byte) (carry : Bytes)
    (e : MIME_Entity) (n : Int) (xs : Bytes) : Reader :=
  let lines := cut delimiter carry xs
  let st := feed flag no_hidden_header e n lines.1
  if st.parsing then { st with line := lines.2 } else st

variable (flag : Flag) (no_hidden_header : Bool) (delimiter : Byte)

theorem feed_append (ls ms : List Bytes) :
    ∀ (e : MIME_Entity) (n : Int), feed flag no_hidden_header e n (ls ++ ms) =
      let st := feed flag no_hidden_header e n ls
      if st.parsing then feed flag no_hidden_header st.e st.n_byte ms else st := by
  induction ls with
  | nil => intro e n; rfl
  | cons line ls ih =>
      intro e n
      rw [List.cons_append, feed, feed]
      dsimp only
      -- after an early end nothing of the rest is read
      by_cases hstop :
          stops flag (e.parse_line line no_hidden_header (with_body flag)) = true
      · rw [if_pos hstop, if_pos hstop]
        rfl
      · rw [if_neg hstop, if_neg hstop, ih]

/-- **The loop over a buffer** cuts it into lines and feeds them to the parser. -/
theorem get_lines_eq (left : Bytes) (hleft : left ≠ []) :
    ∀ (e : MIME_Entity) (carry : Bytes) (n : Int),
      get_lines flag no_hidden_header delimiter ⟨e, carry, n, true⟩ left
        = read_stream flag no_hidden_header delimiter carry e n left := by
  induction hlen : left.length using Nat.strong_induction_on generalizing left with
  | _ len ih =>
  intro e carry n
  by_cases hd : delimiter ∈ left
  · -- the buffer holds the end of a line
    obtain ⟨t, rest, rfl, ht⟩ := List.eq_append_cons_of_mem hd
    have hline := get_line_delim t rest delimiter ht
    have hrest : (t ++ delimiter :: rest).drop (t ++ [delimiter]).length = rest := by
      have hsplit : t ++ delimiter :: rest = (t ++ [delimiter]) ++ rest := by simp
      rw [hsplit, List.drop_left]
    have hlast : (t ++ [delimiter]).getLast? = some delimiter := List.getLast?_concat
    rw [get_lines]
    dsimp only
    rw [hline, hrest, if_pos hlast]
    unfold read_stream
    rw [cut_line delimiter t carry rest ht, ← List.append_assoc]
    dsimp only
    rw [feed]
    by_cases hstop : stops flag
        (e.parse_line (carry ++ t ++ [delimiter]) no_hidden_header (with_body flag)) = true
    · rw [if_pos hstop, if_pos (of_decide_eq_true hstop)]
      rfl
    · rw [if_neg hstop, if_neg (fun h => hstop (decide_eq_true h))]
      by_cases hnil : rest = []
      · subst hnil
        rw [dif_pos rfl]
        rfl
      · rw [dif_neg hnil]
        have hshort : rest.length < len := by
          rw [← hlen, List.length_append, List.length_cons]
          omega
        exact ih rest.length hshort rest hnil rfl _ [] _
  · -- the whole buffer belongs to the line that is being read
    have hline := get_line_none left delimiter hd
    have hlast : left.getLast? ≠ some delimiter := fun h => hd (List.mem_of_getLast? h)
    have hcut := cut_text delimiter left carry [] hd
    rw [List.append_nil] at hcut
    rw [get_lines]
    dsimp only
    rw [hline, if_neg hlast, dif_pos (List.drop_length)]
    unfold read_stream
    rw [hcut]
    rfl

/-- **A stream may come in pieces.** -/
theorem read_stream_append (xs ys : Bytes) (carry : Bytes) (e : MIME_Entity) (n : Int) :
    read_stream flag no_hidden_header delimiter carry e n (xs ++ ys) =
      let st := read_stream flag no_hidden_header delimiter carry e n xs
      if st.parsing then read_stream flag no_hidden_header delimiter st.line st.e st.n_byte ys
      else st := by
  unfold read_stream
  rw [cut_append]
  dsimp only
  rw [feed_append]
  dsimp only
  by_cases hp : (feed flag no_hidden_header e n (cut delimiter carry xs).1).parsing = true
  · rw [if_pos hp, if_pos hp]
    dsimp only
    rw [if_pos hp]
  · rw [if_neg hp, if_neg hp, if_neg hp, if_neg hp]

/-- The parse of what is carried at the end of the file. -/
def finish (st : Reader) : Reader :=
  if st.parsing then
    { st with
      e := st.e.parse_line st.line no_hidden_header (with_body flag)
      n_byte := st.n_byte + toInt st.line.length }
  else st

theorem import_buffers_known (hd : delimiter ≠ NUL) (bufs : List Bytes) :
    (∀ buf ∈ bufs, buf ≠ []) → ∀ (e : MIME_Entity) (carry : Bytes) (n : Int),
      import_buffers flag no_hidden_header delimiter ⟨e, carry, n, true⟩ bufs
        = finish flag no_hidden_header
            (read_stream flag no_hidden_header delimiter carry e n bufs.flatten) := by
  induction bufs with
  | nil => intro _ e carry n; rfl
  | cons buf bufs ih =>
      intro hbufs e carry n
      -- the buffers behind this one are one stream by induction
      have hrest := ih (fun b hb => hbufs b (List.mem_cons_of_mem buf hb))
      rw [import_buffers, if_neg hd, get_lines_eq flag no_hidden_header delimiter buf
        (hbufs buf List.mem_cons_self) e carry n, List.flatten_cons, read_stream_append]
      dsimp only
      generalize read_stream flag no_hidden_header delimiter carry e n buf = st
      obtain ⟨e', carry', n', parsing⟩ := st
      cases parsing with
      | true =>
          rw [if_pos rfl, if_pos rfl]
          exact hrest e' carry' n'
      | false => rfl

theorem get_line_delimiter_ne_nul (buf : Bytes) : get_line_delimiter buf ≠ NUL := by
  rcases get_line_delimiter_values buf with h | h | h
  · rw [h]; decide
  · rw [h]; decide
  · rw [h]; decide

/-- **Importing buffers** is reading what they hold, with the delimiter
    guessed from the first of them. -/
theorem import_buffers_eq (buf : Bytes) (bufs : List Bytes) (hbufs : ∀ b ∈ buf :: bufs, b ≠ []) :
    import_from (buf :: bufs) flag no_hidden_header =
      let st := finish flag no_hidden_header (read_stream flag no_hidden_header
        (get_line_delimiter buf) [] new 0 (buf :: bufs).flatten)
      (st.e, st.n_byte) := by
  have hnul := get_line_delimiter_ne_nul buf
  have hknown := import_buffers_known flag no_hidden_header (get_line_delimiter buf) hnul
    (buf :: bufs) hbufs new [] 0
  rw [← hknown]
  unfold import_from
  -- the first round finds the delimiter that the second form is given
  rw [import_buffers, import_buffers]
  dsimp only
  rw [if_pos rfl, if_neg hnul]

/-- **`import_data`** reads its input in one piece. -/
theorem import_data_eq (buf : Bytes) (hbuf : buf ≠ []) :
    import_data buf flag no_hidden_header =
      let st := read_stream flag no_hidden_header (get_line_delimiter buf) [] new 0 buf
      (st.e.parse_line st.line no_hidden_header (with_body flag),
        st.n_byte + toInt st.line.length) := by
  unfold import_data
  dsimp only
  rw [get_lines_eq flag no_hidden_header _ buf hbuf]

/-! ## §4. The lines of a text. -/

/-- All lines of a stream, the unfinished one included. -/
def all_lines (xs : Bytes) : List Bytes := (cut delimiter [] xs).1 ++ [(cut delimiter [] xs).2]

theorem all_lines_flatten (xs : Bytes) :
    (all_lines delimiter xs).flatten = xs := by
  unfold all_lines
  have h := cut_bytes delimiter xs []
  rw [List.flatten_append, List.flatten_singleton]
  exact h

/-- The lines in front of another one are whole. -/
theorem all_lines_init (x : Bytes) (P Q : List Bytes) (h : all_lines delimiter x = P ++ Q)
    (hQ : Q ≠ []) : ∀ l ∈ P, IsLine delimiter l := by
  obtain ⟨init, last, rfl⟩ := (List.eq_nil_or_concat' Q).resolve_left hQ
  unfold all_lines at h
  rw [← List.append_assoc] at h
  have hP := (List.append_inj' h rfl).1
  intro l hl
  apply cut_isLine delimiter x [] List.not_mem_nil l
  rw [hP]
  exact List.mem_append_left init hl

/-- The first line begins where the text begins. -/
theorem all_lines_head (xs : Bytes) (hx : xs ≠ []) :
    ∃ l ls, all_lines delimiter xs = l :: ls ∧ l ≠ [] ∧ deref l = deref xs := by
  have hflat := all_lines_flatten delimiter xs
  cases hl : all_lines delimiter xs with
  | nil =>
      rw [hl] at hflat
      exact absurd hflat.symm hx
  | cons l ls =>
      rw [hl, List.flatten_cons] at hflat
      have hne : l ≠ [] := by
        unfold all_lines at hl
        cases hc : (cut delimiter [] xs).1 with
        | nil =>
            -- the only line is the unfinished one, which is the whole text
            rw [hc, List.nil_append] at hl
            have hls : ls = [] := (List.cons.inj hl).2.symm
            rw [hls, List.flatten_nil, List.append_nil] at hflat
            rw [hflat]
            exact hx
        | cons a as =>
            rw [hc] at hl
            have ha : a = l := (List.cons.inj hl).1
            rw [← ha]
            exact (cut_isLine delimiter xs [] List.not_mem_nil a
              (by rw [hc]; exact List.mem_cons_self)).ne_nil
      refine ⟨l, ls, rfl, hne, ?_⟩
      cases l with
      | nil => exact absurd rfl hne
      | cons b l =>
          rw [← hflat]
          rfl

/-! ## §5. Without an early end. -/

theorem feed_to_end (hflag : flag ≠ .HEADER) (ls : List Bytes) :
    ∀ (e : MIME_Entity) (n : Int),
      (feed flag no_hidden_header e n ls).parsing = true ∧
      (feed flag no_hidden_header e n ls).e
        = e.parse_lines no_hidden_header (with_body flag) ls := by
  induction ls with
  | nil => intro e n; exact ⟨rfl, rfl⟩
  | cons line ls ih =>
      intro e n
      have hgo : ¬ stops flag (e.parse_line line no_hidden_header (with_body flag)) = true := by
        intro h
        exact hflag (of_decide_eq_true h).1
      rw [feed, if_neg hgo, parse_lines_cons]
      exact ih _ _

theorem read_stream_to_end (hflag : flag ≠ .HEADER) (xs : Bytes) :
    let st := read_stream flag no_hidden_header delimiter [] new 0 xs
    st.parsing = true ∧ st.e.parse_line st.line no_hidden_header (with_body flag)
      = new.parse_lines no_hidden_header (with_body flag) (all_lines delimiter xs) := by
  obtain ⟨hp, he⟩ := feed_to_end flag no_hidden_header hflag (cut delimiter [] xs).1 new 0
  unfold read_stream all_lines
  dsimp only
  rw [if_pos hp, parse_lines_append, he]
  exact ⟨hp, rfl⟩

/-- **Without the flag `HEADER`** the entity is the parse of all lines. -/
theorem import_data_lines (hflag : flag ≠ .HEADER) (buf : Bytes) (hbuf : buf ≠ []) :
    (import_data buf flag no_hidden_header).1
      = new.parse_lines no_hidden_header (with_body flag)
          (all_lines (get_line_delimiter buf) buf) := by
  rw [import_data_eq flag no_hidden_header buf hbuf]
  exact (read_stream_to_end flag no_hidden_header _ hflag buf).2

theorem import_from_lines (hflag : flag ≠ .HEADER) (buf : Bytes) (bufs : List Bytes)
    (hbufs : ∀ b ∈ buf :: bufs, b ≠ []) :
    (import_from (buf :: bufs) flag no_hidden_header).1
      = new.parse_lines no_hidden_header (with_body flag)
          (all_lines (get_line_delimiter buf) (buf :: bufs).flatten) := by
  obtain ⟨hp, he⟩ := read_stream_to_end flag no_hidden_header (get_line_delimiter buf) hflag
    (buf :: bufs).flatten
  rw [import_buffers_eq flag no_hidden_header buf bufs hbufs]
  unfold finish
  dsimp only at hp he ⊢
  rw [if_pos hp]
  exact he

end Aos
