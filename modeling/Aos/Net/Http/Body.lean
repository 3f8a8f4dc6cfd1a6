/-
  Aos.Net.Http.Body — a request with a body, and where it ends.

  The loop reads the head line by line and then hands what is left of the block
  to `read_data`, which counts the body down.  `read_data` is called only when
  there are bytes in the block, so a body of no bytes is complete when the next
  byte comes; and the counter is filled by `atoi`.

  Main results:
    • `gets_lines`, `read_end` — the lines of the head, and the empty line;
    • `header_completed_post` — the head of such a request is completed;
    • `takes_body` — the body, wherever it is cut;
    • `framed_iff` — the requests that end with their last byte.
-/
import Aos.Net.Http.Segments

namespace Aos

open Lib.Packed Lib.Lines Lib.Feed

namespace HTTP_Server_IO

/-! ## §1. Requests. -/

/-- A POST or PUT request with a Content-Length; each line is without its CR LF. -/
structure Post_Request where
  first : Bytes
  headers : List Bytes
  body : Bytes
  first_lf : LF ∉ first
  method : lit "POST" <+: first ∨ lit "PUT" <+: first
  headers_text : ∀ t ∈ headers, LF ∉ t ∧ t ≠ []
  declares : ∃ before t after, headers = before ++ t :: after ∧ deref t = 67 ∧
    length_field t = some body.length ∧
    ∀ u ∈ before ++ after, field (lit "content-length:") u = none

namespace Post_Request

def entries (q : Post_Request) : List Bytes := q.first :: q.headers

def head (q : Post_Request) : Bytes := (q.entries.map (· ++ [CR, LF])).flatten ++ [CR, LF]

/-- The chunks up to the one that brings the last byte of the request, and what of
    the following request comes with it. -/
structure Arrival (q : Post_Request) where
  chunks : List Bytes
  next : Bytes
  nonempty : ∀ chunk ∈ chunks, chunk ≠ []
  bytes : chunks.flatten = q.head ++ (q.body ++ next)
  whole : Whole_Ends chunks
  last : ∀ chunk, chunks.getLast? = some chunk → next.length < chunk.length

end Post_Request

/-- The loop is left in RD_OK without a further byte, and what follows the request
    is in the block. -/
def Framed (io : HTTP_Server_IO) {q : Post_Request} (a : q.Arrival) : Prop :=
  ∃ io', reader.Runs ⟨io.read_reset, [], a.chunks⟩ (some ⟨io', a.next, []⟩) ∧ io'.rd_state_ = .RD_OK

/-! ## §2. The head. -/

theorem strip_cr (u : Bytes) : strip (u ++ [CR]) = u := by
  unfold strip
  rw [List.getLast?_concat, if_pos rfl, List.dropLast_concat]

/-- **Lines with whole ends**: each is an entry, or the head is too long. -/
theorem gets_lines (us : List Bytes) :
    ∀ (L : List Bytes) (rest : Bytes) (ps : List Bytes), L ≠ [] →
      (∀ u ∈ us, LF ∉ u ∧ u ≠ []) → (∀ p ∈ ps, IsPiece LF p) →
      ps.flatten = (us.map (· ++ [CR, LF])).flatten ++ rest → Whole_Ends ps →
      ∃ qs ps', ps = qs ++ ps' ∧ ps'.flatten = rest ∧ Whole_Ends ps' ∧
        Gets (closed L) qs (closed (L ++ us)) (total (L ++ us) + 2) := by
  induction us with
  | nil =>
      intro L rest ps _ _ _ hflat hwhole
      refine ⟨[], ps, rfl, hflat, hwhole, ?_⟩
      rw [List.append_nil]
      exact gets_nil _ _
  | cons u us ih =>
      intro L rest ps hL hus hps hflat hwhole
      obtain ⟨hlf, hne⟩ := hus u List.mem_cons_self
      have hline : ps.flatten = (u ++ [CR]) ++ LF :: ((us.map (· ++ [CR, LF])).flatten ++ rest) := by
        rw [hflat, List.map_cons, List.flatten_cons]
        simp
      have hcr : LF ∉ u ++ [CR] := by
        have hdiff : LF ≠ CR := by decide
        simp [hlf, hdiff]
      obtain ⟨qs, ps₁, e, rfl, hps₁, hgets, _, hends⟩ :=
        gets_first_line (ready_closed hL) hcr (fun _ => by rw [strip_cr]; exact hne) hps hline
      obtain ⟨he, hwhole₁⟩ := hends.mp hwhole
      rw [strip_cr] at he
      subst he
      obtain ⟨qs', ps', rfl, hps', hwhole', hgets'⟩ :=
        ih (L ++ [e]) rest ps₁ (by simp) (fun v hv => hus v (List.mem_cons_of_mem e hv))
          (fun p hp => hps p (List.mem_append_right qs hp)) hps₁ hwhole₁
      rw [List.append_assoc, List.singleton_append] at hgets'
      refine ⟨qs ++ qs', ps', (List.append_assoc qs qs' ps').symm, hps', hwhole', ?_⟩
      apply hgets.trans hgets'
      rw [List.length_append, List.length_singleton, total_append, total_cons]
      omega

/-- The empty line with a whole end is one piece. -/
theorem empty_line {rest : Bytes} {ps : List Bytes} (hps : ∀ p ∈ ps, IsPiece LF p)
    (hflat : ps.flatten = [CR, LF] ++ rest) (hwhole : Whole_Ends ps) :
    ∃ ps', ps = [CR, LF] :: ps' ∧ ps'.flatten = rest := by
  have hlf : LF ∉ [CR] := by decide
  obtain ⟨parts, last, ps', rfl, hparts, hlast, hblank, hrest⟩ := piece_line ps [CR] hlf hps hflat
  obtain ⟨huncut, _⟩ := (whole_ends_line hparts hlast).mp hwhole
  cases parts with
  | nil =>
      rw [List.flatten_nil, List.nil_append] at hblank
      subst hblank
      exact ⟨ps', rfl, hrest⟩
  | cons p parts =>
      -- the first part is the CR, and the line feed is cut from it
      obtain ⟨hp, _⟩ := hparts p List.mem_cons_self
      have hpos := List.length_pos_iff.mpr hp
      have hlen := congrArg List.length hblank
      rw [List.flatten_cons, List.length_append, List.length_append, List.length_singleton] at hlen
      obtain rfl : last = [] := List.length_eq_zero_iff.mp (by omega)
      rw [List.append_nil] at hblank
      exact absurd ⟨rfl, by rw [hblank]⟩ huncut

/-- The empty line, in a head of any length. -/
theorem read_end (L : List Bytes) (hsize : total L + 2 ≤ HEADER_MAX) :
    (closed L).read_piece [CR, LF] = (closed L).header_completed := by
  have hblank : [CR] = [] ∨ [CR] = [CR] := Or.inr rfl
  exact read_blank hblank hsize

/-! ## §3. The end of the head. -/

theorem strncasecmp_method {first : Bytes} (h : lit "POST" <+: first ∨ lit "PUT" <+: first)
    (tail : Bytes) :
    strncasecmp (first ++ NUL :: tail) (lit "POST") 4 = 0 ∨
      strncasecmp (first ++ NUL :: tail) (lit "PUT") 3 = 0 := by
  rw [strncasecmp_nul, strncasecmp_nul]
  rcases h with ⟨rest, rfl⟩ | ⟨rest, rfl⟩
  · refine Or.inl ?_
    rw [← strncasecmp_take]
    exact strncasecmp_self 4 (lit "POST")
  · refine Or.inr ?_
    rw [← strncasecmp_take]
    exact strncasecmp_self 3 (lit "PUT")

/-- A line that is no Content-Length is not taken for one. -/
theorem length_text_of_field {u : Bytes} (h : field (lit "content-length:") u = none) :
    length_text u = none := by
  cases htext : length_text u with
  | none => rfl
  | some v =>
      obtain ⟨_, hname, _⟩ := length_text_name htext
      have hlower : lower (u.take (lit "content-length:").length) = lower (lit "content-length:") :=
        lower_of_strncasecmp 15 u (lit "content-length:") hname (by decide) (by decide)
      rw [field, if_pos hlower] at h
      exact absurd h (by simp)

/-- The object that is to read `n` bytes of a body. -/
def in_body (q : Post_Request) : HTTP_Server_IO :=
  ⟨.RD_DATA, q.body.length, kept q.headers 0, packed q.entries⟩

/-- **The head of a request with a body** is completed if the length is an `int`. -/
theorem header_completed_post (q : Post_Request) :
    (closed q.entries).header_completed
      = if q.body.length < 2 ^ 31 then some (in_body q) else none := by
  obtain ⟨before, t, after, hheaders, hcapital, hlength, hothers⟩ := q.declares
  obtain ⟨v, htext, hnum⟩ := atoi_length_field hcapital hlength
  have hone : q.headers.filterMap length_text = [v] := by
    have hnone : ∀ l : List Bytes, (∀ u ∈ l, u ∈ before ++ after) →
        l.filterMap length_text = [] := fun l hl =>
      List.filterMap_eq_nil_iff.mpr fun u hu => length_text_of_field (hothers u (hl u hu))
    rw [hheaders, List.filterMap_append, List.filterMap_cons, htext,
      hnone before (fun u hu => List.mem_append_left _ hu),
      hnone after (fun u hu => List.mem_append_right _ hu)]
    rfl
  obtain ⟨tail, htail⟩ := (represents_packed q.entries).at_ 0 (Nat.succ_pos _)
  have hfirst : ((packed q.entries).at_ 0).getD [] = q.first ++ NUL :: tail := by
    rw [htail]
    rfl
  unfold header_completed
  show (at_end q.first q.headers).parse_header.map _ = _
  rw [parse_header_lines, parse_lines_eq, hone]
  by_cases hlt : q.body.length < 2 ^ 31
  · rw [if_pos hlt] at hnum ⊢
    rw [if_pos (by simp [hnum]), Option.map_some]
    show some (if strncasecmp (((packed q.entries).at_ 0).getD []) (lit "POST") 4 = 0 ∨
      strncasecmp (((packed q.entries).at_ 0).getD []) (lit "PUT") 3 = 0 then _ else _) = _
    rw [hfirst, if_pos (strncasecmp_method q.method tail)]
    have hcount : counted [v].getLast? NO_CONTENT_LENGTH = q.body.length := by
      simp only [counted, List.getLast?_singleton, Option.bind_some, hnum, Option.elim_some]
      omega
    show some (⟨.RD_DATA, counted [v].getLast? NO_CONTENT_LENGTH, _, _⟩ : HTTP_Server_IO) = _
    rw [hcount]
    rfl
  · rw [if_neg hlt] at hnum ⊢
    rw [if_neg (by simp [hnum]), Option.map_none]

/-! ## §4. The body. -/

/-- The block holds the rest of the body. -/
theorem read_data_all {io : HTTP_Server_IO} (hst : io.rd_state_ = .RD_DATA) {b : Bytes}
    (hbyte : io.rd_byte_ = b.length) (hint : b.length < 2 ^ 31) (mb : Bytes) :
    io.read_data (b ++ mb) = ({ io with rd_byte_ := 0, rd_state_ := .RD_OK }, b, mb) := by
  have hcounts : io.rd_byte_ ≠ NO_CONTENT_LENGTH := by
    unfold NO_CONTENT_LENGTH
    omega
  have hroom : ¬ io.rd_byte_ > (b ++ mb).length := by
    rw [List.length_append]
    omega
  unfold read_data
  rw [if_pos hst, if_pos hcounts, if_neg hroom]
  simp [hbyte]

/-- The block is a part of it. -/
theorem read_data_part {io : HTTP_Server_IO} (hst : io.rd_state_ = .RD_DATA) {mb b : Bytes}
    (hbyte : io.rd_byte_ = (mb ++ b).length) (hb : 0 < b.length)
    (hint : (mb ++ b).length < 2 ^ 31) :
    io.read_data mb = ({ io with rd_byte_ := b.length }, mb, []) := by
  have hcounts : io.rd_byte_ ≠ NO_CONTENT_LENGTH := by
    unfold NO_CONTENT_LENGTH
    omega
  rw [List.length_append] at hbyte
  have hroom : io.rd_byte_ > mb.length := by omega
  have hleft : io.rd_byte_ - mb.length = b.length := by omega
  unfold read_data
  rw [if_pos hst, if_pos hcounts, if_pos hroom]
  simp only [hleft, if_neg (by omega : ¬ b.length = 0), List.take_length, List.drop_length]

/-- **The body, wherever it is cut.** -/
theorem takes_body (n : Nat) (hint : n < 2 ^ 31) : ∀ (b : Bytes) (io : HTTP_Server_IO),
    b.length = n → b ≠ [] → io.rd_state_ = .RD_DATA → io.rd_byte_ = b.length →
      reader.Takes id io b { io with rd_byte_ := 0, rd_state_ := .RD_OK } := by
  induction n using Nat.strong_induction_on with
  | _ n ih =>
      intro b io hn hne hst hbyte
      have hidle : reader.done io = false := by
        show decide (io.rd_state_ = .RD_OK ∨ io.rd_state_ = .RD_ERR_HEADER_OVERSIZE) = false
        rw [hst]
        rfl
      apply reader.takes_of_call rfl hidle hne
      intro mb rest hmb hpre
      by_cases hall : b.length ≤ mb.length
      · obtain ⟨mb', rfl⟩ : b <+: mb :=
          List.prefix_of_prefix_length_le (List.prefix_append b rest) hpre hall
        refine ⟨_, mb', b, [], (List.append_nil b).symm, rfl, ?_, reader.takes_nil id _⟩
        rw [reader_data hst, read_data_all hst hbyte (by omega)]
      · obtain ⟨b', rfl⟩ : mb <+: b :=
          List.prefix_of_prefix_length_le hpre (List.prefix_append b rest) (by omega)
        have hmbpos := List.length_pos_iff.mpr hmb
        have hlen : (mb ++ b').length = mb.length + b'.length := List.length_append
        have hb' : b' ≠ [] := List.length_pos_iff.mp (by omega)
        refine ⟨{ io with rd_byte_ := b'.length }, [], mb, b', rfl, (List.append_nil mb).symm, ?_,
          ih b'.length (by omega) (by omega) b' _ rfl hb' hst rfl⟩
        rw [reader_data hst, read_data_part hst hbyte (by omega) (by omega)]

/-! ## §5. The whole request. -/

variable {q : Post_Request} (a : q.Arrival)

/-- **The pieces of the head**, the empty line, and what comes behind it. -/
theorem head_pieces :
    ∃ qs ps', (a.chunks.map (pieces LF)).flatten = qs ++ [CR, LF] :: ps' ∧
      ps'.flatten = q.body ++ a.next ∧
      Gets start qs (closed q.entries) (total q.entries + 2) := by
  have hps : ∀ p ∈ (a.chunks.map (pieces LF)).flatten, IsPiece LF p := by
    intro p hp
    obtain ⟨_, hl, hpl⟩ := List.mem_flatten.mp hp
    obtain ⟨chunk, _, rfl⟩ := List.mem_map.mp hl
    exact pieces_isPiece LF chunk p hpl
  have hcr : LF ∉ q.first ++ [CR] := by
    have hdiff : LF ≠ CR := by decide
    simp [q.first_lf, hdiff]
  have hflat : (a.chunks.map (pieces LF)).flatten.flatten = (q.first ++ [CR]) ++ LF ::
      ((q.headers.map (· ++ [CR, LF])).flatten ++ ([CR, LF] ++ (q.body ++ a.next))) := by
    rw [pieces_all_flatten, a.bytes, Post_Request.head, Post_Request.entries, List.map_cons,
      List.flatten_cons]
    simp
  obtain ⟨qs, ps₁, e, hsplit, hps₁, hgets, _, hends⟩ :=
    gets_first_line ready_start hcr (fun h => absurd rfl h) hps hflat
  rw [whole_ends_pieces, strip_cr] at hends
  obtain ⟨rfl, hwhole₁⟩ := hends.mp a.whole
  have hps' : ∀ p ∈ ps₁, IsPiece LF p := fun p hp =>
    hps p (by rw [hsplit]; exact List.mem_append_right qs hp)
  obtain ⟨qs', ps₂, rfl, hps₂, hwhole₂, hgets'⟩ :=
    gets_lines q.headers [q.first] _ ps₁ (by simp) q.headers_text hps' hps₁ hwhole₁
  obtain ⟨ps', rfl, hps₃⟩ := empty_line (fun p hp => hps' p (List.mem_append_right qs' hp))
    hps₂ hwhole₂
  refine ⟨qs ++ qs', ps', by rw [hsplit, List.append_assoc], hps₃, ?_⟩
  apply hgets.trans hgets'
  rw [List.length_append, List.length_singleton, total_append, total_cons, total_nil]
  omega

/-- A head that is too long is refused. -/
theorem refused_of_long (hlong : HEADER_MAX < total q.entries + 2) :
    ∃ c, reader.Runs ⟨start, [], a.chunks⟩ (some c) ∧ c.io.rd_state_ = .RD_ERR_HEADER_OVERSIZE := by
  obtain ⟨qs, ps', hsplit, _, hgets⟩ := head_pieces a
  -- the pieces up to the one that is too much
  obtain ⟨qs, rest, io', hfront, htakes, herr⟩ : Refuses start (qs ++ [[CR, LF]]) := by
    rcases hgets with htakes | ⟨hrefuses, _⟩
    · have hread : (closed q.entries).read_piece [CR, LF]
          = some { closed q.entries with rd_state_ := .RD_ERR_HEADER_OVERSIZE } := by
        have hlen : (closed q.entries).headers_.strs_.length = total q.entries :=
          length_packed q.entries
        apply if_pos
        rw [hlen]
        exact hlong
      exact ⟨qs ++ [[CR, LF]], [], _, (List.append_nil _).symm,
        htakes.trans (takes_piece (Or.inr rfl) hread), rfl⟩
    · exact hrefuses.append _
  have hd : Reader.Delivers (pieces LF) [] a.chunks (qs ++ (rest ++ ps')) := by
    refine ⟨?_, a.nonempty⟩
    rw [← List.append_assoc, ← hfront]
    show [] ++ _ = _
    rw [List.nil_append, hsplit]
    simp
  obtain ⟨mb', net', _, hruns⟩ := htakes [] a.chunks _ hd
  refine ⟨⟨io', mb', net'⟩, (hruns _).mpr ?_, herr⟩
  refine (reader.ends_done ?_ _).mpr rfl
  show decide (io'.rd_state_ = .RD_OK ∨ io'.rd_state_ = .RD_ERR_HEADER_OVERSIZE) = true
  exact decide_eq_true (Or.inr herr)

/-- **What the loop comes to behind the head**: the body and what follows it. -/
theorem runs_behind_head (hsize : total q.entries + 2 ≤ HEADER_MAX) (hint : q.body.length < 2 ^ 31) :
    ∃ mb net, Reader.Delivers id mb net (q.body ++ a.next) ∧
      ∀ r, reader.Runs ⟨start, [], a.chunks⟩ r ↔ reader.Runs ⟨in_body q, mb, net⟩ r := by
  obtain ⟨qs, ps', hsplit, hbehind, hgets⟩ := head_pieces a
  have hread : (closed q.entries).read_piece [CR, LF] = some (in_body q) := by
    rw [read_end q.entries hsize, header_completed_post, if_pos hint]
  have htakes := (hgets.takes hsize).trans (takes_piece (Or.inr rfl) hread)
  obtain ⟨mb, net, ⟨hleft, hnet⟩, hruns⟩ := htakes [] a.chunks ps'
    ⟨by rw [List.append_assoc]; exact hsplit, a.nonempty⟩
  refine ⟨mb, net, ⟨?_, hnet⟩, hruns⟩
  have hbytes := congrArg List.flatten hleft
  rw [List.flatten_append, pieces_flatten, pieces_all_flatten, hbehind] at hbytes
  rw [List.map_id]
  exact hbytes

/-- What is left when the request has been read is in the block. -/
theorem left_in_block {io : HTTP_Server_IO} {mb : Bytes} {net : List Bytes}
    (hruns : reader.Runs ⟨start, [], a.chunks⟩ (some ⟨io, mb, net⟩))
    (hd : Reader.Delivers id mb net a.next) : mb = a.next ∧ net = [] := by
  obtain ⟨hstream, _⟩ := hd
  rw [List.map_id] at hstream
  obtain ⟨front, hchunks⟩ : net <:+ a.chunks := reader.net_suffix hruns
  have hnone : net = [] := by
    by_contra hne
    -- the last chunk has not come, and it is longer than what is left
    have hlast : a.chunks.getLast? = some (net.getLast hne) := by
      rw [← hchunks, List.getLast?_append_of_ne_nil front hne, List.getLast?_eq_some_getLast hne]
    have hlong := a.last _ hlast
    have hmem := (List.sublist_flatten_of_mem (List.getLast_mem hne)).length_le
    have hlen := congrArg List.length hstream
    rw [List.length_append] at hlen
    omega
  subst hnone
  exact ⟨by simpa using hstream, rfl⟩

/-- A body of at least one byte. -/
theorem framed_of_body (hsize : total q.entries + 2 ≤ HEADER_MAX) (hint : q.body.length < 2 ^ 31)
    (hbody : q.body ≠ []) (io : HTTP_Server_IO) : Framed io a := by
  obtain ⟨mb, net, hd, hruns⟩ := runs_behind_head a hsize hint
  obtain ⟨mb', net', hd', hruns'⟩ :=
    takes_body _ hint q.body (in_body q) rfl hbody rfl rfl mb net a.next hd
  have hend : reader.Runs ⟨start, [], a.chunks⟩ (some
      ⟨{ in_body q with rd_byte_ := 0, rd_state_ := .RD_OK }, mb', net'⟩) :=
    (hruns _).mpr ((hruns' _).mpr ((reader.ends_done rfl _).mpr rfl))
  obtain ⟨rfl, rfl⟩ := left_in_block a hend hd'
  exact ⟨_, hend, rfl⟩

/-- A body of no bytes, and something behind it. -/
theorem framed_of_next (hsize : total q.entries + 2 ≤ HEADER_MAX) (hbody : q.body = [])
    (hnext : a.next ≠ []) (io : HTTP_Server_IO) : Framed io a := by
  have hlen : q.body.length = 0 := by rw [hbody]; rfl
  obtain ⟨mb, net, hd, hruns⟩ := runs_behind_head a hsize (by omega)
  rw [hbody, List.nil_append] at hd
  have hidle : reader.done (in_body q) = false := rfl
  obtain ⟨mb', net', hmb', hd', hblock⟩ := reader.ends_block id rfl hidle hd hnext
  -- `read_data` is called, and takes nothing
  have hread : reader.read (in_body q) mb'
      = some ({ in_body q with rd_byte_ := 0, rd_state_ := .RD_OK }, mb') := by
    have hnone : ([] : Bytes).length < 2 ^ 31 := Nat.two_pow_pos 31
    have htaken : (in_body q).read_data mb'
        = ({ in_body q with rd_byte_ := 0, rd_state_ := .RD_OK }, [], mb') :=
      read_data_all rfl hlen hnone mb'
    rw [reader_data rfl, htaken]
  have hend : reader.Runs ⟨start, [], a.chunks⟩ (some
      ⟨{ in_body q with rd_byte_ := 0, rd_state_ := .RD_OK }, mb', net'⟩) := by
    rw [hruns, hblock, reader.ends_read net' hidle hmb' hread]
    exact (reader.ends_done rfl _).mpr rfl
  obtain ⟨rfl, rfl⟩ := left_in_block a hend hd'
  exact ⟨_, hend, rfl⟩

/-- A body of no bytes, and nothing behind it: the loop waits. -/
theorem waits_of_nil (hsize : total q.entries + 2 ≤ HEADER_MAX) (hbody : q.body = [])
    (hnext : a.next = []) :
    reader.Runs ⟨start, [], a.chunks⟩ (some ⟨in_body q, [], []⟩) := by
  obtain ⟨mb, net, ⟨hstream, hnet⟩, hruns⟩ := runs_behind_head a hsize (by rw [hbody]; decide)
  rw [hbody, hnext, List.map_id] at hstream
  obtain ⟨hmb, hflat⟩ := List.append_eq_nil_iff.mp hstream
  have hnil : net = [] := by
    apply List.eq_nil_iff_forall_not_mem.mpr
    intro chunk hc
    exact hnet chunk hc (List.flatten_eq_nil_iff.mp hflat chunk hc)
  obtain rfl : mb = [] := hmb
  subst hnil
  exact (hruns _).mpr ((reader.ends_dry _ _).mpr rfl)

/-- A length that is no `int`. -/
theorem undefined_of_long_body (hsize : total q.entries + 2 ≤ HEADER_MAX)
    (hint : ¬ q.body.length < 2 ^ 31) : reader.Runs ⟨start, [], a.chunks⟩ none := by
  obtain ⟨qs, ps', hsplit, _, hgets⟩ := head_pieces a
  have hread : (closed q.entries).read_piece [CR, LF] = none := by
    rw [read_end q.entries hsize, header_completed_post, if_neg hint]
  have hfails := (hgets.takes hsize).fails (fails_piece (Or.inr rfl) hread)
  exact (hfails [] a.chunks ps' ⟨by rw [List.append_assoc]; exact hsplit, a.nonempty⟩ none).mpr rfl

/-- **Requests with a body.**  The loop ends with the last byte of the request, and
    leaves what follows it in the block, if and only if the head is not too long,
    the length is an `int`, and the body is not empty or something follows it in
    the same chunk. -/
theorem framed_iff (io : HTTP_Server_IO) (q : Post_Request) (a : q.Arrival) :
    Framed io a ↔ total q.entries + 2 ≤ HEADER_MAX ∧ q.body.length < 2 ^ 31 ∧
      (q.body ≠ [] ∨ a.next ≠ []) := by
  constructor
  · intro hframed
    obtain ⟨io', hruns, hok⟩ := hframed
    have hsize : total q.entries + 2 ≤ HEADER_MAX := by
      by_contra hlong
      obtain ⟨c, hc, herr⟩ := refused_of_long a (by omega)
      obtain rfl := Option.some.inj (hruns.unique _ hc)
      exact absurd (hok.symm.trans herr) (by decide)
    have hint : q.body.length < 2 ^ 31 := by
      by_contra hlong
      exact absurd (hruns.unique _ (undefined_of_long_body a hsize hlong)) (by simp)
    refine ⟨hsize, hint, ?_⟩
    by_contra hnone
    rw [not_or, not_not, not_not] at hnone
    have hwaits := hruns.unique _ (waits_of_nil a hsize hnone.1 hnone.2)
    rw [Option.some.injEq, Conn.mk.injEq] at hwaits
    rw [hwaits.1] at hok
    have hdata : ¬ Read.RD_DATA = Read.RD_OK := by decide
    exact hdata hok
  · intro h
    obtain ⟨hsize, hint, hmore⟩ := h
    by_cases hbody : q.body = []
    · exact framed_of_next a hsize hbody (hmore.resolve_left (fun hne => hne hbody)) io
    · exact framed_of_body a hsize hint hbody io

/-- An upload of nothing. -/
def put_nothing : Post_Request where
  first := lit "PUT / HTTP/1.1"
  headers := [lit "Content-Length: 0"]
  body := []
  first_lf := by decide
  method := by decide
  headers_text := by decide
  declares := ⟨[], lit "Content-Length: 0", [], rfl, rfl, by decide +kernel, by simp⟩

/-- It comes in one chunk. -/
def put_nothing_chunk : put_nothing.Arrival where
  chunks := [lit "PUT / HTTP/1.1\r\nContent-Length: 0\r\n\r\n"]
  next := []
  nonempty := by decide
  bytes := by decide
  whole := whole_ends_one _
  last := by decide

/-- It is complete, and the server waits for another byte. -/
theorem put_nothing_waits : ¬ Framed start put_nothing_chunk := by
  intro hframed
  obtain ⟨io', hruns, hok⟩ := hframed
  have hwaits := hruns.unique _ (waits_of_nil put_nothing_chunk (by decide) rfl rfl)
  rw [Option.some.injEq, Conn.mk.injEq] at hwaits
  rw [hwaits.1] at hok
  have hdata : ¬ Read.RD_DATA = Read.RD_OK := by decide
  exact hdata hok

end HTTP_Server_IO

end Aos
